import Mathlib.Algebra.BigOperators.Ring.Finset
import Mathlib.Algebra.Order.BigOperators.Group.Finset
import Mathlib.Data.Fintype.Prod
import Mathlib.Tactic.Linarith

/-!
# Unit flows in an undirected graph

A flow through edges of capacity one is a set of ordered pairs, kept by the first node: `v ∈ flow u`
says that a unit runs from `u` to `v`. Sending a unit from `u` to `v` takes back one that runs the
other way, or adds the pair. The flow over every cut that separates the sources from the sinks is
the same, so it is at most the number of edges of the cut, and a cut whose edges all carry flow is
a smallest one.
-/

namespace Osrm.Lib.UnitFlow

open Finset

variable {V : Type*} [DecidableEq V] (X : Finset V)

/-- What runs from one node to another, less what runs back. -/
def net (flow : V → Finset V) (u v : V) : ℤ := (if v ∈ flow u then 1 else 0) - (if u ∈ flow v then 1 else 0)

theorem net_swap (flow : V → Finset V) (u v : V) : net flow v u = -net flow u v := by
  rw [net, net]
  omega

section Net

variable [Fintype V] (flow : V → Finset V)

/-- What leaves a node, less what enters it. -/
def excess (u : V) : ℤ := ∑ v, net flow u v

/-- The excess of a set of nodes leaves it: within the set it cancels out. -/
theorem sum_excess : ∑ u ∈ X, excess flow u = ∑ u ∈ X, ∑ v ∈ Xᶜ, net flow u v := by
  have split : ∑ u ∈ X, excess flow u = ∑ u ∈ X, ∑ v ∈ X, net flow u v + ∑ u ∈ X, ∑ v ∈ Xᶜ, net flow u v := by
    rw [← sum_add_distrib]
    refine sum_congr rfl fun u _ => ?_
    exact (sum_add_sum_compl X (net flow u)).symm
  have inner : ∑ u ∈ X, ∑ v ∈ X, net flow u v = 0 := by
    have swapped : ∑ u ∈ X, ∑ v ∈ X, net flow u v = -∑ u ∈ X, ∑ v ∈ X, net flow u v := by
      calc ∑ u ∈ X, ∑ v ∈ X, net flow u v = ∑ v ∈ X, ∑ u ∈ X, net flow u v := sum_comm
        _ = ∑ v ∈ X, ∑ u ∈ X, -net flow v u := by simp only [← net_swap]
        _ = -∑ u ∈ X, ∑ v ∈ X, net flow u v := by simp
    omega
  rw [split, inner, zero_add]

end Net

/-! ### Cuts -/

section Cuts

variable [Fintype V]

/-- The edges that leave a set of nodes. -/
def cutEdges (adj : V → V → Prop) [DecidableRel adj] (X : Finset V) : Finset (V × V) :=
  (X ×ˢ Xᶜ).filter fun e => adj e.1 e.2

/-- A flow from sources to sinks along the edges of a graph. -/
structure IsFlow (adj : V → V → Prop) (source sink : V → Prop) (flow : V → Finset V) : Prop where
  edge : ∀ u v, v ∈ flow u → adj u v
  oneWay : ∀ u v, v ∈ flow u → u ∉ flow v
  conserved : ∀ u, ¬source u → ¬sink u → excess flow u = 0

/-- The set separates the sources from the sinks. -/
structure Separates (source sink : V → Prop) (X : Finset V) : Prop where
  source : ∀ u, source u → u ∈ X
  sink : ∀ u, sink u → u ∉ X

def value (source : V → Prop) [DecidablePred source] (flow : V → Finset V) : ℤ := ∑ u with source u, excess flow u

variable {adj : V → V → Prop} {source sink : V → Prop} [DecidablePred source] {flow : V → Finset V} {X : Finset V}

variable (isFlow : IsFlow adj source sink flow) (separates : Separates source sink X)

include isFlow separates

theorem value_eq :
    value source flow = ∑ u ∈ X, ∑ v ∈ Xᶜ, net flow u v := by
  rw [← sum_excess]
  refine sum_subset (fun u mem => separates.source u (mem_filter.1 mem).2) fun u mem other => ?_
  refine isFlow.conserved u (fun here => other (mem_filter.2 ⟨mem_univ u, here⟩)) fun here => ?_
  exact separates.sink u here mem

variable [DecidableRel adj]

omit isFlow separates in
theorem card_cutEdges : ((cutEdges adj X).card : ℤ) = ∑ u ∈ X, ∑ v ∈ Xᶜ, if adj u v then 1 else 0 := by
  rw [cutEdges, ← sum_product', sum_boole]

/-- A flow is at most as large as a cut. -/
theorem value_le :
    value source flow ≤ (cutEdges adj X).card := by
  rw [value_eq isFlow separates, card_cutEdges]
  refine sum_le_sum fun u _ => sum_le_sum fun v _ => ?_
  rw [net]
  by_cases forward : v ∈ flow u
  · rw [if_pos (isFlow.edge u v forward)]
    split <;> omega
  · rw [if_neg forward]
    split <;> split <;> omega

/-- A flow through all edges of a cut is as large as the cut. -/
theorem value_eq_card (full : ∀ u ∈ X, ∀ v ∉ X, adj u v → v ∈ flow u) (symmetric : ∀ u v, adj u v → adj v u) :
    value source flow = (cutEdges adj X).card := by
  rw [value_eq isFlow separates, card_cutEdges]
  refine sum_congr rfl fun u inside => sum_congr rfl fun v outside => ?_
  rw [mem_compl] at outside
  rw [net]
  by_cases edge : adj u v
  · have forward := full u inside v outside edge
    rw [if_pos forward, if_neg (isFlow.oneWay u v forward), if_pos edge, sub_zero]
  · rw [if_neg fun forward => edge (isFlow.edge u v forward), if_neg fun back => edge (symmetric v u (isFlow.edge v u back)),
      if_neg edge, sub_zero]

end Cuts

/-! ### Sending a unit -/

section Push

/-- A unit is sent from one node to another. -/
def push (flow : V → Finset V) (u v : V) : V → Finset V :=
  if u ∈ flow v then Function.update flow v ((flow v).erase u) else Function.update flow u (insert v (flow u))

/-- A unit is sent along a path. -/
def pushAll (flow : V → Finset V) : List V → V → Finset V
  | [] => flow
  | [_] => flow
  | u :: v :: path => pushAll (push flow u v) (v :: path)

variable {adj : V → V → Prop} {flow : V → Finset V} {u v a b : V}

theorem mem_push_of_back (back : u ∈ flow v) : b ∈ push flow u v a ↔ b ∈ flow a ∧ ¬(a = v ∧ b = u) := by
  rw [push, if_pos back, Function.update_apply]
  split_ifs with here
  · subst here
    rw [mem_erase]
    tauto
  · next other => tauto

theorem mem_push_of_free (free : u ∉ flow v) : b ∈ push flow u v a ↔ b ∈ flow a ∨ (a = u ∧ b = v) := by
  rw [push, if_neg free, Function.update_apply]
  split_ifs with here
  · subst here
    rw [mem_insert]
    tauto
  · next other => tauto

/-- Nothing but the pair itself is added. -/
theorem mem_of_mem_push (mem : b ∈ push flow u v a) : b ∈ flow a ∨ (a = u ∧ b = v) := by
  by_cases back : u ∈ flow v
  · exact .inl ((mem_push_of_back back).1 mem).1
  · exact (mem_push_of_free back).1 mem

theorem net_push (apart : u ≠ v) (residual : v ∉ flow u) :
    net (push flow u v) a b = net flow a b + (if a = u ∧ b = v then 1 else 0) - (if a = v ∧ b = u then 1 else 0) := by
  by_cases back : u ∈ flow v
  · simp only [net, mem_push_of_back back]
    grind
  · simp only [net, mem_push_of_free back]
    grind

theorem oneWay_push (apart : u ≠ v) (oneWay : ∀ u v, v ∈ flow u → u ∉ flow v) (a b : V) (mem : b ∈ push flow u v a) :
    a ∉ push flow u v b := by
  by_cases back : u ∈ flow v
  · rw [mem_push_of_back back] at mem ⊢
    exact fun other => oneWay a b mem.1 other.1
  · rw [mem_push_of_free back] at mem ⊢
    rintro (other | ⟨rfl, rfl⟩)
    · rcases mem with here | ⟨rfl, rfl⟩
      · exact oneWay a b here other
      · exact back other
    · rcases mem with here | ⟨same, -⟩
      · exact back here
      · exact apart same.symm

variable [Fintype V]

theorem excess_push (apart : u ≠ v) (residual : v ∉ flow u) (a : V) :
    excess (push flow u v) a = excess flow a + (if a = u then 1 else 0) - (if a = v then 1 else 0) := by
  have one (c d : V) : ∑ b, (if a = c ∧ b = d then (1 : ℤ) else 0) = if a = c then 1 else 0 := by
    by_cases here : a = c
    · simp [here]
    · simp [here]
  simp only [excess, net_push apart residual, sum_sub_distrib, sum_add_distrib, one]

/-- A path along which a unit can be sent: no edge on it carries one already. -/
structure Augmenting (adj : V → V → Prop) (flow : V → Finset V) (path : List V) : Prop where
  nodup : path.Nodup
  chain : path.IsChain fun u v => adj u v ∧ v ∉ flow u

/-- A unit sent along a path leaves its first node and enters its last one. -/
structure Sent (adj : V → V → Prop) (flow flow' : V → Finset V) (first last : V) : Prop where
  edge : ∀ u v, v ∈ flow' u → adj u v
  oneWay : ∀ u v, v ∈ flow' u → u ∉ flow' v
  excess : ∀ u, excess flow' u = excess flow u + (if u = first then 1 else 0) - (if u = last then 1 else 0)

theorem Augmenting.sent : ∀ {path : List V} {flow : V → Finset V} {u : V}, Augmenting adj flow (u :: path) →
    (∀ u v, v ∈ flow u → adj u v) → (∀ u v, v ∈ flow u → u ∉ flow v) →
      Sent adj flow (pushAll flow (u :: path)) u ((u :: path).getLast (List.cons_ne_nil u path))
  | [], flow, u, _, edge, oneWay => ⟨edge, oneWay, fun x => by rw [pushAll, List.getLast_singleton]; omega⟩
  | v :: path, flow, u, augmenting, edge, oneWay => by
    obtain ⟨fresh, nodup⟩ := List.nodup_cons.1 augmenting.nodup
    obtain ⟨⟨adjacent, residual⟩, chain⟩ := List.isChain_cons_cons.1 augmenting.chain
    have apart : u ≠ v := fun same => fresh (same ▸ List.mem_cons_self)
    have later : Augmenting adj (push flow u v) (v :: path) := by
      refine ⟨nodup, chain.imp_of_mem_imp fun a b mem _ here => ⟨here.1, fun pushed => ?_⟩⟩
      rcases mem_of_mem_push pushed with old | ⟨rfl, -⟩
      · exact here.2 old
      · exact fresh mem
    have rest := later.sent (fun a b mem => ?_) (oneWay_push apart oneWay)
    · rw [pushAll, List.getLast_cons (List.cons_ne_nil v path)]
      refine ⟨rest.edge, rest.oneWay, fun x => ?_⟩
      rw [rest.excess, excess_push apart residual]
      omega
    · rcases mem_of_mem_push mem with old | ⟨rfl, rfl⟩
      · exact edge a b old
      · exact adjacent

variable {source sink : V → Prop} [DecidablePred source] {flow' : V → Finset V} {first last : V}

/-- A unit sent from a source to a sink makes the flow larger by one. -/
theorem IsFlow.send (isFlow : IsFlow adj source sink flow) (sent : Sent adj flow flow' first last) (start : source first)
    (finish : sink last) (disjoint : ∀ u, source u → ¬sink u) :
    IsFlow adj source sink flow' ∧ value source flow' = value source flow + 1 := by
  refine ⟨⟨sent.edge, sent.oneWay, fun u notSource notSink => ?_⟩, ?_⟩
  · have notFirst : u ≠ first := fun same => notSource (same ▸ start)
    have notLast : u ≠ last := fun same => notSink (same ▸ finish)
    rw [sent.excess, isFlow.conserved u notSource notSink, if_neg notFirst, if_neg notLast]
    omega
  · have notLast : ¬source last := fun here => disjoint last here finish
    rw [value, value, sum_congr rfl fun u _ => sent.excess u, sum_sub_distrib, sum_add_distrib]
    simp [start, notLast]

end Push

end Osrm.Lib.UnitFlow
