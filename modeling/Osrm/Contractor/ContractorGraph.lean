import Osrm.Util.Typedefs
import Osrm.Util.DynamicGraph

/-!
# The graph under contraction

An edge between `u` and `w` stands in the adjacency lists of both ends. At `u` the
`forward` flag says that it leads from `u` to the listed target, the `backward` flag
that it leads from the target to `u`. A shortcut's `id` is the node it bridges, the
`id` of any other edge names a turn.
-/

namespace Osrm

open Lib

structure ContractorEdgeData where
  weight : ℤ
  duration : ℤ
  distance : ℚ
  id : ℕ
  originalEdges : ℕ
  shortcut : Bool
  forward : Bool
  backward : Bool
  deriving DecidableEq, Repr

abbrev ContractorGraph (n : ℕ) := DynamicGraph n ContractorEdgeData
abbrev ContractorEdge (n : ℕ) := InputEdge n ContractorEdgeData

/-- The flag of one direction: `forward` for `true`, `backward` for `false`. -/
def ContractorEdgeData.flag (d : ContractorEdgeData) : Bool → Bool
  | true => d.forward
  | false => d.backward

theorem ContractorEdgeData.exists_flag {d : ContractorEdgeData} (directed : d.forward = true ∨ d.backward = true) :
    ∃ dir, d.flag dir = true := by
  rcases directed with h | h
  · exact ⟨true, h⟩
  · exact ⟨false, h⟩

/-- The two ends of an arc as the node listing it sees them. -/
def orient {n : ℕ} (dir : Bool) (u w : Fin n) : Fin n × Fin n := if dir then (u, w) else (w, u)

variable (dir : Bool)

@[simp] theorem orient_orient {n : ℕ} (u w : Fin n) :
    orient dir (orient dir u w).1 (orient dir u w).2 = (u, w) := by
  cases dir <;> rfl

theorem orient_not {n : ℕ} (u w : Fin n) : orient (!dir) w u = orient dir u w := by
  cases dir <;> rfl

namespace ContractorGraph

variable {n : ℕ} (g : ContractorGraph n)

/-- Some edge listed at `u` leads to (or, with `dir = false`, from) `w`. -/
def Listed (dir : Bool) : Arcs (Fin n) := fun u w c =>
  ∃ e ∈ g.edges u, e.target = w ∧ e.data.weight = c ∧ e.data.flag dir = true

instance (g : ContractorGraph n) (dir : Bool) (u w : Fin n) (c : ℤ) : Decidable (g.Listed dir u w c) :=
  inferInstanceAs (Decidable (∃ e ∈ g.edges u, e.target = w ∧ e.data.weight = c ∧ e.data.flag dir = true))

/-- The arcs listed at their start. -/
abbrev Forward : Arcs (Fin n) := g.Listed true

/-- The arcs listed at their end, from the end's side. -/
abbrev Backward : Arcs (Fin n) := g.Listed false

/-- An edge at least as good as `e`: same target, same directions, no heavier. -/
def AsGood (e e' : DynamicEdge n ContractorEdgeData) : Prop :=
  e'.target = e.target ∧ e'.data.forward = e.data.forward ∧ e'.data.backward = e.data.backward ∧
    e'.data.weight ≤ e.data.weight

/-- An edge under new node numbers; the middle node of a shortcut is renumbered as well. -/
def renumberEdge (oldToNew : Equiv.Perm (Fin n)) (e : DynamicEdge n ContractorEdgeData) :
    DynamicEdge n ContractorEdgeData where
  target := e.target
  data := if e.data.shortcut then
      { e.data with id := if h : e.data.id < n then oldToNew ⟨e.data.id, h⟩ else e.data.id }
    else e.data

def renumberGraph (oldToNew : Equiv.Perm (Fin n)) : ContractorGraph n :=
  ⟨fun v => ((g.renumber oldToNew).edges v).map (renumberEdge oldToNew)⟩

section Lemmas

variable {g : ContractorGraph n} {e e' e'' : DynamicEdge n ContractorEdgeData} {dir : Bool} {u w : Fin n}
  {f : Equiv.Perm (Fin n)}

theorem AsGood.refl (e : DynamicEdge n ContractorEdgeData) : AsGood e e := ⟨rfl, rfl, rfl, le_rfl⟩

theorem AsGood.trans (h : AsGood e e') (h' : AsGood e' e'') : AsGood e e'' :=
  ⟨h'.1.trans h.1, h'.2.1.trans h.2.1, h'.2.2.1.trans h.2.2.1, h'.2.2.2.trans h.2.2.2⟩

theorem AsGood.flag (h : AsGood e e') (dir : Bool) : e'.data.flag dir = e.data.flag dir := by
  cases dir
  · exact h.2.2.1
  · exact h.2.1

theorem AsGood.listed (h : AsGood e e') (mem : e' ∈ g.edges u) (flag : e.data.flag dir = true) :
    ∃ c ≤ e.data.weight, g.Listed dir u e.target c :=
  ⟨_, h.2.2.2, e', mem, h.1, rfl, (h.flag dir).trans flag⟩

section Renumber

variable (f : Equiv.Perm (Fin n)) (e)

@[simp] theorem renumberEdge_weight : (renumberEdge f e).data.weight = e.data.weight := by
  unfold renumberEdge
  split <;> rfl

@[simp] theorem renumberEdge_shortcut : (renumberEdge f e).data.shortcut = e.data.shortcut := by
  unfold renumberEdge
  split <;> rfl

@[simp] theorem renumberEdge_forward : (renumberEdge f e).data.forward = e.data.forward := by
  unfold renumberEdge
  split <;> rfl

@[simp] theorem renumberEdge_backward : (renumberEdge f e).data.backward = e.data.backward := by
  unfold renumberEdge
  split <;> rfl

@[simp] theorem renumberEdge_flag : (renumberEdge f e).data.flag dir = e.data.flag dir := by
  cases dir <;> simp [ContractorEdgeData.flag]

end Renumber

theorem mem_renumberGraph : e ∈ (renumberGraph g f).edges (f u) ↔
    ∃ e₀ ∈ g.edges u, renumberEdge f { e₀ with target := f e₀.target } = e := by
  simp [renumberGraph, DynamicGraph.renumber]

theorem listed_renumberGraph {c : ℤ} :
    (renumberGraph g f).Listed dir (f u) (f w) c ↔ g.Listed dir u w c := by
  constructor
  · rintro ⟨e, he, target, weight, flag⟩
    obtain ⟨e₀, he₀, rfl⟩ := mem_renumberGraph.1 he
    exact ⟨e₀, he₀, f.injective target, by simpa using weight, by simpa using flag⟩
  · rintro ⟨e, he, rfl, rfl, flag⟩
    exact ⟨_, mem_renumberGraph.2 ⟨e, he, rfl⟩, rfl, by simp, by simpa using flag⟩

end Lemmas

end ContractorGraph

end Osrm
