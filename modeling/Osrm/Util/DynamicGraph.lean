import Mathlib.Data.Fintype.Basic

/-!
# Dynamic graphs

`util::DynamicGraph` keeps the edges of each node in one block of a shared array. A
node's edges are modelled by the list its block holds, in the block's order.

The order matters to `findEdge` only. `insertEdge` writes behind the block, or, where
the next slot is taken and the one before the block is free, moves the last edge in
front of the block first. Which of the two happens depends on the neighbouring blocks,
so it is an argument here (`before`). Deleting fills the gap with the last edge.
-/

namespace Osrm

open List

/-- An edge as its source's block stores it. -/
structure DynamicEdge (n : ℕ) (D : Type*) where
  target : Fin n
  data : D
  deriving DecidableEq, Repr

structure DynamicGraph (n : ℕ) (D : Type*) where
  /-- The edges of a node, `GetAdjacentEdgeRange`. -/
  edges : Fin n → List (DynamicEdge n D)

/-- `DynamicGraph::InputEdge`: an edge with both of its ends. -/
structure InputEdge (n : ℕ) (D : Type*) where
  source : Fin n
  target : Fin n
  data : D
  deriving DecidableEq, Repr

/-- Move the last element to the front. -/
def lastToFront {α : Type*} (l : List α) : List α :=
  match l.getLast? with
  | some last => last :: l.dropLast
  | none => []

theorem lastToFront_perm {α : Type*} (l : List α) : (lastToFront l).Perm l := by
  unfold lastToFront
  cases last : l.getLast? with
  | none => rw [getLast?_eq_none_iff.1 last]
  | some x =>
    have split := dropLast_append_getLast? x last
    conv_rhs => rw [← split]
    exact (perm_append_singleton x l.dropLast).symm

theorem lastToFront_length {α : Type*} (l : List α) : (lastToFront l).length = l.length :=
  (lastToFront_perm l).length_eq

namespace DynamicGraph

variable {n : ℕ} {D : Type*} (g : DynamicGraph n D)

def setEdges (u : Fin n) (l : List (DynamicEdge n D)) : DynamicGraph n D :=
  ⟨Function.update g.edges u l⟩

def insertEdge (before : Bool) (u v : Fin n) (data : D) : DynamicGraph n D :=
  g.setEdges u ((if before then lastToFront (g.edges u) else g.edges u) ++ [⟨v, data⟩])

/-- The loop of `DeleteEdgesTo` on the edges not yet looked at; the first argument is their number. -/
def dropEdgesTo (v : Fin n) : ℕ → List (DynamicEdge n D) → List (DynamicEdge n D)
  | 0, _ => []
  | _ + 1, [] => []
  | k + 1, e :: rest =>
    if e.target = v then dropEdgesTo v k (lastToFront rest) else e :: dropEdgesTo v k rest

def deleteEdgesTo (u v : Fin n) : DynamicGraph n D :=
  g.setEdges u (dropEdgesTo v (g.edges u).length (g.edges u))

/-- The step of `DeleteEdge` on the edges of the source: the last one fills the gap. -/
def fillWithLast {α : Type*} (l : List α) (k : ℕ) : List α :=
  match l.getLast? with
  | some last => (l.set k last).dropLast
  | none => []

/-- `DeleteEdge(source, e)`, where `e` is number `k` of the edges of its source. -/
def deleteEdge (u : Fin n) (k : ℕ) : DynamicGraph n D :=
  g.setEdges u (fillWithLast (g.edges u) k)

def filter (g : DynamicGraph n D) (keep : Fin n → Bool) : DynamicGraph n D :=
  ⟨fun u => if keep u then (g.edges u).filter (keep ·.target) else []⟩

/-- The constructor from a list of edges. -/
def ofEdges (graph : List (InputEdge n D)) : DynamicGraph n D :=
  ⟨fun u => (graph.filter (·.source = u)).map fun e => ⟨e.target, e.data⟩⟩

/-- `FindEdge(from, to)`: the first edge to the target, whatever its direction. -/
def findEdge (u v : Fin n) : Option (DynamicEdge n D) :=
  (g.edges u).find? (·.target = v)

/-- Overwrite the data of the first edge to `v`. -/
def setFirst (v : Fin n) (data : D) : List (DynamicEdge n D) → List (DynamicEdge n D)
  | [] => []
  | e :: rest => if e.target = v then ⟨v, data⟩ :: rest else e :: setFirst v data rest

/-- Overwrite the data of the edge that `findEdge` finds. -/
def setFoundData (u v : Fin n) (data : D) : DynamicGraph n D :=
  g.setEdges u (setFirst v data (g.edges u))

def renumber (oldToNew : Equiv.Perm (Fin n)) : DynamicGraph n D :=
  ⟨fun v => (g.edges (oldToNew.symm v)).map fun e => { e with target := oldToNew e.target }⟩

section Lemmas

variable {g : DynamicGraph n D} {u v w : Fin n} {data : D} {before : Bool} {e : DynamicEdge n D}
  {l : List (DynamicEdge n D)}

@[simp] theorem setEdges_same : (g.setEdges u l).edges u = l := by
  simp [setEdges]

theorem setEdges_other (other : w ≠ u) : (g.setEdges u l).edges w = g.edges w := by
  simp [setEdges, other]

theorem insertEdge_other (other : w ≠ u) : (g.insertEdge before u v data).edges w = g.edges w :=
  setEdges_other other

theorem mem_insertEdge : e ∈ (g.insertEdge before u v data).edges w ↔
    e ∈ g.edges w ∨ w = u ∧ e = ⟨v, data⟩ := by
  by_cases same : w = u
  · subst same
    cases before
    · simp [insertEdge]
    · simp [insertEdge, (lastToFront_perm (g.edges w)).mem_iff]
  · rw [insertEdge_other same]
    simp [same]

theorem dropEdgesTo_perm (v : Fin n) (k : ℕ) : ∀ l : List (DynamicEdge n D), l.length ≤ k →
    (dropEdgesTo v k l).Perm (l.filter (·.target ≠ v)) := by
  induction k with
  | zero =>
    intro l short
    rw [length_eq_zero_iff.1 (Nat.le_zero.1 short)]
    exact .nil
  | succ k ih =>
    intro l short
    cases l with
    | nil => exact .nil
    | cons e rest =>
      have short' : rest.length ≤ k := by simpa using short
      by_cases hit : e.target = v
      · -- the last edge takes the place of the deleted one and is looked at next
        have tail := ih (lastToFront rest) (by rwa [lastToFront_length])
        simp only [dropEdgesTo, hit, filter_cons]
        simpa using tail.trans ((lastToFront_perm rest).filter _)
      · simpa [dropEdgesTo, hit] using (ih rest short').cons e

theorem length_fillWithLast {α : Type*} (l : List α) (k : ℕ) : (fillWithLast l k).length = l.length - 1 := by
  unfold fillWithLast
  cases last : l.getLast? with
  | none => rw [getLast?_eq_none_iff.1 last]; rfl
  | some x => simp

/-- Exactly the deleted element is gone. -/
theorem fillWithLast_perm {α : Type*} {l : List α} {k : ℕ} (inside : k < l.length) : (l[k] :: fillWithLast l k).Perm l := by
  have nonempty : l ≠ [] := ne_nil_of_length_pos (by omega)
  have setNonempty : l.set k (l.getLast nonempty) ≠ [] := ne_nil_of_length_pos (by rw [length_set]; omega)
  have last : (l.set k (l.getLast nonempty)).getLast setNonempty = l.getLast nonempty := by
    rw [getLast_eq_getElem, getElem_set]
    simp only [length_set]
    by_cases same : k = l.length - 1
    · rw [if_pos same]
    · rw [if_neg same]
      exact (getLast_eq_getElem nonempty).symm
  have split := dropLast_append_getLast setNonempty
  rw [last] at split
  have erased : (fillWithLast l k).Perm (l.eraseIdx k) := by
    unfold fillWithLast
    rw [getLast?_eq_some_getLast nonempty]
    apply Perm.cons_inv (a := l.getLast nonempty)
    refine (perm_append_singleton _ _).symm.trans ?_
    rw [split]
    exact set_perm_cons_eraseIdx inside _
  exact (erased.cons _).trans (getElem_cons_eraseIdx_perm inside)

theorem deleteEdgesTo_other (other : w ≠ u) : (g.deleteEdgesTo u v).edges w = g.edges w :=
  setEdges_other other

theorem mem_deleteEdgesTo : e ∈ (g.deleteEdgesTo u v).edges w ↔
    e ∈ g.edges w ∧ (w = u → e.target ≠ v) := by
  by_cases same : w = u
  · subst same
    simp [deleteEdgesTo, (dropEdgesTo_perm v _ (g.edges w) le_rfl).mem_iff]
  · rw [deleteEdgesTo_other same]
    simp [same]

theorem findEdge_mem (found : g.findEdge u v = some e) : e ∈ g.edges u ∧ e.target = v := by
  have := find?_some found
  exact ⟨mem_of_find?_eq_some found, by simpa using this⟩

theorem setFirst_split (data : D) (found : l.find? (·.target = v) = some e) :
    ∃ l₁ l₂, l = l₁ ++ e :: l₂ ∧ setFirst v data l = l₁ ++ ⟨v, data⟩ :: l₂ := by
  induction l with
  | nil => cases found
  | cons x rest ih =>
    by_cases hit : x.target = v
    · have same : x = e := by simpa [hit] using found
      exact ⟨[], rest, by simp [same], by simp [setFirst, hit]⟩
    · obtain ⟨l₁, l₂, split, set⟩ := ih (by simpa [hit] using found)
      exact ⟨x :: l₁, l₂, by simp [split], by simp [setFirst, hit, set]⟩

theorem setFoundData_other (other : w ≠ u) : (g.setFoundData u v data).edges w = g.edges w :=
  setEdges_other other

/-- Apart from the edge that was found, the edges stay. -/
theorem setFoundData_spec (found : g.findEdge u v = some e) (data : D) :
    ⟨v, data⟩ ∈ (g.setFoundData u v data).edges u ∧
    (∀ x ∈ g.edges u, x ≠ e → x ∈ (g.setFoundData u v data).edges u) ∧
    ∀ x ∈ (g.setFoundData u v data).edges u, x = ⟨v, data⟩ ∨ x ∈ g.edges u := by
  obtain ⟨l₁, l₂, split, set⟩ := setFirst_split data found
  have here : (g.setFoundData u v data).edges u = l₁ ++ ⟨v, data⟩ :: l₂ := by
    rw [setFoundData, setEdges_same, set]
  rw [here, split]
  refine ⟨by simp, ?_, ?_⟩
  · intro x hx other
    simp only [mem_append, mem_cons] at hx ⊢
    tauto
  · intro x hx
    simp only [mem_append, mem_cons] at hx ⊢
    tauto

end Lemmas

end DynamicGraph

end Osrm
