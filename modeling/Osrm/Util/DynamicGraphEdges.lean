import Osrm.Util.DynamicGraphBlocks

/-!
# Edges of a dynamic graph by their ids

Some passes hold on to edge ids, which are places in the array, while they change targets and
data in place and delete edges. Here an edge is a node, a place in its range and the target there
(`Edge`). In a mirrored graph each edge has one in the opposite direction, and there is at most
one edge from a node to another.
-/

namespace Osrm.DynamicGraphArray

open Function List

variable {n : ℕ} {D : Type*} (g : DynamicGraphArray n D)

def getOutDegree (u : Fin n) : ℕ := (g.nodeArray u).edges

def beginEdges (u : Fin n) : ℕ := (g.nodeArray u).firstEdge

/-- `GetAdjacentEdgeRange(n)` -/
def edgeRange (u : Fin n) : List ℕ := range' (g.nodeArray u).firstEdge (g.nodeArray u).edges

/-- `GetTarget(e)`; a dummy has none. -/
def getTarget (e : ℕ) : Option (Fin n) := (g.edgeList e).target

def getEdgeData (e : ℕ) : D := (g.edgeList e).data

def setTarget (e : ℕ) (v : Fin n) : DynamicGraphArray n D :=
  { g with edgeList := update g.edgeList e { g.edgeList e with target := some v } }

/-- Change the data of an edge through the reference that `GetEdgeData(e)` returns. -/
def modifyData (e : ℕ) (f : D → D) : DynamicGraphArray n D :=
  { g with edgeList := update g.edgeList e { g.edgeList e with data := f (g.edgeList e).data } }

/-- `FindEdge(from, to)`; `none` stands for `SPECIAL_EDGEID`. -/
def findEdge (u v : Fin n) : Option ℕ := (g.edgeRange u).find? fun e => g.getTarget e = some v

def findEdgeInEitherDirection (u v : Fin n) : Option ℕ := (g.findEdge u v).or (g.findEdge v u)

/-- Edge `e` leads from `u` to `v`. -/
def Edge (u : Fin n) (e : ℕ) (v : Fin n) : Prop := g.InRange u e ∧ g.getTarget e = some v

instance (g : DynamicGraphArray n D) (u : Fin n) (e : ℕ) (v : Fin n) : Decidable (g.Edge u e v) := inferInstanceAs (Decidable (_ ∧ _))

/-- Each edge has one in the opposite direction, and there are neither loops nor parallel edges. -/
structure Mirrored : Prop where
  apart : ∀ {u v e}, g.InRange u e → g.InRange v e → u = v
  targeted : ∀ {u e}, g.InRange u e → ∃ v, g.getTarget e = some v
  mirror : ∀ {u e v}, g.Edge u e v → ∃ e', g.Edge v e' u
  simple : ∀ {u e e' v}, g.Edge u e v → g.Edge u e' v → e = e'
  loopless : ∀ {u e}, ¬ g.Edge u e u

variable {g : DynamicGraphArray n D} {u v w : Fin n} {e e' i : ℕ} {f : D → D}

theorem mem_edgeRange : e ∈ g.edgeRange u ↔ g.InRange u e := by
  rw [edgeRange, mem_range'_1, InRange]

theorem edge_of_findEdge (found : g.findEdge u v = some e) : g.Edge u e v := by
  have target := find?_some found
  exact ⟨mem_edgeRange.1 (mem_of_find?_eq_some found), of_decide_eq_true target⟩

theorem findEdge_eq_none : g.findEdge u v = none ↔ ∀ e, ¬ g.Edge u e v := by
  rw [findEdge, find?_eq_none]
  constructor
  · intro none e edge
    exact none e (mem_edgeRange.2 edge.1) (decide_eq_true edge.2)
  · intro none e inside target
    exact none e ⟨mem_edgeRange.1 inside, of_decide_eq_true target⟩

theorem findEdgeInEitherDirection_isSome : (g.findEdgeInEitherDirection u v).isSome = false ↔
    (∀ e, ¬ g.Edge u e v) ∧ ∀ e, ¬ g.Edge v e u := by
  rw [findEdgeInEitherDirection, Option.isSome_or, Bool.or_eq_false_iff, Option.isSome_eq_false_iff, Option.isNone_iff_eq_none,
    Option.isSome_eq_false_iff, Option.isNone_iff_eq_none, findEdge_eq_none, findEdge_eq_none]

theorem Mirrored.findEdge_eq (mirrored : g.Mirrored) (edge : g.Edge u e v) : g.findEdge u v = some e := by
  cases found : g.findEdge u v with
  | none => exact absurd edge (findEdge_eq_none.1 found e)
  | some e' => rw [mirrored.simple (edge_of_findEdge found) edge]

theorem Mirrored.target_eq (mirrored : g.Mirrored) {x : Fin n} (first : g.Edge u e v) (second : g.Edge w e x) : u = w ∧ v = x := by
  refine ⟨mirrored.apart first.1 second.1, ?_⟩
  exact Option.some.inj (first.2.symm.trans second.2)

/-- Only the places up to a bound need to be looked at. -/
theorem mirrored_of_size {m : ℕ} (size : ∀ u, (g.nodeArray u).firstEdge + (g.nodeArray u).edges ≤ m)
    (apart : ∀ e < m, ∀ u v, g.InRange u e → g.InRange v e → u = v)
    (targeted : ∀ e < m, ∀ u, g.InRange u e → ∃ v, g.getTarget e = some v)
    (mirror : ∀ e < m, ∀ u v, g.Edge u e v → ∃ e' < m, g.Edge v e' u)
    (simple : ∀ e < m, ∀ e' < m, ∀ u v, g.Edge u e v → g.Edge u e' v → e = e') (loopless : ∀ e < m, ∀ u, ¬ g.Edge u e u) :
    g.Mirrored := by
  have bound : ∀ {u e}, g.InRange u e → e < m := fun {u e} inside => inside.2.trans_le (size u)
  refine ⟨fun first second => apart _ (bound first) _ _ first second, fun inside => targeted _ (bound inside) _ inside, ?_,
    fun first second => simple _ (bound first.1) _ (bound second.1) _ _ first second, fun loop => loopless _ (bound loop.1) _ loop⟩
  intro u e v edge
  obtain ⟨e', -, opposite⟩ := mirror e (bound edge.1) u v edge
  exact ⟨e', opposite⟩

/-! ### Changes in place -/

theorem setTarget_getTarget : (g.setTarget e v).getTarget i = if i = e then some v else g.getTarget i := by
  simp only [getTarget, setTarget, update_apply]
  split <;> rfl

theorem setTarget_getEdgeData : (g.setTarget e v).getEdgeData i = g.getEdgeData i := by
  simp only [getEdgeData, setTarget, update_apply]
  split
  · next same => rw [same]
  · rfl

theorem modifyData_getTarget : (g.modifyData e f).getTarget i = g.getTarget i := by
  simp only [getTarget, modifyData, update_apply]
  split
  · next same => rw [same]
  · rfl

theorem modifyData_getEdgeData :
    (g.modifyData e f).getEdgeData i = if i = e then f (g.getEdgeData e) else g.getEdgeData i := by
  simp only [getEdgeData, modifyData, update_apply]
  split <;> rfl

/-- Deleting both edges of a node with two edges leaves the other nodes as they are. -/
theorem deleteBoth_spec (two : g.getOutDegree v = 2) (apart : ∀ {u e}, g.InRange u e → g.InRange v e → u = v) (e e' : ℕ)
    (first : g.InRange v e) (second : g.InRange v e') :
    let g' := (g.deleteEdge v e).deleteEdge v e'
    (∀ u, g'.getOutDegree u = if u = v then 0 else g.getOutDegree u) ∧ (∀ u i, g'.InRange u i ↔ u ≠ v ∧ g.InRange u i) ∧
      ∀ u i, u ≠ v → g.InRange u i → g'.getTarget i = g.getTarget i ∧ g'.getEdgeData i = g.getEdgeData i := by
  intro g'
  have nodes : g'.nodeArray = update g.nodeArray v ⟨g.beginEdges v, 0⟩ := by
    simp only [g', deleteEdge, update_self, update_idem]
    rw [show (g.nodeArray v).edges = 2 from two]
    rfl
  refine ⟨?_, ?_, ?_⟩
  · intro u
    rw [getOutDegree, nodes, update_apply]
    split <;> rfl
  · intro u i
    simp only [InRange, nodes]
    by_cases same : u = v
    · rw [same]
      simp
    · rw [update_of_ne same]
      exact (and_iff_right same).symm
  · intro u i other inside
    -- places that are written belong to the node itself
    have frame : ∀ j, g.InRange v j → i ≠ j := by
      rintro j inner rfl
      exact other (apart inside inner)
    have size : (g.nodeArray v).edges = 2 := two
    have low : i ≠ (g.nodeArray v).firstEdge := frame _ ⟨le_rfl, by omega⟩
    have high : i ≠ (g.nodeArray v).firstEdge + 1 := frame _ ⟨by omega, by omega⟩
    have same : g'.edgeList i = g.edgeList i := by
      simp only [g', deleteEdge, update_self, size, Nat.reduceSub, Nat.add_zero]
      rw [makeDummy_other low, update_of_ne (frame _ second), makeDummy_other high, update_of_ne (frame _ first)]
    exact ⟨congrArg Slot.target same, congrArg Slot.data same⟩

end Osrm.DynamicGraphArray
