import Osrm.Util.DynamicGraphLayout

/-!
# Dynamic graphs as multigraphs

A multigraph has a multiset of edges for each node. In every run of operations on a
`DynamicGraph`, the adjacency ranges hold the edges of the multigraph under the same
operations, no two ranges overlap, and what is in no range is a dummy.
-/

namespace Osrm

/-- The edges of each node, in no order. -/
abbrev Multigraph (n : ℕ) (D : Type*) := Fin n → Multiset (DynamicEdge n D)

namespace Multigraph

variable {n : ℕ} {D : Type*} (M : Multigraph n D)

def ofEdges (graph : List (InputEdge n D)) : Multigraph n D :=
  fun u => ((graph : Multiset (InputEdge n D)).filter (·.source = u)).map fun e => ⟨e.target, e.data⟩

def insertEdge (u v : Fin n) (data : D) : Multigraph n D :=
  Function.update M u (⟨v, data⟩ ::ₘ M u)

/-- Remove one copy of an edge. -/
def deleteEdge [DecidableEq D] (M : Multigraph n D) (u : Fin n) (e : DynamicEdge n D) : Multigraph n D :=
  Function.update M u ((M u).erase e)

def deleteEdgesTo (u v : Fin n) : Multigraph n D :=
  Function.update M u ((M u).filter (·.target ≠ v))

/-- Remove all edges from and to nodes that are not kept. -/
def filter (M : Multigraph n D) (keep : Fin n → Bool) : Multigraph n D :=
  fun u => if keep u then (M u).filter (keep ·.target) else 0

def renumber (oldToNew : Equiv.Perm (Fin n)) : Multigraph n D :=
  fun v => (M (oldToNew.symm v)).map fun e => { e with target := oldToNew e.target }

end Multigraph

namespace DynamicGraph

variable {n : ℕ} {D : Type*} {G : DynamicGraph n D} {u v : Fin n}

def toMultigraph (G : DynamicGraph n D) : Multigraph n D := fun u => G.edges u

theorem toMultigraph_setEdges (l : List (DynamicEdge n D)) :
    (G.setEdges u l).toMultigraph = Function.update G.toMultigraph u (l : Multiset (DynamicEdge n D)) := by
  funext w
  by_cases same : w = u
  · subst same
    rw [toMultigraph, setEdges_same, Function.update_self]
  · rw [toMultigraph, setEdges_other same, Function.update_of_ne same]
    rfl

theorem toMultigraph_insertEdge (before : Bool) (data : D) :
    (G.insertEdge before u v data).toMultigraph = G.toMultigraph.insertEdge u v data := by
  have perm : ((if before then lastToFront (G.edges u) else G.edges u) ++ [(⟨v, data⟩ : DynamicEdge n D)]).Perm
      (⟨v, data⟩ :: G.edges u) := by
    refine (List.perm_append_singleton _ _).trans (.cons _ ?_)
    cases before with
    | false => exact .refl _
    | true => exact lastToFront_perm _
  rw [insertEdge, toMultigraph_setEdges, Multiset.coe_eq_coe.2 perm]
  rfl

theorem toMultigraph_deleteEdge [DecidableEq D] {k : ℕ} (inside : k < (G.edges u).length) :
    (G.deleteEdge u k).toMultigraph = G.toMultigraph.deleteEdge u ((G.edges u)[k]) := by
  have perm := fillWithLast_perm inside
  have erased : (fillWithLast (G.edges u) k).Perm ((G.edges u).erase (G.edges u)[k]) := by
    have := perm.erase (G.edges u)[k]
    rwa [List.erase_cons_head] at this
  rw [deleteEdge, toMultigraph_setEdges, Multiset.coe_eq_coe.2 erased]
  rfl

theorem toMultigraph_deleteEdgesTo : (G.deleteEdgesTo u v).toMultigraph = G.toMultigraph.deleteEdgesTo u v := by
  have perm := dropEdgesTo_perm v _ (G.edges u) (Nat.le_refl _)
  rw [deleteEdgesTo, toMultigraph_setEdges, Multiset.coe_eq_coe.2 perm]
  rfl

theorem toMultigraph_filter (keep : Fin n → Bool) : (G.filter keep).toMultigraph = G.toMultigraph.filter keep := by
  funext u
  by_cases kept : keep u = true
  · simp [toMultigraph, filter, Multigraph.filter, kept]
  · simp [toMultigraph, filter, Multigraph.filter, kept]

theorem toMultigraph_renumber (oldToNew : Equiv.Perm (Fin n)) :
    (G.renumber oldToNew).toMultigraph = G.toMultigraph.renumber oldToNew := by
  funext v
  exact (Multiset.map_coe _ _).symm

theorem toMultigraph_ofEdges (graph : List (InputEdge n D)) : (ofEdges graph).toMultigraph = .ofEdges graph := by
  rfl

end DynamicGraph

namespace DynamicGraphArray

variable {n : ℕ} {D : Type*} [DecidableEq D]

/-- The states that a graph built from a sorted list can be in, each with the multigraph under the same operations.
`DeleteEdge` is called with a place of the source's range and removes the edge that stands there. -/
inductive Run : DynamicGraphArray n D → Multigraph n D → Prop
  | start {graph : List (InputEdge n D)} (fresh : ℕ → Slot n D) (sorted : graph.Pairwise (·.source ≤ ·.source)) :
      Run (ofEdges fresh graph) (.ofEdges graph)
  | insertEdge {g M} (run : Run g M) (fresh : ℕ → Slot n D) (u v : Fin n) (data : D) :
      Run (g.insertEdge fresh u v data).1 (M.insertEdge u v data)
  | deleteEdge {g M} (run : Run g M) {u : Fin n} {e : ℕ} (inRange : g.InRange u e) :
      Run (g.deleteEdge u e) ((g.edgeList e).edge?.elim M (M.deleteEdge u))
  | deleteEdgesTo {g M} (run : Run g M) (u v : Fin n) : Run (g.deleteEdgesTo u v).1 (M.deleteEdgesTo u v)
  | renumber {g M g'} (run : Run g M) {oldToNew : Equiv.Perm (Fin n)} (done : g.renumber oldToNew = some g') :
      Run g' (M.renumber oldToNew)
  | filter {g M} (run : Run g M) (fresh : ℕ → Slot n D) (keep : Fin n → Bool) : Run (g.filter fresh keep) (M.filter keep)

variable {g : DynamicGraphArray n D} {M : Multigraph n D}

/-- **The run.** Each operation keeps the lists of edges that the arrays represent in step with the multigraph. -/
theorem Run.represents (run : Run g M) : ∃ G, Represents g G ∧ G.toMultigraph = M := by
  induction run with
  | start fresh sorted => exact ⟨_, represents_ofEdges fresh sorted, DynamicGraph.toMultigraph_ofEdges _⟩
  | insertEdge run fresh u v data ih =>
    obtain ⟨G, rep, rfl⟩ := ih
    obtain ⟨before, rep'⟩ := rep.insertEdge u v data fresh
    exact ⟨_, rep', DynamicGraph.toMultigraph_insertEdge before data⟩
  | @deleteEdge g M run u e inRange ih =>
    obtain ⟨G, rep, rfl⟩ := ih
    obtain ⟨k, rfl⟩ := Nat.exists_eq_add_of_le inRange.1
    have inside : k < (g.nodeArray u).edges := by
      have := inRange.2
      omega
    have listed : k < (G.edges u).length := by rwa [← rep.length u]
    have slot : g.edgeList ((g.nodeArray u).firstEdge + k) = (G.edges u)[k].slot := by
      have read := Lib.Blocks.stored_iff.1 (rep.stored u) k (by rwa [List.length_map])
      rwa [List.getElem_map] at read
    refine ⟨_, rep.deleteEdge inside, ?_⟩
    rw [slot]
    exact DynamicGraph.toMultigraph_deleteEdge listed
  | deleteEdgesTo run u v ih =>
    obtain ⟨G, rep, rfl⟩ := ih
    exact ⟨_, rep.deleteEdgesTo u v, DynamicGraph.toMultigraph_deleteEdgesTo⟩
  | renumber run done ih =>
    obtain ⟨G, rep, rfl⟩ := ih
    exact ⟨_, rep.renumber done, DynamicGraph.toMultigraph_renumber _⟩
  | filter run fresh keep ih =>
    obtain ⟨G, rep, rfl⟩ := ih
    exact ⟨_, rep.filter fresh keep, DynamicGraph.toMultigraph_filter keep⟩

/-- **A dynamic graph is a multigraph.** In every run each adjacency range holds the edges of the multigraph's node, the
ranges lie in the array and do not overlap, and every slot outside of them is a dummy. -/
theorem run_multigraph (run : Run g M) :
    (∀ u, (g.adjacent u : Multiset (Slot n D)) = (M u).map DynamicEdge.slot) ∧
    (∀ u i, g.InRange u i → i < g.size) ∧
    (∀ u w i, g.InRange u i → g.InRange w i → u = w) ∧
    ∀ i < g.size, (∀ u, ¬ g.InRange u i) → isDummy g.edgeList i := by
  obtain ⟨G, rep, rfl⟩ := run.represents
  refine ⟨fun u => ?_, fun u i inside => rep.lt_size inside, rep.disjoint, rep.free⟩
  rw [rep.adjacent_eq u]
  exact (Multiset.map_coe _ _).symm

def leftEnd : Fin 2 := ⟨0, Nat.two_pos⟩

def rightEnd : Fin 2 := ⟨1, Nat.one_lt_two⟩

/-- Two nodes with an edge each. The new edge moves its node's block to the end of the array, and the old edge of the node
is deleted there. -/
def moved : DynamicGraphArray 2 ℕ :=
  ((ofEdges (fun _ => ⟨some leftEnd, 9⟩) [⟨leftEnd, rightEnd, 5⟩, ⟨rightEnd, leftEnd, 6⟩]).insertEdge (fun _ => ⟨some leftEnd, 9⟩)
    leftEnd rightEnd 7).1.deleteEdge leftEnd 2

theorem run_multigraph_moved : (moved.adjacent 0 : Multiset (Slot 2 ℕ)) = {⟨some 1, 7⟩} ∧ moved.size = 5 ∧
    ∀ i < moved.size, (∀ u, ¬ moved.InRange u i) → isDummy moved.edgeList i := by
  have run : Run moved (((Multigraph.ofEdges [⟨0, 1, 5⟩, ⟨1, 0, 6⟩]).insertEdge 0 1 7).deleteEdge 0 ⟨1, 5⟩) :=
    (Run.start (fun _ => ⟨some 0, 9⟩) (by decide)).insertEdge (fun _ => ⟨some 0, 9⟩) 0 1 7 |>.deleteEdge (by decide)
  refine ⟨((run_multigraph run).1 0).trans ?_, by decide, (run_multigraph run).2.2.2⟩
  decide

end DynamicGraphArray

end Osrm
