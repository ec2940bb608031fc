import Mathlib.Data.List.TakeWhile
import Osrm.Util.DynamicGraphBlocks

/-!
# Packed layouts of a dynamic graph

The constructor, `Filter` and `Renumber` lay out all blocks one after another with no dummy
in between (`represents_of_packed`). `Renumber` does it by a permutation of the slots: the
edges of the nodes come first, in the order of the nodes, and the dummies are cut off.
-/

namespace Osrm.DynamicGraphArray

open Function List

open Lib.Blocks

variable {n : ℕ} {D : Type*} {g : DynamicGraphArray n D} {G : DynamicGraph n D}

/-- The slots that hold the edges of a node. -/
def slots (G : DynamicGraph n D) (u : Fin n) : List (Slot n D) := (G.edges u).map DynamicEdge.slot

/-- **Blocks without gaps** in the order of the nodes represent their graph. -/
theorem represents_of_packed (table : ∀ u, g.nodeArray u = ⟨start (slots G) (finRange n) u, (slots G u).length⟩)
    (size : g.size = ((finRange n).flatMap (slots G)).length)
    (stored : Stored g.edgeList 0 ((finRange n).flatMap (slots G))) : Represents g G := by
  have range : ∀ u i, g.InRange u i ↔
      start (slots G) (finRange n) u ≤ i ∧ i < start (slots G) (finRange n) u + (slots G u).length := by
    intro u i
    rw [InRange, table u]
  constructor
  · intro u
    rw [table u]
    exact length_map _
  · intro u
    have block := stored.block (mem_finRange u)
    rw [Nat.zero_add] at block
    rw [table u]
    exact block
  · intro u
    rw [table u, size]
    exact start_add_le (mem_finRange u)
  · intro u w i hu hw
    rw [range] at hu hw
    exact eq_of_block (mem_finRange u) (mem_finRange w) hu.1 hu.2 hw.1 hw.2
  · intro i bound unused
    rw [size] at bound
    obtain ⟨u, _, inside⟩ := exists_block (nodup_finRange n) bound
    exact absurd ((range u i).2 inside) (unused u)

/-! ### The constructor -/

section OfEdges

variable {graph : List (InputEdge n D)} {x : Fin n}

/-- Sorting by source puts the edges of the first node first. -/
theorem filter_append_of_sorted (sorted : graph.Pairwise (·.source ≤ ·.source)) (least : ∀ e ∈ graph, x ≤ e.source) :
    graph.filter (·.source = x) ++ graph.filter (·.source ≠ x) = graph := by
  induction graph with
  | nil => rfl
  | cons e graph ih =>
    rw [pairwise_cons] at sorted
    by_cases first : e.source = x
    · simp only [filter_cons, first, decide_true, if_true, ne_eq,
        cons_append]
      congr 1
      exact ih sorted.2 fun e' mem => least e' (mem_cons_of_mem _ mem)
    · have later : ∀ e' ∈ e :: graph, e'.source ≠ x := by
        intro e' mem same
        have le : e.source ≤ e'.source := by
          cases mem with
          | head => exact le_refl _
          | tail _ mem => exact sorted.1 e' mem
        exact first (le_antisymm (same ▸ le) (least e mem_cons_self))
      rw [filter_eq_nil_iff.2 fun e' mem => by simp [later e' mem], filter_eq_self.2 fun e' mem => by simp [later e' mem]]
      rfl

/-- A sorted list is the edges of the first node, then those of the second, and so on. -/
theorem flatMap_filter_of_sorted {l : List (Fin n)} (increasing : l.Pairwise (· < ·)) :
    ∀ {graph : List (InputEdge n D)}, graph.Pairwise (·.source ≤ ·.source) → (∀ e ∈ graph, e.source ∈ l) →
      l.flatMap (fun u => graph.filter (·.source = u)) = graph := by
  induction l with
  | nil =>
    intro graph _ sources
    rw [eq_nil_iff_forall_not_mem.2 fun e mem => not_mem_nil (sources e mem)]
    rfl
  | cons x l ih =>
    intro graph sorted sources
    rw [pairwise_cons] at increasing
    have least : ∀ e ∈ graph, x ≤ e.source := by
      intro e mem
      rcases mem_cons.1 (sources e mem) with first | later
      · exact le_of_eq first.symm
      · exact le_of_lt (increasing.1 _ later)
    have rest := ih increasing.2 (sorted.filter (·.source ≠ x)) fun e mem => by
      obtain ⟨mem, other⟩ := mem_filter.1 mem
      exact (mem_cons.1 (sources e mem)).resolve_left (by simpa using other)
    have same : l.flatMap (fun u => graph.filter (·.source = u)) =
        l.flatMap (fun u => (graph.filter (·.source ≠ x)).filter (·.source = u)) := by
      apply flatMap_congr
      intro u mem
      rw [filter_filter]
      apply filter_congr
      intro e _
      have other : u ≠ x := fun same => absurd (increasing.1 u mem) (same ▸ lt_irrefl x)
      by_cases here : e.source = u
      · simp [here, other]
      · simp [here]
    rw [flatMap_cons, same, rest]
    exact filter_append_of_sorted sorted least

/-- The edges of a node stand in front of those of later nodes. -/
theorem takeWhile_source (graph : List (InputEdge n D)) {rest : List (Fin n)} (fresh : x ∉ rest) :
    ((x :: rest).flatMap fun u => graph.filter (·.source = u)).takeWhile (·.source = x) = graph.filter (·.source = x) := by
  have later : (rest.flatMap fun u => graph.filter (·.source = u)).takeWhile (·.source = x) = [] := by
    rw [takeWhile_eq_nil_iff]
    intro nonempty here
    obtain ⟨u, mem, inside⟩ := mem_flatMap.1 (get_mem _ ⟨0, nonempty⟩)
    have source := of_decide_eq_true (mem_filter.1 inside).2
    exact fresh ((source.symm.trans (of_decide_eq_true here)) ▸ mem)
  rw [flatMap_cons, takeWhile_append_of_pos fun e mem => (mem_filter.1 mem).2, later, append_nil]

/-- The counting loop finds the block of every node. -/
theorem countEdges_spec (sorted : graph.Pairwise (·.source ≤ ·.source)) (table : Fin n → DynamicNode) :
    ((finRange n).foldl (countEdges graph) ⟨table, 0, 0⟩).position = ((finRange n).flatMap (slots (.ofEdges graph))).length ∧
      ∀ u, ((finRange n).foldl (countEdges graph) ⟨table, 0, 0⟩).nodeArray u =
        ⟨start (slots (.ofEdges graph)) (finRange n) u, (slots (.ofEdges graph) u).length⟩ := by
  have whole := flatMap_filter_of_sorted (pairwise_lt_finRange n) sorted fun e _ => mem_finRange e.source
  obtain ⟨total, entries⟩ := fold_starts (slots (.ofEdges graph)) (countEdges graph) Counting.nodeArray Counting.position
    (fun u i => ⟨i, (slots (.ofEdges graph) u).length⟩) (fun rest t => rest.Nodup ∧ graph.drop t.edge = rest.flatMap fun u => graph.filter (·.source = u))
    (fun t x rest inv => by
      obtain ⟨nodup, ahead⟩ := inv
      rw [nodup_cons] at nodup
      have edges := takeWhile_source graph nodup.1
      rw [← ahead] at edges
      have length : (slots (.ofEdges graph) x).length = ((graph.drop t.edge).takeWhile (·.source = x)).length := by
        rw [edges, slots, DynamicGraph.ofEdges, length_map, length_map]
      refine ⟨⟨nodup.2, ?_⟩, ?_, ?_⟩
      · show graph.drop (t.edge + _) = _
        rw [← drop_drop, edges, ahead, flatMap_cons, drop_left]
      · rw [length]
        rfl
      · rw [length]
        rfl)
    (nodup_finRange n) ⟨table, 0, 0⟩ ⟨nodup_finRange n, whole.symm⟩
  rw [Nat.zero_add] at total
  refine ⟨total, fun u => ?_⟩
  rw [entries u, if_pos (mem_finRange u), Nat.zero_add]

theorem foldl_pushBack (l : List (Slot n D)) : ∀ (a : ℕ → Slot n D) (size : ℕ), (l.foldl pushBack (a, size)).2 = size + l.length ∧
    Stored (l.foldl pushBack (a, size)).1 size l ∧ ∀ j < size, (l.foldl pushBack (a, size)).1 j = a j := by
  induction l with
  | nil => exact fun a size => ⟨rfl, trivial, fun j _ => rfl⟩
  | cons x l ih =>
    intro a size
    obtain ⟨total, stored, kept⟩ := ih (update a size x) (size + 1)
    rw [foldl_cons]
    refine ⟨?_, ⟨?_, stored⟩, fun j hj => ?_⟩
    · rw [pushBack, total, length_cons]
      omega
    · rw [pushBack, kept size (by omega), update_self]
    · rw [pushBack, kept j (by omega), update_of_ne (by omega)]

/-- The copying loop appends the edges in their order. -/
theorem foldl_copyEdge (rest : List (InputEdge n D)) : ∀ (i : ℕ) (a : ℕ → Slot n D), graph.drop i = rest →
    (range' i rest.length).foldl (copyEdge graph) (a, i) = (rest.map fun e => ⟨some e.target, e.data⟩).foldl pushBack (a, i) := by
  induction rest with
  | nil => exact fun i a _ => rfl
  | cons e rest ih =>
    intro i a ahead
    have here : graph[i]? = some e := by
      have := congrArg head? ahead
      rwa [head?_drop] at this
    have tail : graph.drop (i + 1) = rest := by
      rw [← tail_drop, ahead]
      rfl
    rw [length_cons, range'_succ, foldl_cons, copyEdge, here]
    exact ih (i + 1) _ tail

/-- **The constructor.** -/
theorem represents_ofEdges (fresh : ℕ → Slot n D) (sorted : graph.Pairwise (·.source ≤ ·.source)) :
    Represents (ofEdges fresh graph) (.ofEdges graph) := by
  obtain ⟨total, entries⟩ := countEdges_spec sorted fun _ => ⟨0, 0⟩
  have whole := flatMap_filter_of_sorted (pairwise_lt_finRange n) sorted fun e _ => mem_finRange e.source
  have all : (finRange n).flatMap (slots (.ofEdges graph)) = graph.map fun e => ⟨some e.target, e.data⟩ := by
    conv_rhs => rw [← whole, map_flatMap]
    apply flatMap_congr
    intro u _
    rw [slots, DynamicGraph.ofEdges, map_map]
    rfl
  apply represents_of_packed
  · exact entries
  · exact total
  · -- the ranges of the nodes, one after another, are all slots
    have flat : (finRange n).flatMap (fun u => range' (start (slots (.ofEdges graph)) (finRange n) u)
        (slots (.ofEdges graph) u).length) = range' 0 graph.length := by
      have := flatMap_range' (b := slots (.ofEdges graph)) (nodup_finRange n) 0
      simp only [Nat.zero_add] at this
      rw [this, all, length_map]
    rw [all]
    unfold ofEdges
    simp only [entries, ← foldl_flatMap, flat]
    rw [foldl_copyEdge graph 0 fresh rfl]
    exact (foldl_pushBack _ fresh 0).2.1

end OfEdges

/-! ### Filtering -/

/-- The edges of a node that `Filter` keeps. -/
theorem Represents.filter_adjacent (rep : Represents g G) {keep : Fin n → Bool} {u : Fin n} (kept : keep u = true) :
    (g.adjacent u).filter (·.target.any keep) = slots (G.filter keep) u := by
  rw [rep.adjacent_eq, filter_map]
  simp only [slots, DynamicGraph.filter, if_pos kept]
  rfl

/-- **Filtering.** -/
theorem Represents.filter (rep : Represents g G) (fresh : ℕ → Slot n D) (keep : Fin n → Bool) :
    Represents (g.filter fresh keep) (G.filter keep) := by
  have none : ∀ u, keep u ≠ true → slots (G.filter keep) u = [] := by
    intro u dropped
    simp [slots, DynamicGraph.filter, if_neg dropped]
  have node : ∀ (t : DynamicGraphArray n D) u,
      ((g.filterNode keep t u).nodeArray = update t.nodeArray u ⟨t.size, (slots (G.filter keep) u).length⟩ ∧
        (g.filterNode keep t u).size = t.size + (slots (G.filter keep) u).length) ∧
      Stored (g.filterNode keep t u).edgeList t.size (slots (G.filter keep) u) ∧
      ∀ j < t.size, (g.filterNode keep t u).edgeList j = t.edgeList j := by
    intro t u
    by_cases kept : keep u = true
    · rw [filterNode, if_pos kept, rep.filter_adjacent kept]
      obtain ⟨total, content⟩ := foldl_pushBack (slots (G.filter keep) u) t.edgeList t.size
      refine ⟨⟨?_, total⟩, content⟩
      dsimp only
      rw [total, Nat.add_sub_cancel_left]
    · rw [filterNode, if_neg kept, none u kept]
      exact ⟨⟨rfl, rfl⟩, trivial, fun j _ => rfl⟩
  obtain ⟨total, entries⟩ := fold_starts (slots (G.filter keep)) (g.filterNode keep) DynamicGraphArray.nodeArray DynamicGraphArray.size
    (fun u i => ⟨i, (slots (G.filter keep) u).length⟩) (fun _ _ => True) (fun t x _ _ => ⟨trivial, (node t x).1⟩)
    (nodup_finRange n) ⟨fun _ => ⟨0, 0⟩, fresh, 0⟩ trivial
  have stored := (fold_stored (slots (G.filter keep)) (g.filterNode keep) DynamicGraphArray.size DynamicGraphArray.edgeList
    ⟨fun _ => ⟨0, 0⟩, fresh, 0⟩ (fun t x (_ : x ∈ finRange n) => (node t x).1.2) (fun t x _ => (node t x).2.1) (fun t x _ => (node t x).2.2)).1
  apply represents_of_packed
  · intro u
    have entry := entries u
    rwa [if_pos (mem_finRange u), Nat.zero_add] at entry
  · rwa [Nat.zero_add] at total
  · exact stored

/-! ### Renumbering -/

namespace Renumbering

variable {oldToNew : Equiv.Perm (Fin n)} {l : List ℕ}

theorem foldl_number_frame (l : List ℕ) : ∀ (st : Renumbering n D) (a : ℕ → Slot n D),
    l.foldl number { st with edgeList := a } = { l.foldl number st with edgeList := a } := by
  induction l with
  | nil => exact fun st a => rfl
  | cons x l ih => exact fun st a => ih (number st x) a

/-- Numbering and renaming do not depend on one another. -/
theorem foldl_fill (l : List ℕ) : ∀ st : Renumbering n D,
    l.foldl (fill oldToNew) st = { l.foldl number st with edgeList := l.foldl (retarget oldToNew) st.edgeList } := by
  induction l with
  | nil => exact fun st => rfl
  | cons x l ih =>
    intro st
    have first : fill oldToNew st x = { number st x with edgeList := retarget oldToNew st.edgeList x } := rfl
    rw [foldl_cons, ih, first, foldl_number_frame]
    rfl

/-- The numbers that a list of edges gets. -/
theorem foldl_number (nodup : l.Nodup) (st : Renumbering n D) :
    (l.foldl number st).newEdgeIndex = st.newEdgeIndex + l.length ∧
      ∀ j, (l.foldl number st).oldToNewEdge j =
        if j ∈ l then some (st.newEdgeIndex + start (fun x => [x]) l j) else st.oldToNewEdge j := by
  obtain ⟨total, entries⟩ := fold_starts (fun x => [x]) number oldToNewEdge newEdgeIndex (fun _ i => some i) (fun _ _ => True)
    (fun t x _ _ => ⟨trivial, rfl, rfl⟩) nodup st trivial
  refine ⟨?_, entries⟩
  rw [total, flatMap_singleton']

/-- The edges that are left get the next numbers. -/
theorem foldl_dummy (nodup : l.Nodup) : ∀ st : Renumbering n D,
    l.foldl dummy st = (l.filter fun j => decide (st.oldToNewEdge j = none)).foldl number st := by
  induction l with
  | nil => exact fun st => rfl
  | cons x l ih =>
    intro st
    rw [nodup_cons] at nodup
    rw [foldl_cons, filter_cons]
    by_cases free : st.oldToNewEdge x = none
    · have ahead : l.filter (fun j => decide ((number st x).oldToNewEdge j = none)) =
          l.filter fun j => decide (st.oldToNewEdge j = none) := by
        apply filter_congr
        intro j mem
        have other : j ≠ x := fun same => nodup.1 (same ▸ mem)
        simp only [number, update_of_ne other]
      rw [dummy, if_pos free, if_pos (decide_eq_true free), ih nodup.2, ahead, foldl_cons]
    · rw [dummy, if_neg free, if_neg (by simpa using free), ih nodup.2]

theorem foldl_retarget (nodup : l.Nodup) : ∀ (a : ℕ → Slot n D) (j : ℕ),
    l.foldl (retarget oldToNew) a j = if j ∈ l then { a j with target := (a j).target.map oldToNew } else a j := by
  induction l with
  | nil => exact fun a j => rfl
  | cons x l ih =>
    intro a j
    rw [nodup_cons] at nodup
    rw [foldl_cons, ih nodup.2]
    by_cases here : j = x
    · subst here
      rw [if_neg nodup.1, if_pos mem_cons_self, retarget, update_self]
    · have cons : j ∈ x :: l ↔ j ∈ l := by simp [here]
      simp only [cons, retarget, update_of_ne here]

/-- The places of the nodes of `l`, by a table of nodes. -/
def places (table : Fin n → DynamicNode) (l : List (Fin n)) : List ℕ :=
  l.flatMap fun v => range' (table v).firstEdge (table v).edges

/-- The loop over the nodes numbers their edges in the order of the nodes. -/
theorem foldl_node {l : List (Fin n)} (nodup : l.Nodup) : ∀ st : (Fin n → DynamicNode) × Renumbering n D,
    (l.foldl (node oldToNew) st).2 = (places st.1 l).foldl (fill oldToNew) st.2 := by
  induction l with
  | nil => exact fun st => rfl
  | cons x l ih =>
    intro st
    rw [nodup_cons] at nodup
    have ahead : places (node oldToNew st x).1 l = places st.1 l := by
      apply flatMap_congr
      intro v mem
      have other : v ≠ x := fun same => nodup.1 (same ▸ mem)
      simp only [node, update_of_ne other]
    rw [foldl_cons, ih nodup.2, ahead, places, places, flatMap_cons, foldl_append]
    rfl

end Renumbering

section Renumber

variable {oldToNew : Equiv.Perm (Fin n)} {table : Fin n → DynamicNode} {size : ℕ}

open Renumbering

section Places

variable (rep : Represents g G) (permuted : ∀ v, table v = g.nodeArray (oldToNew.symm v))

include rep permuted

/-- The places of all nodes, in the order of the new numbers. -/
theorem Represents.places_nodup :
    (places table (finRange n)).Nodup := by
  rw [places, nodup_flatMap]
  refine ⟨fun v _ => nodup_range', ?_⟩
  apply (nodup_finRange n).imp
  intro u v other i hu hv
  rw [mem_range'_1, permuted] at hu hv
  exact other (oldToNew.symm.injective (rep.disjoint _ _ i hu hv))

theorem Represents.places_lt {i : ℕ}
    (mem : i ∈ places table (finRange n)) : i < g.size := by
  obtain ⟨v, _, inside⟩ := mem_flatMap.1 mem
  rw [mem_range'_1, permuted] at inside
  exact rep.lt_size inside

/-- The renamed slots of a node are those of the renumbered graph. -/
theorem Represents.map_range' (v : Fin n) :
    (range' (table v).firstEdge (table v).edges).map
        (fun j => { g.edgeList j with target := (g.edgeList j).target.map oldToNew }) = slots (G.renumber oldToNew) v := by
  have read := rep.adjacent_eq (oldToNew.symm v)
  rw [adjacent, ← permuted] at read
  have shifted : range' (table v).firstEdge (table v).edges = (range (table v).edges).map ((table v).firstEdge + ·) := by
    rw [range_eq_range', map_add_range', Nat.add_zero]
  have lift := congrArg (map fun s : Slot n D => { s with target := s.target.map oldToNew }) read
  rw [map_map, map_map] at lift
  rw [shifted, map_map, slots, DynamicGraph.renumber, map_map]
  exact lift

end Places

/-- Permuting the slots by their numbers puts them in the order of the numbering. -/
theorem stored_inplacePermutation {order : List ℕ} (number : ℕ → ℕ) (all : order.Perm (range size))
    (numbers : ∀ j ∈ order, number j = start (fun x => [x]) order j) (a : ℕ → Slot n D) :
    Stored (Util.inplacePermutation (range size) number a) 0 (order.map a) := by
  have nodup := all.nodup_iff.2 nodup_range
  have length : (order.flatMap fun x => [x]).length = size := by
    rw [flatMap_singleton', all.length_eq, length_range]
  have maps : ∀ j ∈ range size, number j ∈ range size := by
    intro j mem
    have bound := start_add_le (b := fun x => [x]) (all.mem_iff.2 mem)
    rw [numbers j (all.mem_iff.2 mem), mem_range, ← length]
    exact bound
  have inj : ∀ i ∈ range size, ∀ j ∈ range size, number i = number j → i = j := by
    intro i hi j hj same
    rw [numbers i (all.mem_iff.2 hi), numbers j (all.mem_iff.2 hj)] at same
    apply eq_of_block (b := fun x => [x]) (all.mem_iff.2 hi) (all.mem_iff.2 hj) (Nat.le_refl _)
    · exact Nat.lt_succ_self _
    · exact Nat.le_of_eq same.symm
    · rw [same]
      exact Nat.lt_succ_self _
  apply stored_of_start nodup
  intro j mem
  rw [Nat.zero_add, ← numbers j mem]
  exact (Util.inplacePermutation_spec maps inj a).1 j (all.mem_iff.1 mem)

/-- The numbering of `Renumber`: the given places in their order, then all others. -/
theorem numbering (oldToNew : Equiv.Perm (Fin n)) {places : List ℕ} (nodup : places.Nodup) (bounded : ∀ i ∈ places, i < size) (a : ℕ → Slot n D) :
    ∃ rest, (places ++ rest).Perm (range size) ∧
      (range size).foldl Renumbering.dummy (places.foldl (fill oldToNew) ⟨a, fun _ => none, 0⟩) =
        { (places ++ rest).foldl Renumbering.number ⟨a, fun _ => none, 0⟩ with edgeList := places.foldl (retarget oldToNew) a } := by
  have free : ∀ j, (places.foldl (fill oldToNew) ⟨a, fun _ => none, 0⟩).oldToNewEdge j = none ↔ j ∉ places := by
    intro j
    rw [foldl_fill]
    rw [(foldl_number nodup _).2 j]
    by_cases mem : j ∈ places
    · simp [mem]
    · simp [mem]
  refine ⟨(range size).filter fun j => decide ((places.foldl (fill oldToNew) ⟨a, fun _ => none, 0⟩).oldToNewEdge j = none), ?_, ?_⟩
  · rw [perm_ext_iff_of_nodup]
    · intro j
      simp only [free, mem_append, mem_filter, mem_range, decide_eq_true_eq]
      constructor
      · intro mem
        exact mem.elim (bounded j) And.left
      · intro bound
        by_cases mem : j ∈ places
        · exact .inl mem
        · exact .inr ⟨bound, mem⟩
    · refine nodup.append (nodup_range.filter _) ?_
      intro j mem mem'
      exact (free j).1 (of_decide_eq_true (mem_filter.1 mem').2) mem
    · exact nodup_range
  · rw [foldl_dummy nodup_range, foldl_append, ← foldl_number_frame, foldl_fill]

/-- The edges of each node get consecutive numbers. -/
theorem foldl_node_table (oldToNew : Equiv.Perm (Fin n)) {b : Fin n → List (Slot n D)} (length : ∀ v, (table v).edges = (b v).length) (a : ℕ → Slot n D) :
    ((finRange n).foldl (node oldToNew) (table, ⟨a, fun _ => none, 0⟩)).2.newEdgeIndex = ((finRange n).flatMap b).length ∧
      ∀ v, ((finRange n).foldl (node oldToNew) (table, ⟨a, fun _ => none, 0⟩)).1 v =
        ⟨start b (finRange n) v, (table v).edges⟩ := by
  obtain ⟨total, entries⟩ := fold_starts b (node oldToNew) Prod.fst (fun st => st.2.newEdgeIndex)
    (fun v i => (⟨i, (table v).edges⟩ : DynamicNode)) (fun rest t => rest.Nodup ∧ ∀ v ∈ rest, t.1 v = table v)
    (fun t x rest inv => by
      obtain ⟨fresh, same⟩ := inv
      rw [nodup_cons] at fresh
      have here := same x mem_cons_self
      refine ⟨⟨fresh.2, fun v mem => ?_⟩, ?_, ?_⟩
      · have other : v ≠ x := fun eq => fresh.1 (eq ▸ mem)
        show update t.1 x _ v = table v
        rw [update_of_ne other]
        exact same v (mem_cons_of_mem _ mem)
      · rw [node, here]
      · show ((range' _ _).foldl (fill oldToNew) t.2).newEdgeIndex = _
        rw [foldl_fill]
        rw [(foldl_number nodup_range' t.2).1, length_range', here, length x])
    (nodup_finRange n) (table, ⟨a, fun _ => none, 0⟩) ⟨nodup_finRange n, fun v _ => rfl⟩
  rw [Nat.zero_add] at total
  refine ⟨total, fun v => ?_⟩
  rw [entries v, if_pos (mem_finRange v), Nat.zero_add]

/-- **Renumbering.** -/
theorem Represents.renumber (rep : Represents g G) {g' : DynamicGraphArray n D} (done : g.renumber oldToNew = some g') :
    Represents g' (G.renumber oldToNew) := by
  have permuted : ∀ v, Util.inplacePermutation (finRange n) oldToNew g.nodeArray v = g.nodeArray (oldToNew.symm v) := by
    intro v
    have moved := (Util.inplacePermutation_spec (fun x _ => mem_finRange (oldToNew x))
      (fun x _ y _ same => oldToNew.injective same) g.nodeArray).1 (oldToNew.symm v) (mem_finRange _)
    rwa [Equiv.apply_symm_apply] at moved
  unfold DynamicGraphArray.renumber at done
  split at done
  · cases done
  rw [Option.some.injEq] at done
  generalize Util.inplacePermutation (finRange n) oldToNew g.nodeArray = table at permuted done
  have nodup := rep.places_nodup permuted
  have length : ∀ v, (table v).edges = (slots (G.renumber oldToNew) v).length := by
    intro v
    rw [← rep.map_range' permuted v, length_map, length_range']
  obtain ⟨total, entries⟩ := foldl_node_table oldToNew length g.edgeList
  -- the slots: the edges of the nodes in the order of their new numbers, and then the dummies
  obtain ⟨rest, all, numbered⟩ := numbering oldToNew nodup (fun i mem => rep.places_lt permuted mem) g.edgeList
  have slotsEq : (places table (finRange n)).map ((places table (finRange n)).foldl (retarget oldToNew) g.edgeList) =
      (finRange n).flatMap (slots (G.renumber oldToNew)) := by
    rw [map_congr_left fun j mem => by rw [foldl_retarget nodup, if_pos mem]]
    rw [places, map_flatMap]
    exact flatMap_congr fun v _ => rep.map_range' permuted v
  have wholeNodup := all.nodup_iff.2 nodup_range
  rw [foldl_node (nodup_finRange n), numbered] at done
  have stored := stored_inplacePermutation (fun edge =>
      (((places table (finRange n) ++ rest).foldl Renumbering.number ⟨g.edgeList, fun _ => none, 0⟩).oldToNewEdge edge).getD 4294967295) all
    (fun j mem => by
      rw [(foldl_number wholeNodup _).2 j, if_pos mem, Option.getD_some, Nat.zero_add])
    ((places table (finRange n)).foldl (retarget oldToNew) g.edgeList)
  rw [map_append, stored_append, slotsEq] at stored
  rw [foldl_node (nodup_finRange n)] at total
  subst done
  apply represents_of_packed
  · intro v
    have entry := entries v
    rwa [length v] at entry
  · exact total
  · exact stored.1

end Renumber

end Osrm.DynamicGraphArray
