import Osrm.Util.DynamicGraphArray

/-!
# Blocks of a dynamic graph

`Represents` says which lists of edges the two arrays of a graph stand for: each node has a
block of its own, and every other slot is a dummy. An operation on one node may give it a
block made of its own slots, of dummies and of slots behind the end (`Represents.replace`).
-/

namespace Osrm.DynamicGraphArray

open Function List DynamicGraph

open Lib.Blocks

variable {n : ℕ} {D : Type*} {g : DynamicGraphArray n D} {G : DynamicGraph n D} {u v w : Fin n} {i j : ℕ}

variable (g G) in
/-- The arrays hold the edges of the graph, each node's in a block of its own. -/
structure Represents : Prop where
  length : ∀ u, (g.nodeArray u).edges = (G.edges u).length
  stored : ∀ u, Stored g.edgeList (g.nodeArray u).firstEdge ((G.edges u).map DynamicEdge.slot)
  bounded : ∀ u, (g.nodeArray u).firstEdge + (g.nodeArray u).edges ≤ g.size
  disjoint : ∀ u w i, g.InRange u i → g.InRange w i → u = w
  free : ∀ i < g.size, (∀ u, ¬ g.InRange u i) → isDummy g.edgeList i

section Blocks

variable (rep : Represents g G)

include rep

theorem Represents.adjacent_eq (u : Fin n) : g.adjacent u = (G.edges u).map DynamicEdge.slot := by
  have read := (rep.stored u).eq_map
  rwa [length_map, ← rep.length u] at read

/-- A slot in the range of a node holds an edge. -/
theorem Represents.slot_of_inRange (inside : g.InRange u i) :
    ∃ e ∈ G.edges u, g.edgeList i = e.slot := by
  obtain ⟨low, high⟩ := inside
  rw [rep.length u] at high
  have bound : i - (g.nodeArray u).firstEdge < ((G.edges u).map DynamicEdge.slot).length := by
    rw [length_map]
    omega
  have read := stored_iff.1 (rep.stored u) _ bound
  rw [Nat.add_sub_of_le low, getElem_map] at read
  exact ⟨_, getElem_mem _, read⟩

theorem Represents.not_inRange_of_dummy (dummy : isDummy g.edgeList i) (u : Fin n) : ¬ g.InRange u i := by
  intro inside
  obtain ⟨e, _, slot⟩ := rep.slot_of_inRange inside
  rw [isDummy, slot] at dummy
  cases dummy

theorem Represents.lt_size (inside : g.InRange u i) : i < g.size :=
  lt_of_lt_of_le inside.2 (rep.bounded u)

/-- The block of a node. -/
theorem Represents.block {first edges : ℕ} (node : g.nodeArray u = ⟨first, edges⟩) :
    edges = (G.edges u).length ∧ Stored g.edgeList first ((G.edges u).map DynamicEdge.slot) ∧ first + edges ≤ g.size ∧
      (∀ i, g.InRange u i ↔ first ≤ i ∧ i < first + edges) ∧ ∀ w ≠ u, ∀ i, g.InRange w i → i < first ∨ first + edges ≤ i := by
  have length := rep.length u
  have stored := rep.stored u
  have bounded := rep.bounded u
  have range : ∀ i, g.InRange u i ↔ first ≤ i ∧ i < first + edges := fun i => by rw [InRange, node]
  rw [node] at length stored bounded
  refine ⟨length, stored, bounded, range, fun w other i inside => ?_⟩
  have out : ¬ g.InRange u i := fun own => other (rep.disjoint w u i inside own)
  rw [range] at out
  omega

theorem Represents.dummy_of_unused (bound : i < g.size) (unused : ∀ w ≠ u, ¬ g.InRange w i)
    (out : ¬ g.InRange u i) : isDummy g.edgeList i := by
  apply rep.free i bound
  intro w inside
  by_cases same : w = u
  · exact out (same ▸ inside)
  · exact unused w same inside

/-- **A new block for one node.** Its slots belong to no other node, and what is no longer used becomes a dummy. -/
theorem Represents.replace {g' : DynamicGraphArray n D} {node : DynamicNode} {l : List (DynamicEdge n D)}
    (table : g'.nodeArray = update g.nodeArray u node) (length : node.edges = l.length)
    (stored : Stored g'.edgeList node.firstEdge (l.map DynamicEdge.slot)) (bounded : node.firstEdge + node.edges ≤ g'.size)
    (grows : g.size ≤ g'.size)
    (apart : ∀ w ≠ u, ∀ i, g.InRange w i → ¬ (node.firstEdge ≤ i ∧ i < node.firstEdge + node.edges))
    (kept : ∀ w ≠ u, ∀ i, g.InRange w i → g'.edgeList i = g.edgeList i)
    (free : ∀ i < g'.size, ¬ (node.firstEdge ≤ i ∧ i < node.firstEdge + node.edges) → (∀ w ≠ u, ¬ g.InRange w i) →
      isDummy g'.edgeList i) : Represents g' (G.setEdges u l) := by
  have here : g'.nodeArray u = node := by rw [table, update_self]
  have other : ∀ w, w ≠ u → g'.nodeArray w = g.nodeArray w := fun w ne => by rw [table, update_of_ne ne]
  have inRange : ∀ w, w ≠ u → ∀ i, g'.InRange w i ↔ g.InRange w i := fun w ne i => by rw [InRange, InRange, other w ne]
  have inHere : ∀ i, g'.InRange u i ↔ node.firstEdge ≤ i ∧ i < node.firstEdge + node.edges := fun i => by rw [InRange, here]
  constructor
  · intro w
    by_cases same : w = u
    · subst same
      rw [here, setEdges_same, length]
    · rw [other w same, setEdges_other same]
      exact rep.length w
  · intro w
    by_cases same : w = u
    · subst same
      rwa [here, setEdges_same]
    · rw [other w same, setEdges_other same]
      apply (rep.stored w).congr
      intro j low high
      rw [length_map, ← rep.length w] at high
      exact kept w same j ⟨low, high⟩
  · intro w
    by_cases same : w = u
    · subst same
      rwa [here]
    · rw [other w same]
      exact (rep.bounded w).trans grows
  · intro x y i hx hy
    by_cases sx : x = u
    · by_cases sy : y = u
      · exact sx.trans sy.symm
      · subst sx
        exact absurd ((inHere i).1 hx) (apart y sy i ((inRange y sy i).1 hy))
    · by_cases sy : y = u
      · subst sy
        exact absurd ((inHere i).1 hy) (apart x sx i ((inRange x sx i).1 hx))
      · exact rep.disjoint x y i ((inRange x sx i).1 hx) ((inRange y sy i).1 hy)
  · intro i bound unused
    apply free i bound
    · exact fun inside => unused u ((inHere i).2 inside)
    · exact fun w ne inside => unused w ((inRange w ne i).2 inside)

end Blocks

/-! ### Dummies -/

theorem makeDummy_other {a : ℕ → Slot n D} (other : j ≠ i) : makeDummy a i j = a j :=
  update_of_ne other _ _

theorem isDummy_makeDummy {a : ℕ → Slot n D} : isDummy (makeDummy a i) i := by
  rw [isDummy, makeDummy, update_self]

/-- Making dummies keeps dummies. -/
theorem isDummy.makeDummy {a : ℕ → Slot n D} (dummy : isDummy a j) : isDummy (makeDummy a i) j := by
  by_cases same : j = i
  · rw [same]
    exact isDummy_makeDummy
  · rwa [isDummy, makeDummy_other same]

theorem foldl_makeDummy (a : ℕ → Slot n D) (newFirst : ℕ) (l : List ℕ) :
    (∀ i ∈ l, isDummy (l.foldl (fun a i => makeDummy a (newFirst + i)) a) (newFirst + i)) ∧
      ∀ j, (∀ i ∈ l, j ≠ newFirst + i) → l.foldl (fun a i => makeDummy a (newFirst + i)) a j = a j := by
  induction l using reverseRecOn with
  | nil => exact ⟨fun i mem => absurd mem not_mem_nil, fun j _ => rfl⟩
  | append_singleton l x ih =>
    rw [foldl_concat]
    refine ⟨fun i mem => ?_, fun j apart => ?_⟩
    · rcases mem_append.1 mem with mem | mem
      · exact (ih.1 i mem).makeDummy
      · rw [mem_singleton.1 mem]
        exact isDummy_makeDummy
    · rw [makeDummy_other (apart x (by simp))]
      exact ih.2 j fun i mem => apart i (mem_append_left _ mem)

/-- What `moveEdges` does when the new block is behind the old one. -/
theorem moveEdges_spec (a : ℕ → Slot n D) {first newFirst edges : ℕ} (behind : first + edges ≤ newFirst) :
    (∀ i < edges, moveEdges first newFirst edges a (newFirst + i) = a (first + i)) ∧
    (∀ i < edges, isDummy (moveEdges first newFirst edges a) (first + i)) ∧
    ∀ j, ¬ (first ≤ j ∧ j < first + edges) → ¬ (newFirst ≤ j ∧ j < newFirst + edges) → moveEdges first newFirst edges a j = a j := by
  induction edges with
  | zero => exact ⟨nofun, nofun, fun j _ _ => rfl⟩
  | succ edges ih =>
    obtain ⟨moved, old, rest⟩ := ih (by omega)
    have last : moveEdges first newFirst (edges + 1) a = makeDummy (update (moveEdges first newFirst edges a)
        (newFirst + edges) (moveEdges first newFirst edges a (first + edges))) (first + edges) := by
      rw [moveEdges, range_succ, foldl_concat]
      rfl
    rw [last]
    refine ⟨fun i hi => ?_, fun i hi => ?_, fun j out out' => ?_⟩
    · rw [makeDummy_other (by omega)]
      by_cases same : i = edges
      · rw [same, update_self]
        exact rest _ (by omega) (by omega)
      · rw [update_of_ne (by omega)]
        exact moved i (by omega)
    · by_cases same : i = edges
      · rw [same]
        exact isDummy_makeDummy
      · apply isDummy.makeDummy
        rw [isDummy, update_of_ne (by omega)]
        exact old i (by omega)
    · rw [makeDummy_other (by omega), update_of_ne (by omega)]
      exact rest j (by omega) (by omega)

/-! ### Inserting -/

theorem map_lastToFront {α β : Type*} (f : α → β) (l : List α) : (lastToFront l).map f = lastToFront (l.map f) := by
  unfold lastToFront
  rw [getLast?_map]
  cases l.getLast? with
  | none => rfl
  | some x => rw [Option.map_some, map_cons, map_dropLast]

/-- Moving the last element one place in front of the list. -/
theorem stored_lastToFront {α : Type*} {a a' : ℕ → α} {l : List α} (stored : Stored a (i + 1) l)
    (front : l ≠ [] → a' i = a (i + l.length)) (same : ∀ j, i < j → j < i + l.length → a' j = a j) :
    Stored a' i (lastToFront l) := by
  unfold lastToFront
  cases last : l.getLast? with
  | none => trivial
  | some x =>
    have split := dropLast_append_getLast? x last
    have nonempty : l ≠ [] := by
      intro empty
      rw [empty] at last
      cases last
    have size : l.dropLast.length + 1 = l.length := by
      rw [length_dropLast]
      have := length_pos_iff.2 nonempty
      omega
    rw [← split, stored_append, stored_singleton] at stored
    refine ⟨?_, stored.1.congr fun j low high => same j (by omega) (by omega)⟩
    rw [front nonempty, ← stored.2]
    congr 1
    omega

theorem stored_concat {a : ℕ → Slot n D} {l : List (DynamicEdge n D)} (e : DynamicEdge n D)
    (stored : Stored a i (l.map DynamicEdge.slot)) (last : a (i + l.length) = e.slot) :
    Stored a i ((l ++ [e]).map DynamicEdge.slot) := by
  rw [map_append, stored_append, length_map]
  exact ⟨stored, last, trivial⟩

section Insert

variable (rep : Represents g G) (u v : Fin n) (data : D) {first edges : ℕ}

include rep

/-- The slot behind the block is free. -/
theorem Represents.writeBehind (node : g.nodeArray u = ⟨first, edges⟩) (bound : first + edges < g.size)
    (dummy : isDummy g.edgeList (first + edges)) :
    Represents ⟨update g.nodeArray u ⟨first, edges + 1⟩, update g.edgeList (first + edges) ⟨some v, data⟩, g.size⟩
      (G.setEdges u (G.edges u ++ [⟨v, data⟩])) := by
  obtain ⟨length, stored, -, range, apart⟩ := rep.block node
  have vacant := fun w => rep.not_inRange_of_dummy dummy w
  apply rep.replace rfl
  · simp [length]
  · apply stored_concat
    · apply stored.congr
      intro j low high
      rw [length_map] at high
      exact update_of_ne (by omega) _ _
    · rw [← length]
      exact update_self _ _ _
  · show first + (edges + 1) ≤ g.size
    omega
  · exact Nat.le_refl _
  · intro w other i inside own
    have := apart w other i inside
    have ne : i ≠ first + edges := fun same => vacant w (same ▸ inside)
    dsimp only at own
    omega
  · intro w other i inside
    have ne : i ≠ first + edges := fun same => vacant w (same ▸ inside)
    exact update_of_ne ne _ _
  · intro i bound out unused
    dsimp only at out bound ⊢
    rw [isDummy, update_of_ne (by omega)]
    apply rep.dummy_of_unused bound unused
    rw [range]
    omega

/-- The slot before the block is free: the last edge moves there and makes room. -/
theorem Represents.writeFront (node : g.nodeArray u = ⟨first + 1, edges⟩) (dummy : isDummy g.edgeList first) :
    Represents ⟨update g.nodeArray u ⟨first, edges + 1⟩,
        update (update g.edgeList first (g.edgeList (first + edges))) (first + edges) ⟨some v, data⟩, g.size⟩
      (G.setEdges u (lastToFront (G.edges u) ++ [⟨v, data⟩])) := by
  obtain ⟨length, stored, bounded, range, apart⟩ := rep.block node
  have vacant := fun w => rep.not_inRange_of_dummy dummy w
  apply rep.replace rfl
  · simp [lastToFront_length, length]
  · apply stored_concat
    · rw [map_lastToFront]
      apply stored_lastToFront stored
      · intro nonempty
        have filled : edges ≠ 0 := by
          rw [length]
          exact fun empty => nonempty (by rw [length_eq_zero_iff.1 empty]; rfl)
        dsimp only
        rw [update_of_ne (by omega), update_self, length_map, length]
      · intro j low high
        rw [length_map] at high
        dsimp only at low high ⊢
        rw [update_of_ne (by omega), update_of_ne (by omega)]
    · rw [lastToFront_length, ← length]
      exact update_self _ _ _
  · show first + (edges + 1) ≤ g.size
    omega
  · exact Nat.le_refl _
  · intro w other i inside own
    have := apart w other i inside
    have ne : i ≠ first := fun same => vacant w (same ▸ inside)
    dsimp only at own
    omega
  · intro w other i inside
    have := apart w other i inside
    have ne : i ≠ first := fun same => vacant w (same ▸ inside)
    dsimp only
    rw [update_of_ne (by omega), update_of_ne ne]
  · intro i bound out unused
    dsimp only at out bound ⊢
    rw [isDummy, update_of_ne (by omega), update_of_ne (by omega)]
    apply rep.dummy_of_unused bound unused
    rw [range]
    omega

/-- No slot beside the block is free: the block moves to the end of a longer array. -/
theorem Represents.writeAtEnd (node : g.nodeArray u = ⟨first, edges⟩) (fresh : ℕ → Slot n D) {newSize : ℕ} (room : edges + 1 ≤ newSize) :
    Represents ⟨update g.nodeArray u ⟨g.size, edges + 1⟩,
        update ((range' (edges + 1) (newSize - (edges + 1))).foldl (fun l i => makeDummy l (g.size + i))
            (moveEdges first g.size edges (resize g.edgeList fresh g.size)))
          (g.size + edges) ⟨some v, data⟩, g.size + newSize⟩
      (G.setEdges u (G.edges u ++ [⟨v, data⟩])) := by
  obtain ⟨length, stored, bounded, range, apart⟩ := rep.block node
  obtain ⟨moved, old, rest⟩ := moveEdges_spec (resize g.edgeList fresh g.size) bounded
  generalize moveEdges first g.size edges (resize g.edgeList fresh g.size) = a at *
  obtain ⟨dummies, others⟩ := foldl_makeDummy a g.size (range' (edges + 1) (newSize - (edges + 1)))
  generalize (range' (edges + 1) (newSize - (edges + 1))).foldl (fun l i => makeDummy l (g.size + i)) a = a' at *
  have kept : ∀ j, j ≤ g.size + edges → a' j = a j := by
    intro j low
    apply others
    intro i mem
    have := (mem_range'_1.1 mem).1
    omega
  apply rep.replace rfl
  · simp [length]
  · apply stored_concat
    · rw [stored_iff] at stored ⊢
      intro k h
      have bound : k < edges := by rwa [length_map, ← length] at h
      dsimp only
      rw [update_of_ne (by omega), kept _ (by omega), moved k bound, resize, if_pos (by omega)]
      exact stored k h
    · rw [← length]
      exact update_self _ _ _
  · show g.size + (edges + 1) ≤ g.size + newSize
    omega
  · exact Nat.le_add_right _ _
  · intro w _ i inside own
    have := rep.lt_size inside
    dsimp only at own
    omega
  · intro w other i inside
    have bound := rep.lt_size inside
    have := apart w other i inside
    dsimp only
    rw [update_of_ne (by omega), kept _ (by omega), rest i (by omega) (by omega), resize, if_pos bound]
  · intro i bound out unused
    dsimp only at out bound ⊢
    rw [isDummy, update_of_ne (by omega)]
    by_cases inside : i < g.size
    · rw [kept _ (by omega)]
      by_cases own : first ≤ i ∧ i < first + edges
      · have := old (i - first) (by omega)
        rwa [Nat.add_sub_of_le own.1] at this
      · rw [rest i own (by omega), resize, if_pos inside]
        exact rep.dummy_of_unused inside unused fun here => own ((range i).1 here)
    · have := dummies (i - g.size) (mem_range'_1.2 ⟨by omega, by omega⟩)
      rwa [Nat.add_sub_of_le (Nat.le_of_not_lt inside)] at this

/-- **Inserting an edge.** -/
theorem Represents.insertEdge (fresh : ℕ → Slot n D) :
    ∃ before, Represents (g.insertEdge fresh u v data).1 (G.insertEdge before u v data) := by
  unfold DynamicGraphArray.insertEdge makeRoom
  rcases node : g.nodeArray u with ⟨first, edges⟩
  have bounded := (rep.block node).2.2.1
  dsimp only
  rw [Nat.add_comm edges]
  by_cases taken : first + edges = g.size ∨ ¬ isDummy g.edgeList (first + edges)
  · rw [if_pos taken]
    by_cases front : first ≠ 0 ∧ isDummy g.edgeList (first - 1)
    · refine ⟨true, ?_⟩
      rw [if_pos front]
      simp only [update_self, update_idem]
      exact rep.writeFront u v data (node.trans (by rw [Nat.sub_one_add_one front.1])) front.2
    · refine ⟨false, ?_⟩
      rw [if_neg front]
      simp only [update_self, update_idem]
      exact rep.writeAtEnd u v data node fresh (by omega)
  · refine ⟨false, ?_⟩
    rw [if_neg taken]
    obtain ⟨inside, dummy⟩ := not_or.1 taken
    simp only [node]
    exact rep.writeBehind u v data node (by omega) (not_not.1 dummy)

end Insert

/-! ### Deleting -/

section

variable {α : Type*} {a : ℕ → α} {l : List α}

theorem stored_set {k : ℕ} {x : α} (stored : Stored a i l) :
    Stored (update a (i + k) x) i (l.set k x) := by
  rw [stored_iff] at stored ⊢
  intro m h
  rw [length_set] at h
  rw [getElem_set]
  by_cases same : k = m
  · subst same
    rw [if_pos rfl, update_self]
  · rw [if_neg same, update_of_ne (by omega)]
    exact stored m h

theorem Stored.dropLast (stored : Stored a i l) : Stored a i l.dropLast := by
  rw [stored_iff] at stored ⊢
  intro k h
  rw [getElem_dropLast]
  exact stored k _

/-- Filling a gap with the last element. -/
theorem stored_fillWithLast {k : ℕ} (stored : Stored a i l) (inside : k < l.length) :
    Stored (update a (i + k) (a (i + (l.length - 1)))) i (fillWithLast l k) := by
  unfold fillWithLast
  have nonempty : l ≠ [] := ne_nil_of_length_pos (by omega)
  have last : a (i + (l.length - 1)) = l.getLast nonempty := by
    rw [getLast_eq_getElem]
    exact stored_iff.1 stored _ (by omega)
  rw [getLast?_eq_some_getLast nonempty, last]
  exact Stored.dropLast (stored_set stored)

end

theorem map_fillWithLast {α β : Type*} (f : α → β) (l : List α) (k : ℕ) :
    (fillWithLast l k).map f = fillWithLast (l.map f) k := by
  unfold fillWithLast
  rw [getLast?_map]
  cases l.getLast? with
  | none => rfl
  | some x => rw [Option.map_some, map_dropLast, map_set]

/-- **Deleting an edge** fills its slot with the last edge. -/
theorem Represents.deleteEdge (rep : Represents g G) {k : ℕ} (inside : k < (g.nodeArray u).edges) :
    Represents (g.deleteEdge u ((g.nodeArray u).firstEdge + k)) (G.deleteEdge u k) := by
  unfold DynamicGraphArray.deleteEdge
  rcases node : g.nodeArray u with ⟨first, edges⟩
  obtain ⟨length, stored, bounded, range, apart⟩ := rep.block node
  rw [node] at inside
  dsimp only at inside ⊢
  have short : (fillWithLast (G.edges u) k).length = edges - 1 := by
    rw [length_fillWithLast, length]
  apply rep.replace rfl
  · exact short.symm
  · rw [map_fillWithLast]
    apply (stored_fillWithLast stored (by rwa [length_map, ← length])).congr
    intro j low high
    rw [← map_fillWithLast, length_map] at high
    rw [length_map, ← length]
    exact makeDummy_other (by omega)
  · show first + (edges - 1) ≤ g.size
    omega
  · exact Nat.le_refl _
  · intro w other i inRange own
    have := apart w other i inRange
    dsimp only at own
    omega
  · intro w other i inRange
    have := apart w other i inRange
    show makeDummy _ _ i = _
    rw [makeDummy_other (by omega), update_of_ne (by omega)]
  · intro i bound out unused
    dsimp only at out bound ⊢
    by_cases last : i = first + (edges - 1)
    · rw [last]
      exact isDummy_makeDummy
    · rw [isDummy, makeDummy_other last, update_of_ne (by omega)]
      apply rep.dummy_of_unused bound unused
      rw [range]
      omega

/-- **The loop of `DeleteEdgesTo`**, on the edges from place `i` on. -/
theorem deleteLoop_spec (v : Fin n) (iend fuel : ℕ) : ∀ (l : List (DynamicEdge n D)) (a : ℕ → Slot n D) (deleted i : ℕ),
    l.length = fuel → Stored a i (l.map DynamicEdge.slot) → i + l.length + deleted = iend →
    Stored (deleteLoop v iend fuel a deleted i).1 i ((dropEdgesTo v fuel l).map DynamicEdge.slot) ∧
    i + (dropEdgesTo v fuel l).length + (deleteLoop v iend fuel a deleted i).2 = iend ∧
    deleted ≤ (deleteLoop v iend fuel a deleted i).2 ∧
    (∀ j, j < i ∨ iend - deleted ≤ j → (deleteLoop v iend fuel a deleted i).1 j = a j) ∧
    ∀ j, iend - (deleteLoop v iend fuel a deleted i).2 ≤ j → j < iend - deleted → isDummy (deleteLoop v iend fuel a deleted i).1 j := by
  induction fuel with
  | zero =>
    intro l a deleted i length stored place
    rw [length_eq_zero_iff.1 length] at place
    refine ⟨trivial, place, Nat.le_refl _, fun j _ => rfl, fun j low high => ?_⟩
    rw [deleteLoop] at low
    omega
  | succ fuel ih =>
    intro l a deleted i length stored place
    cases l with
    | nil => cases length
    | cons e rest =>
      rw [length_cons] at length place
      have here : (a i).target = some e.target := by rw [stored.1]; rfl
      rw [deleteLoop, if_pos (by omega), dropEdgesTo, here]
      by_cases hit : e.target = v
      · rw [if_pos (congrArg some hit), if_pos hit]
        dsimp only
        -- the last edge is at place `i` now and is looked at next
        have front : Stored (makeDummy (update a i (a (iend - (deleted + 1)))) (iend - (deleted + 1))) i
            ((lastToFront rest).map DynamicEdge.slot) := by
          rw [map_lastToFront]
          apply stored_lastToFront stored.2
          · intro nonempty
            have := length_pos_iff.2 nonempty
            rw [length_map] at this ⊢
            rw [makeDummy_other (by omega), update_self]
            congr 1
            omega
          · intro j low high
            rw [length_map] at high
            rw [makeDummy_other (by omega), update_of_ne (by omega)]
        obtain ⟨stored', place', more, kept, dummies⟩ := ih (lastToFront rest) _ (deleted + 1) i
          (by rw [lastToFront_length]; omega) front (by rw [lastToFront_length]; omega)
        refine ⟨stored', place', by omega, fun j out => ?_, fun j low high => ?_⟩
        · rw [kept j (by omega), makeDummy_other (by omega), update_of_ne (by omega)]
        · by_cases last : j = iend - (deleted + 1)
          · rw [isDummy, kept j (by omega), last]
            exact isDummy_makeDummy
          · exact dummies j low (by omega)
      · rw [if_neg (fun same => hit (Option.some.inj same)), if_neg hit]
        obtain ⟨stored', place', more, kept, dummies⟩ := ih rest a deleted (i + 1) (by omega) stored.2 (by omega)
        refine ⟨⟨?_, stored'⟩, ?_, more, fun j out => kept j (by omega), dummies⟩
        · rw [kept i (by omega)]
          exact stored.1
        · rw [length_cons]
          omega

/-- **Deleting all edges to a node.** -/
theorem Represents.deleteEdgesTo (rep : Represents g G) (u v : Fin n) :
    Represents (g.deleteEdgesTo u v).1 (G.deleteEdgesTo u v) := by
  unfold DynamicGraphArray.deleteEdgesTo
  rcases node : g.nodeArray u with ⟨first, edges⟩
  obtain ⟨length, stored, bounded, range, apart⟩ := rep.block node
  obtain ⟨stored, place, _, kept, dummies⟩ := deleteLoop_spec v (first + edges) edges (G.edges u) g.edgeList 0 first length.symm stored
    (by omega)
  rw [DynamicGraph.deleteEdgesTo, ← length]
  dsimp only
  generalize deleteLoop v (first + edges) edges g.edgeList 0 first = result at *
  apply rep.replace rfl
  · dsimp only
    omega
  · exact stored
  · dsimp only
    omega
  · exact Nat.le_refl _
  · intro w other i inRange own
    have := apart w other i inRange
    dsimp only at own
    omega
  · intro w other i inRange
    exact kept i (apart w other i inRange)
  · intro i bound out unused
    dsimp only at out bound ⊢
    by_cases own : first ≤ i ∧ i < first + edges
    · exact dummies i (by omega) (by omega)
    · rw [isDummy, kept i (by omega)]
      exact rep.dummy_of_unused bound unused fun here => own ((range i).1 here)

end Osrm.DynamicGraphArray
