import Osrm.Util.StaticRTreeSearch
import Osrm.Lib.BestFirst

/-!
# The nearest segments

`Nearest` keeps tree nodes and segments in one priority queue. The key of a segment is the squared
distance of its nearest point, that of a node the squared distance of its rectangle. Where the
latter is a lower bound for the segments inside, the search is a best-first search: it takes the
segments in order of distance. Coordinates are without bounds, and the projection of a point on a
segment is a parameter of the query.
-/

namespace Osrm

open Lib List

def squaredEuclideanDistance (lhs rhs : Coordinate) : ℕ :=
  ((lhs.lon - rhs.lon) * (lhs.lon - rhs.lon) + (lhs.lat - rhs.lat) * (lhs.lat - rhs.lat)).toNat

namespace RectangleInt2D

def contains (rectangle : RectangleInt2D) (location : Coordinate) : Bool :=
  (location.lon ≥ rectangle.minLon && location.lon ≤ rectangle.maxLon) &&
    (location.lat ≥ rectangle.minLat && location.lat ≤ rectangle.maxLat)

def getMinSquaredDist (rectangle : RectangleInt2D) (location : Coordinate) : ℕ :=
  if rectangle.contains location then 0
  else
    let northOrSouth := if location.lat > rectangle.maxLat then some rectangle.maxLat
      else if location.lat < rectangle.minLat then some rectangle.minLat else none
    let eastOrWest := if location.lon > rectangle.maxLon then some rectangle.maxLon
      else if location.lon < rectangle.minLon then some rectangle.minLon else none
    match northOrSouth, eastOrWest with
    | some lat, none => squaredEuclideanDistance location ⟨location.lon, lat⟩
    | none, some lon => squaredEuclideanDistance location ⟨lon, location.lat⟩
    | some lat, some lon => squaredEuclideanDistance location ⟨lon, lat⟩
    | none, none => 2 ^ 64 - 1

/-- A point between is nearer. -/
theorem squaredEuclideanDistance_le {a b c : Coordinate} (lon : c.lon ≤ b.lon ∧ b.lon ≤ a.lon ∨ a.lon ≤ b.lon ∧ b.lon ≤ c.lon)
    (lat : c.lat ≤ b.lat ∧ b.lat ≤ a.lat ∨ a.lat ≤ b.lat ∧ b.lat ≤ c.lat) :
    squaredEuclideanDistance a b ≤ squaredEuclideanDistance a c := by
  have square : ∀ {x y z : ℤ}, z ≤ y ∧ y ≤ x ∨ x ≤ y ∧ y ≤ z → (x - y) * (x - y) ≤ (x - z) * (x - z) := by
    rintro x y z (⟨low, high⟩ | ⟨low, high⟩) <;> nlinarith
  exact Int.toNat_le_toNat (Int.add_le_add (square lon) (square lat))

/-- The distance of a rectangle is a lower bound for the points in it. -/
theorem getMinSquaredDist_le {rectangle : RectangleInt2D} {location c : Coordinate} (inside : rectangle.contains c = true) :
    rectangle.getMinSquaredDist location ≤ squaredEuclideanDistance location c := by
  simp only [contains, Bool.and_eq_true, decide_eq_true_eq] at inside
  unfold getMinSquaredDist
  split
  · exact Nat.zero_le _
  · next outside =>
    simp only [contains, Bool.and_eq_true, decide_eq_true_eq] at outside
    dsimp only
    split <;> rename_i vertical horizontal <;> split_ifs at vertical horizontal <;> cases vertical <;> cases horizontal
    all_goals first | omega | (apply squaredEuclideanDistance_le <;> dsimp only <;> omega)

end RectangleInt2D

namespace StaticRTree

structure CandidateSegment (E : Type) where
  fixedProjectedCoordinate : Coordinate
  data : E

/-- `QueryCandidate`, with the index and the coordinate that only a segment has. -/
structure QueryCandidate where
  squaredMinDist : ℕ
  treeIndex : TreeIndex
  segment : Option (ℕ × Coordinate)

/-- What is asked for: the projected input coordinate, the nearest point of a segment to it, and how the directions of a
segment that are not to be used are disabled. -/
structure Query (E : Type) where
  fixedProjectedCoordinate : Coordinate
  projectedNearest : E → Coordinate
  restrict : E → Bool × Bool → E

variable {E : Type}

namespace Query

variable (query : Query E)

def squaredDistance (object : E) : ℕ :=
  squaredEuclideanDistance query.fixedProjectedCoordinate (query.projectedNearest object)

/-- What a filter leaves of a segment. -/
def use (filter : CandidateSegment E → Bool × Bool) (candidate : CandidateSegment E) : Option (CandidateSegment E) :=
  let useSegment := filter candidate
  if !useSegment.1 && !useSegment.2 then none
  else some { candidate with data := query.restrict candidate.data useSegment }

def candidate (object : E) : CandidateSegment E := ⟨query.projectedNearest object, object⟩

end Query

variable (setting : Setting E) (tree : StaticRTree E) (query : Query E)

/-- The candidates that `ExploreLeafNode` pushes. -/
def exploreLeafNode (leaf : TreeIndex) : Option (List QueryCandidate) := do
  let children ← tree.childIndexes setting leaf
  children.mapM fun i => do
    let object ← tree.objects[i]?
    pure ⟨query.squaredDistance object, leaf, some (i, query.projectedNearest object)⟩

/-- The candidates that `ExploreTreeNode` pushes. -/
def exploreTreeNode (parent : TreeIndex) : Option (List QueryCandidate) := do
  let children ← tree.childIndexes setting parent
  let start ← tree.treeLevelStarts[parent.level + 1]?
  children.mapM fun childIndex => do
    let child ← tree.searchTree[childIndex]?
    pure ⟨child.getMinSquaredDist query.fixedProjectedCoordinate, ⟨parent.level + 1, childIndex - start⟩, none⟩

/-- What is done with the top of the queue: a segment is looked at, a node is explored. -/
def explore (current : QueryCandidate) : Option ((ℕ × CandidateSegment E) ⊕ List QueryCandidate) :=
  match current.segment with
  | some (i, coordinate) => tree.objects[i]?.map fun edgeData => .inl (i, ⟨coordinate, edgeData⟩)
  | none =>
    if tree.isLeaf current.treeIndex then (tree.exploreLeafNode setting query current.treeIndex).map .inr
    else (tree.exploreTreeNode setting query current.treeIndex).map .inr

/-- `Nearest`: the places of the segments in the order in which they are looked at, and the results. -/
def nearest (pop : List QueryCandidate → Option (QueryCandidate × List QueryCandidate))
    (filter : CandidateSegment E → Bool × Bool) (terminate : ℕ → CandidateSegment E → Bool) (fuel : ℕ) :
    Option (List ℕ × List (CandidateSegment E)) :=
  bestFirst pop (tree.explore setting query) (fun out item => terminate out.2.length item.2)
    (fun out item => (out.1 ++ [item.1], out.2 ++ (query.use filter item.2).toList)) fuel [⟨0, .root, none⟩] ([], [])

/-! ### Exactness -/

/-- A packed tree under one root, whose rectangles contain those of the segments below them. -/
structure Enclosing (setting : Setting E) (top : ℕ) (tree : StaticRTree E) : Prop extends Packed setting tree.objects top tree where
  root : sizeAt setting tree.objects top ≤ 1
  rectangles : ∀ node, Node setting tree.objects top node → ∃ rectangle, tree.nodeRectangle node = some rectangle ∧
    ∀ object ∈ objectsBelow setting tree.objects (top - node.level) node.offset,
      rectangle.Encloses (setting.projectedRectangle object)

/-- The squared distance to a rectangle is a lower bound for every segment inside it. -/
def LowerBound (setting : Setting E) (query : Query E) : Prop :=
  ∀ (rectangle : RectangleInt2D) (object : E), rectangle.Encloses (setting.projectedRectangle object) →
    rectangle.getMinSquaredDist query.fixedProjectedCoordinate ≤ query.squaredDistance object

/-- The segments that were looked at are the nearest ones, in order of distance, and the results those that the filter
accepts; only if there are `k` of them is an accepted segment left out. -/
structure IsNearest (tree : StaticRTree E) (query : Query E) (filter : CandidateSegment E → Bool × Bool) (k : ℕ)
    (visited : List ℕ) (results : List (CandidateSegment E)) : Prop where
  nodup : visited.Nodup
  inside : ∀ i ∈ visited, i < tree.objects.length
  sorted : visited.Pairwise fun i j => ∀ a ∈ tree.objects[i]?, ∀ b ∈ tree.objects[j]?, query.squaredDistance a ≤ query.squaredDistance b
  accepted : results = visited.filterMap fun i => tree.objects[i]?.bind fun object => query.use filter (query.candidate object)
  count : results.length ≤ k
  nearest : ∀ i ∉ visited, ∀ a ∈ tree.objects[i]?, (query.use filter (query.candidate a)).isSome = true →
    results.length = k ∧ ∀ j ∈ visited, ∀ b ∈ tree.objects[j]?, query.squaredDistance b ≤ query.squaredDistance a

def items : List (ℕ × CandidateSegment E) := tree.objects.zipIdx.map fun (object, i) => (i, query.candidate object)

/-- The segments that a candidate stands for. -/
def below (top : ℕ) (current : QueryCandidate) : List (ℕ × CandidateSegment E) :=
  match current.segment with
  | some (i, coordinate) => (tree.objects[i]?.map fun edgeData => (i, ⟨coordinate, edgeData⟩)).toList
  | none => covered setting.leafNodeSize setting.branchingFactor (tree.items query) (top - current.treeIndex.level)
      current.treeIndex.offset

/-- Enough steps to take a candidate and all that is below it from the queue. -/
def cost (top : ℕ) (current : QueryCandidate) : ℕ :=
  match current.segment with
  | some _ => 1
  | none => subtreeSize setting.leafNodeSize setting.branchingFactor tree.objects.length (top - current.treeIndex.level)
      current.treeIndex.offset + (tree.below setting query top current).length

/-- A segment at its distance, or a node that is at most as far as what is below it. -/
structure Keyed (setting : Setting E) (tree : StaticRTree E) (query : Query E) (top : ℕ) (current : QueryCandidate) : Prop where
  level : current.treeIndex.level ≤ top
  segment : ∀ i coordinate, current.segment = some (i, coordinate) → ∃ object, tree.objects[i]? = some object ∧
    coordinate = query.projectedNearest object ∧ current.squaredMinDist = query.squaredDistance object
  lower : ∀ item ∈ tree.below setting query top current, current.squaredMinDist ≤ query.squaredDistance item.2.data

section Search

variable {setting tree query} {top : ℕ} {item : ℕ × CandidateSegment E} {leaf : TreeIndex}

theorem getElem?_items (i : ℕ) : (tree.items query)[i]? = tree.objects[i]?.map fun object => (i, query.candidate object) := by
  rw [items, getElem?_map, getElem?_zipIdx, Option.map_map, Nat.zero_add]
  rfl

@[simp] theorem length_items : (tree.items query).length = tree.objects.length := by
  rw [items, length_map, length_zipIdx]

theorem mem_items :
    item ∈ tree.items query ↔ ∃ object, tree.objects[item.1]? = some object ∧ item.2 = query.candidate object := by
  constructor
  · intro mem
    obtain ⟨i, here⟩ := mem_iff_getElem?.1 mem
    rw [getElem?_items] at here
    obtain ⟨object, found, rfl⟩ := Option.map_eq_some_iff.1 here
    exact ⟨object, found, rfl⟩
  · rintro ⟨object, found, same⟩
    apply mem_of_getElem?
    rw [getElem?_items, found, Option.map_some, ← same]

/-- The candidate that is pushed for a segment. -/
def pushed (query : Query E) (leaf : TreeIndex) (item : ℕ × CandidateSegment E) : QueryCandidate :=
  ⟨query.squaredDistance item.2.data, leaf, some (item.1, item.2.fixedProjectedCoordinate)⟩

theorem below_pushed (mem : item ∈ tree.items query) :
    tree.below setting query top (pushed query leaf item) = [item] := by
  obtain ⟨i, candidate⟩ := item
  obtain ⟨object, found, rfl⟩ := mem_items.1 mem
  simp only [below, pushed, found]
  rfl

theorem Keyed.pushed (level : leaf.level ≤ top)
    (mem : item ∈ tree.items query) : Keyed setting tree query top (pushed query leaf item) where
  level := level
  segment i coordinate here := by
    obtain ⟨object, found, same⟩ := mem_items.1 mem
    cases here
    rw [StaticRTree.pushed, same]
    exact ⟨object, found, rfl, rfl⟩
  lower other here := by
    rw [below_pushed mem] at here
    rw [mem_singleton.1 here]
    exact Nat.le_refl _

/-- The node of a rectangle as a candidate. -/
def nodeCandidate (tree : StaticRTree E) (query : Query E) (node : TreeIndex) : QueryCandidate :=
  ⟨((tree.nodeRectangle node).getD .empty).getMinSquaredDist query.fixedProjectedCoordinate, node, none⟩

section Explore

variable (enclosing : Enclosing setting top tree)

include enclosing

/-- A leaf is replaced by its segments. -/
theorem Enclosing.exploreLeafNode_eq (bottom : leaf.level = top) :
    tree.exploreLeafNode setting query leaf =
      some ((window setting.leafNodeSize (tree.items query) leaf.offset).map (pushed query leaf)) := by
  have read := mapM_read (g := pushed query leaf) (map_window_range setting.leafNodeSize (tree.items query) leaf.offset)
  rw [length_items] at read
  rw [exploreLeafNode, enclosing.childIndexes_of_leaf bottom, ← read, Option.bind_eq_bind, Option.bind_some]
  congr 1
  funext i
  rw [getElem?_items]
  cases tree.objects[i]? <;> rfl

/-- Another node is replaced by its children. -/
theorem Enclosing.exploreTreeNode_eq {parent : TreeIndex} (above : parent.level < top) :
    tree.exploreTreeNode setting query parent =
      some ((childrenOf setting.leafNodeSize setting.branchingFactor tree.objects.length (top - (parent.level + 1))
        parent.offset).map fun i => nodeCandidate tree query ⟨parent.level + 1, i⟩) := by
  have start := enclosing.starts (show parent.level + 1 ≤ top + 1 by omega)
  rw [exploreTreeNode, enclosing.childIndexes_of_lt above, start, Option.bind_eq_bind, Option.bind_some, Option.bind_eq_bind,
    Option.bind_some, mapM_eq_some (g := fun child => nodeCandidate tree query ⟨parent.level + 1,
      child - levelStart setting tree.objects top (parent.level + 1)⟩)]
  · simp
  · intro child mem
    obtain ⟨i, inside, rfl⟩ := mem_map.1 mem
    obtain ⟨rectangle, found, -⟩ := enclosing.rectangles ⟨parent.level + 1, i⟩ ⟨above, (mem_window_range.1 inside).2.2⟩
    rw [Nat.add_sub_cancel_left, nodeCandidate, found]
    rw [nodeRectangle, start, Option.bind_eq_bind, Option.bind_some] at found
    rw [found]
    rfl

/-- The rectangle of a node is at most as far as the segments below it. -/
theorem Enclosing.keyed_node (lower : LowerBound setting query) {node : TreeIndex}
    (valid : Node setting tree.objects top node) : Keyed setting tree query top (nodeCandidate tree query node) where
  level := valid.level
  segment _ _ here := by cases here
  lower item mem := by
    obtain ⟨rectangle, found, encloses⟩ := enclosing.rectangles node valid
    rw [nodeCandidate, found]
    obtain ⟨place, window, here⟩ := mem_window.1 mem
    rw [length_items] at window
    rw [getElem?_items] at here
    obtain ⟨object, found, rfl⟩ := Option.map_eq_some_iff.1 here
    exact lower rectangle object (encloses object (mem_window.2 ⟨place, window, found⟩))

/-- The step lemma of the search. -/
theorem Enclosing.bounds (lower : LowerBound setting query) :
    Bounds (tree.explore setting query) (·.squaredMinDist) (tree.cost setting query top)
      (fun item => query.squaredDistance item.2.data) (tree.below setting query top) (Keyed setting tree query top) := by
  refine ⟨fun keyed => keyed.lower, fun {current} keyed => ?_⟩
  obtain ⟨key, node, segment⟩ := current
  match segment, keyed with
  | some (i, coordinate), keyed =>
    obtain ⟨object, found, rfl, same⟩ := keyed.segment i coordinate rfl
    refine .inl ⟨Nat.le_refl 1, (i, query.candidate object), ?_, ?_, Nat.le_of_eq same.symm⟩
    · simp only [explore, found]
      rfl
    · simp only [below, found]
      rfl
  | none, keyed =>
    have level : node.level ≤ top := keyed.level
    rcases level.eq_or_lt with bottom | above
    · have all : ∀ item ∈ window setting.leafNodeSize (tree.items query) node.offset, item ∈ tree.items query :=
        fun item mem => mem_of_mem_drop (mem_of_mem_take mem)
      have here : tree.below setting query top ⟨key, node, none⟩ = window setting.leafNodeSize (tree.items query) node.offset := by
        simp [below, covered, bottom]
      refine .inr ⟨(window setting.leafNodeSize (tree.items query) node.offset).map (pushed query node), ?_, ?_, ?_, ?_⟩
      · simp [explore, enclosing.isLeaf_iff.2 bottom, enclosing.exploreLeafNode_eq bottom]
      · intro q mem
        obtain ⟨item, inside, rfl⟩ := mem_map.1 mem
        exact .pushed level (all item inside)
      · rw [here, flatMap_map, flatMap_congr fun item mem => below_pushed (all item mem)]
        simp
      · simp only [cost, here, bottom, Nat.sub_self, subtreeSize, map_map]
        rw [show (cost setting tree query top ∘ pushed query node) = fun _ => 1 from rfl]
        simp
    · have height : top - node.level = top - (node.level + 1) + 1 := by omega
      have split : tree.below setting query top ⟨key, node, none⟩ = (childrenOf setting.leafNodeSize setting.branchingFactor
          tree.objects.length (top - (node.level + 1)) node.offset).flatMap fun i =>
            tree.below setting query top (nodeCandidate tree query ⟨node.level + 1, i⟩) := by
        simp only [below, height, nodeCandidate]
        rw [covered_succ leafNodeSize_pos branchingFactor_pos, length_items]
      refine .inr ⟨_, ?_, ?_, .of_eq (split.trans (flatMap_map _ _ _).symm), ?_⟩
      · have inner : ¬tree.isLeaf node = true := fun leaf => above.ne (enclosing.isLeaf_iff.1 leaf)
        simp [explore, if_neg inner, enclosing.exploreTreeNode_eq above]
      · intro q mem
        obtain ⟨i, inside, rfl⟩ := mem_map.1 mem
        exact enclosing.keyed_node lower ⟨above, (mem_window_range.1 inside).2.2⟩
      · simp only [cost, height, subtreeSize, split, length_flatMap]
        generalize childrenOf _ _ _ _ _ = children
        induction children with
        | nil => simp
        | cons i children ih =>
          simp only [map_cons, sum_cons] at ih ⊢
          simp only [cost, nodeCandidate] at ih ⊢
          omega

end Explore

/-- What the loop makes of the segments that it looks at. -/
theorem foldl_use (filter : CandidateSegment E → Bool × Bool) : ∀ (visited : List (ℕ × CandidateSegment E))
    (out : List ℕ × List (CandidateSegment E)),
    visited.foldl (fun out item => (out.1 ++ [item.1], out.2 ++ (query.use filter item.2).toList)) out =
      (out.1 ++ visited.map (·.1), out.2 ++ visited.filterMap fun item => query.use filter item.2)
  | [], out => by simp
  | item :: visited, out => by
    rw [foldl_cons, foldl_use filter visited, filterMap_cons]
    cases query.use filter item.2 <;> simp

/-- The items that a search has visited are nearest segments. -/
theorem isNearest_of_visits {filter : CandidateSegment E → Bool × Bool} {k : ℕ} {visited left : List (ℕ × CandidateSegment E)}
    (visits : Visits (fun out _ => decide (k ≤ out.2.length))
      (fun out item => (out.1 ++ [item.1], out.2 ++ (query.use filter item.2).toList))
      (fun item => query.squaredDistance item.2.data) (tree.items query) ([], []) visited left) :
    IsNearest tree query filter k (visited.map (·.1)) (visited.filterMap fun item => query.use filter item.2) := by
  have known : ∀ item ∈ visited ++ left, ∃ object, tree.objects[item.1]? = some object ∧ item.2 = query.candidate object :=
    fun item mem => mem_items.1 (visits.perm.mem_iff.1 mem)
  have object : ∀ item ∈ visited ++ left, ∀ a ∈ tree.objects[item.1]?, item.2 = query.candidate a := by
    intro item mem a here
    obtain ⟨object, found, same⟩ := known item mem
    rw [Option.mem_def.1 here] at found
    cases found
    exact same
  have count : (visited.filterMap fun item => query.use filter item.2).length ≤ k := by
    -- before the last segment there were fewer than `k` results
    rcases eq_nil_or_concat visited with rfl | ⟨front, item, rfl⟩
    · exact Nat.zero_le k
    rw [concat_eq_append] at visits ⊢
    have going := visits.going (rfl : front ++ [item] = front ++ item :: [])
    simp only [foldl_use, nil_append, decide_eq_false_iff_not] at going
    rw [filterMap_append, filterMap_cons]
    cases query.use filter item.2 <;> simp <;> omega
  refine ⟨?_, ?_, ?_, ?_, count, ?_⟩
  · have places : (tree.items query).map (·.1) = List.range tree.objects.length := by
      rw [items, map_map, List.range_eq_range', ← zipIdx_map_snd 0 tree.objects]
      rfl
    have nodup := (visits.perm.map (·.1)).nodup_iff.2 (places ▸ nodup_range)
    rw [map_append] at nodup
    exact (nodup_append.1 nodup).1
  · intro i mem
    obtain ⟨item, here, rfl⟩ := mem_map.1 mem
    obtain ⟨_, found, -⟩ := known item (mem_append_left _ here)
    exact (List.getElem?_eq_some_iff.1 found).1
  · rw [pairwise_map]
    refine visits.sorted.imp_of_mem fun {item other} mem mem' le a here b there => ?_
    rwa [object item (mem_append_left _ mem) a here, object other (mem_append_left _ mem') b there] at le
  · rw [filterMap_map]
    apply filterMap_congr
    intro item mem
    obtain ⟨object, found, same⟩ := known item (mem_append_left _ mem)
    rw [Function.comp_apply, found, Option.bind_some, same]
  · intro i out a here accepted
    have mem : (i, query.candidate a) ∈ left := by
      have mem := visits.perm.mem_iff.2 (mem_items.2 ⟨a, Option.mem_def.1 here, rfl⟩ : (i, query.candidate a) ∈ _)
      exact (mem_append.1 mem).resolve_left fun mem => out (mem_map_of_mem mem)
    obtain ⟨_, -, stopped⟩ := visits.ends.resolve_left (ne_nil_of_mem mem)
    simp only [foldl_use, decide_eq_true_eq] at stopped
    refine ⟨Nat.le_antisymm count stopped, fun j isVisited b there => ?_⟩
    obtain ⟨item, front, rfl⟩ := mem_map.1 isVisited
    have le := visits.nearer item front _ mem
    rwa [object item (mem_append_left _ front) b there] at le

/-- **`Nearest` is exact**: whichever of several nearest candidates the queue gives out, with the condition that `k` results
are found the segments are looked at in order of distance, and the results are `k` nearest ones of those that the filter
accepts, or all of them. -/
theorem nearest_exact (enclosing : Enclosing setting top tree)
    {pop : List QueryCandidate → Option (QueryCandidate × List QueryCandidate)} (pops : PopsLeast (·.squaredMinDist) pop)
    (lower : LowerBound setting query) (filter : CandidateSegment E → Bool × Bool) (k : ℕ) : ∃ enough, ∀ fuel ≥ enough, ∃ visited results,
      tree.nearest setting query pop filter (fun found _ => k ≤ found) fuel = some (visited, results) ∧
        IsNearest tree query filter k visited results := by
  refine ⟨tree.cost setting query top ⟨0, .root, none⟩ + 1, fun fuel enough => ?_⟩
  have all : tree.below setting query top ⟨0, .root, none⟩ = tree.items query := by
    have width : 0 < setting.leafNodeSize * setting.branchingFactor ^ top := width_pos leafNodeSize_pos branchingFactor_pos top
    have few := (le_windowCount_mul width).trans (Nat.mul_le_mul_right _ enclosing.root)
    simp only [below, covered, window, TreeIndex.root, Nat.zero_mul, drop_zero]
    exact take_of_length_le (by rwa [length_items, ← Nat.one_mul (_ * _)])
  have keyed : Keyed setting tree query top ⟨0, .root, none⟩ :=
    ⟨Nat.zero_le top, fun _ _ here => (by cases here), fun _ _ => Nat.zero_le _⟩
  obtain ⟨visited, left, done, visits⟩ := bestFirst_visits pops (enclosing.bounds lower) fuel [⟨0, .root, none⟩] ([], [])
    (fun q mem => mem_singleton.1 mem ▸ keyed) (by rw [map_singleton, sum_singleton]; omega)
  rw [flatMap_singleton, all] at visits
  refine ⟨_, _, done.trans ?_, isNearest_of_visits visits⟩
  rw [foldl_use, nil_append, nil_append]

/-- A tree that the constructor has built is one. -/
theorem Built.enclosing {objects : List E} (built : Built setting objects top tree) : Enclosing setting top tree := by
  obtain rfl := built.content
  refine ⟨built.packed, Nat.le_of_eq built.root, fun node valid => ?_⟩
  have inside : node.offset < (levelAt setting tree.objects (top - node.level)).length := by
    rw [length_levelAt]
    exact valid.offset
  refine ⟨_, ?_, fun object mem => levelAt_encloses (List.getElem?_eq_getElem inside) mem⟩
  rw [nodeRectangle, built.packed.starts (Nat.le_succ_of_le valid.level), Option.bind_eq_bind, Option.bind_some,
    built.node valid.level valid.offset, List.getElem?_eq_getElem inside]

end Search

/-- The ends of a segment lie in its rectangle. -/
theorem contains_u {rectangle : RectangleInt2D} {object : E} (outer : rectangle.Encloses (setting.projectedRectangle object)) :
    rectangle.contains (setting.fromWGS84 (setting.coordinateList (setting.u object))) = true := by
  obtain ⟨minLon, maxLon, minLat, maxLat⟩ := outer
  simp only [Setting.projectedRectangle, max_le_iff, le_min_iff] at minLon maxLon minLat maxLat
  simp only [RectangleInt2D.contains, Bool.and_eq_true, decide_eq_true_eq]
  exact ⟨⟨minLon.2.1, maxLon.2.1⟩, minLat.2.1, maxLat.2.1⟩

/-- The distances of the first ends of the segments from the origin. -/
def fromOrigin : Query (ℕ × ℕ) where
  fixedProjectedCoordinate := ⟨0, 0⟩
  projectedNearest object := twoByTwo.fromWGS84 (twoByTwo.coordinateList (twoByTwo.u object))
  restrict object _ := object

theorem nearest_exact_five : ∃ tree, construct twoByTwo [(0, 1), (1, 2), (2, 3), (3, 4), (4, 5)]
      (wrapAll twoByTwo [(0, 1), (1, 2), (2, 3), (3, 4), (4, 5)]) = some tree ∧
    ∃ enough, ∀ fuel ≥ enough, ∃ visited results, tree.nearest twoByTwo fromOrigin (popLeast (·.squaredMinDist))
      (fun candidate => (candidate.data.1 % 2 == 1, false)) (fun found _ => 2 ≤ found) fuel = some (visited, results) ∧
        IsNearest tree fromOrigin (fun candidate => (candidate.data.1 % 2 == 1, false)) 2 visited results := by
  have sorted : Sorted twoByTwo [(0, 1), (1, 2), (2, 3), (3, 4), (4, 5)] (wrapAll twoByTwo _) := ⟨List.Perm.refl _, by decide⟩
  obtain ⟨objects, top, tree, constructed, -, -, built⟩ := construct_built (cons_ne_nil _ _) sorted
  exact ⟨tree, constructed, nearest_exact built.enclosing (popsLeast_popLeast _)
    (fun _ _ outer => RectangleInt2D.getMinSquaredDist_le (contains_u _ outer)) _ 2⟩

end StaticRTree

end Osrm
