import Osrm.Util.StaticRTreeLevels
import Mathlib.Algebra.Order.BigOperators.Group.List

/-!
# Searching the R-tree

The places in the array that `child_indexes` gives are those of the nodes below, so the walk of
`SearchInBox` is one through a packed tree. It skips a node only if its rectangle does not meet the
projected query box; since the projection is monotone, no segment below it meets the box then.
-/

namespace Osrm.StaticRTree

open Function List

open Lib

variable {E : Type} {setting : Setting E} {objects : List E} {top : ℕ} {tree : StaticRTree E}

/-! ### Places in the array -/

variable (setting objects top tree) in
/-- The levels of the tree start where those of a packed tree do. -/
structure Packed : Prop where
  treeLevelStarts : tree.treeLevelStarts =
    ((range (top + 1)).map fun level => sizeAt setting objects (top - level)).scanl (· + ·) 0
  content : tree.objects = objects

theorem Built.packed (built : Built setting objects top tree) : Packed setting objects top tree :=
  ⟨built.treeLevelStarts, built.content⟩

section Places

variable (setting objects top)

/-- The place of the first node of a level in the array. -/
def levelStart (level : ℕ) : ℕ := blockStart (fun l => sizeAt setting objects (top - l)) level

variable {setting objects top} (packed : Packed setting objects top tree)

include packed

theorem Packed.length_starts : tree.treeLevelStarts.length = top + 2 := by
  rw [packed.treeLevelStarts, length_scanl, length_map, length_range]

theorem Packed.starts {level : ℕ} (inside : level ≤ top + 1) :
    tree.treeLevelStarts[level]? = some (levelStart setting objects top level) := by
  rw [packed.treeLevelStarts, getElem?_scanl_range _ inside, levelStart]

theorem Packed.isLeaf_iff {node : TreeIndex} : tree.isLeaf node = true ↔ node.level = top := by
  rw [isLeaf, packed.length_starts, decide_eq_true_eq, Nat.add_sub_cancel]

/-- The children of a node above the leaves. -/
theorem Packed.childIndexes_of_lt {node : TreeIndex} (above : node.level < top) : tree.childIndexes setting node =
    some ((childrenOf setting.leafNodeSize setting.branchingFactor objects.length (top - (node.level + 1)) node.offset).map
      (levelStart setting objects top (node.level + 1) + ·)) := by
  have inner : ¬tree.isLeaf node = true := fun leaf => above.ne (packed.isLeaf_iff.1 leaf)
  have next : levelStart setting objects top (node.level + 2) = levelStart setting objects top (node.level + 1) +
      sizeAt setting objects (top - (node.level + 1)) := blockStart_succ _ _
  rw [childIndexes, if_neg inner, packed.starts (by omega), packed.starts (by omega), next, childrenOf, window_range,
    map_add_range']
  simp only [Option.bind_eq_bind, Option.bind_some]
  congr 2
  rw [sizeAt]
  omega

/-- The children of a leaf. -/
theorem Packed.childIndexes_of_leaf {node : TreeIndex} (leaf : node.level = top) : tree.childIndexes setting node =
    some (window setting.leafNodeSize (range objects.length) node.offset) := by
  have count (a : ℕ) : min (a + setting.leafNodeSize) objects.length - a = min setting.leafNodeSize (objects.length - a) := by
    omega
  rw [childIndexes, if_pos (packed.isLeaf_iff.2 leaf), window_range, packed.content]
  dsimp only
  rw [count]

omit packed

variable (built : Built setting objects top tree)

include built

theorem Built.node {level i : ℕ} (inside : level ≤ top) (exists' : i < sizeAt setting objects (top - level)) :
    tree.searchTree[levelStart setting objects top level + i]? = (levelAt setting objects (top - level))[i]? := by
  rw [built.searchTree, levelStart]
  simp only [← length_levelAt]
  exact getElem?_flatMap_range (Nat.lt_succ_of_le inside) (by rwa [length_levelAt])

theorem Built.length_searchTree : tree.searchTree.length = subtreeSize setting.leafNodeSize setting.branchingFactor
    objects.length top 0 := by
  have wide : 0 < setting.leafNodeSize := leafNodeSize_pos
  have branches : 0 < setting.branchingFactor := branchingFactor_pos
  have all := sum_subtreeSize (n := objects.length) wide branches top
  have turned := sum_reverse ((range (top + 1)).map (sizeAt setting objects))
  rw [← map_reverse, reverse_range, map_map] at turned
  rw [show levelSize _ _ _ top = 1 from built.root] at all
  rw [built.searchTree, length_flatMap_range]
  simp only [length_levelAt]
  exact turned.trans (all.symm.trans (Nat.add_zero _))

end Places

/-! ### The search -/

/-- Rectangles that meet before the projection meet after it. -/
theorem projectedRectangle_intersects {object : E} {box rectangle : RectangleInt2D}
    (meets : (setting.boundingRectangle object).intersects box = true)
    (outer : rectangle.Encloses (setting.projectedRectangle object)) : rectangle.intersects (setting.project box) = true := by
  simp only [RectangleInt2D.intersects, Bool.not_eq_true', Bool.or_eq_false_iff, decide_eq_false_iff_not, not_lt, and_assoc] at meets ⊢
  obtain ⟨lon, lon', lat, lat'⟩ := meets
  have monotone : Monotone setting.latToY := setting.monotone
  have north : setting.latToY box.minLat ≤ max (setting.latToY (setting.coordinateList (setting.u object)).lat)
      (setting.latToY (setting.coordinateList (setting.v object)).lat) := by
    rw [← monotone.map_max]
    exact monotone lat
  have south : min (setting.latToY (setting.coordinateList (setting.u object)).lat)
      (setting.latToY (setting.coordinateList (setting.v object)).lat) ≤ setting.latToY box.maxLat := by
    rw [← monotone.map_min]
    exact monotone lat'
  refine ⟨le_trans lon ?_, le_trans ?_ lon', le_trans north ?_, le_trans ?_ south⟩
  · exact le_trans (le_max_right _ _) outer.maxLon
  · exact le_trans outer.minLon (min_le_right _ _)
  · exact le_trans (le_max_right _ _) outer.maxLat
  · exact le_trans outer.minLat (min_le_right _ _)

/-- What `SearchInBox` is to find below a node. -/
def wantedBelow (setting : Setting E) (objects : List E) (top : ℕ) (box : RectangleInt2D) (node : TreeIndex) : List E :=
  (objectsBelow setting objects (top - node.level) node.offset).filter fun object =>
    (setting.boundingRectangle object).intersects box

/-- The node is one of the tree. -/
structure Node (setting : Setting E) (objects : List E) (top : ℕ) (node : TreeIndex) : Prop where
  level : node.level ≤ top
  offset : node.offset < sizeAt setting objects (top - node.level)

section Search

variable (built : Built setting objects top tree) (box : RectangleInt2D)

include built

theorem Built.root_node : Node setting objects top .root :=
  ⟨Nat.zero_le _, Nat.lt_of_lt_of_eq Nat.one_pos built.root.symm⟩

/-- A visit to a leaf finds the wanted objects below it. -/
theorem Built.visit_leaf {node : TreeIndex} (leaf : node.level = top) :
    tree.visit setting box node = some (wantedBelow setting objects top box node, []) := by
  have read := mapM_read (g := fun object => if (setting.boundingRectangle object).intersects box then [object] else [])
    (map_window_range setting.leafNodeSize objects node.offset)
  have below : objectsBelow setting objects 0 node.offset = window setting.leafNodeSize objects node.offset := by
    rw [objectsBelow, covered, Nat.pow_zero, Nat.mul_one]
  rw [visit, built.packed.childIndexes_of_leaf leaf, built.content, Option.bind_eq_bind, Option.bind_some,
    if_pos (built.packed.isLeaf_iff.2 leaf), read, wantedBelow, leaf, Nat.sub_self, below, Option.bind_eq_bind, Option.bind_some,
    flatten_map_ite _ fun object => object, map_id']
  rfl

/-- A visit to another node pushes the children whose rectangles meet the box. -/
theorem Built.visit_inner {node : TreeIndex} (above : node.level < top) : ∃ keep : ℕ → Bool,
    (∀ i, ∀ object ∈ objectsBelow setting objects (top - (node.level + 1)) i,
      (setting.boundingRectangle object).intersects box = true → keep i = true) ∧
    tree.visit setting box node = some ([], ((childrenOf setting.leafNodeSize setting.branchingFactor objects.length
      (top - (node.level + 1)) node.offset).filter keep).map fun i => ⟨node.level + 1, i⟩) := by
  let start := levelStart setting objects top (node.level + 1)
  let keep : ℕ → Bool := fun i => match (levelAt setting objects (top - (node.level + 1)))[i]? with
    | some rectangle => rectangle.intersects (setting.project box)
    | none => false
  have read : ∀ child ∈ (childrenOf setting.leafNodeSize setting.branchingFactor objects.length (top - (node.level + 1))
      node.offset).map (start + ·), (do
        let childRectangle ← tree.searchTree[child]?
        return if childRectangle.intersects (setting.project box) then [(⟨node.level + 1, child - start⟩ : TreeIndex)] else []) =
      some (if keep (child - start) then [⟨node.level + 1, child - start⟩] else []) := by
    intro child mem
    obtain ⟨i, below, rfl⟩ := mem_map.1 mem
    have exists' := (mem_window_range.1 below).2.2
    rw [built.node above exists', Nat.add_sub_cancel_left]
    have inside : i < (levelAt setting objects (top - (node.level + 1))).length := by rwa [length_levelAt]
    simp only [keep, getElem?_eq_getElem inside]
    rfl
  refine ⟨keep, fun i object mem meets => ?_, ?_⟩
  · have inside : i < (levelAt setting objects (top - (node.level + 1))).length := by
      rw [length_levelAt]
      exact lt_windowCount_of_mem (width_pos leafNodeSize_pos branchingFactor_pos _) mem
    simp only [keep, getElem?_eq_getElem inside]
    exact projectedRectangle_intersects meets (levelAt_encloses (getElem?_eq_getElem inside) mem)
  · have inner : ¬tree.isLeaf node = true := fun leaf => above.ne (built.packed.isLeaf_iff.1 leaf)
    rw [visit, built.packed.childIndexes_of_lt above, Option.bind_eq_bind, Option.bind_some, if_neg inner, built.packed.starts (by omega),
      Option.bind_eq_bind, Option.bind_some, mapM_eq_some read, Option.bind_eq_bind, Option.bind_some, map_map]
    simp only [comp_def, Nat.add_sub_cancel_left, flatten_map_ite keep]
    rfl

/-- **`SearchInBox` finds the segments that meet the box**, each as often as it is there. -/
theorem Built.searchInBox_perm : ∃ results, tree.searchInBox setting box = some results ∧
    results.Perm (objects.filter fun object => (setting.boundingRectangle object).intersects box) := by
  have wide : 0 < setting.leafNodeSize := leafNodeSize_pos
  have branches : 0 < setting.branchingFactor := branchingFactor_pos
  have step : ∀ node, Node setting objects top node → ∃ found next, tree.visit setting box node = some (found, next) ∧
      (∀ child ∈ next, Node setting objects top child) ∧
      (wantedBelow setting objects top box node).Perm (found ++ next.flatMap (wantedBelow setting objects top box)) ∧
      1 + (next.map fun node => subtreeSize setting.leafNodeSize setting.branchingFactor objects.length (top - node.level)
        node.offset).sum ≤ subtreeSize setting.leafNodeSize setting.branchingFactor objects.length (top - node.level) node.offset := by
    intro node valid
    rcases valid.level.eq_or_lt with leaf | above
    · refine ⟨_, _, built.visit_leaf box leaf, fun _ mem => absurd mem not_mem_nil, ?_, ?_⟩
      · rw [flatMap_nil, append_nil]
      · rw [leaf, Nat.sub_self]
        rfl
    · obtain ⟨keep, kept, visited⟩ := built.visit_inner box above
      have height : top - node.level = top - (node.level + 1) + 1 := by omega
      refine ⟨_, _, visited, fun child mem => ?_, ?_, ?_⟩
      · obtain ⟨i, below, rfl⟩ := mem_map.1 mem
        exact ⟨above, (mem_window_range.1 (mem_of_mem_filter below)).2.2⟩
      · rw [wantedBelow, height, objectsBelow, filter_covered_succ wide branches kept, flatMap_map]
        exact Perm.refl _
      · rw [height, map_map]
        apply Nat.add_le_add_left
        exact (Sublist.map _ filter_sublist).sum_le_sum fun _ _ => Nat.zero_le _
  have all : objectsBelow setting objects top 0 = objects := by
    have parts := flatMap_window (width_pos wide branches top) objects
    rw [show windowCount _ _ = 1 from built.root] at parts
    exact (append_nil _).symm.trans parts
  obtain ⟨results, done, perm⟩ := @explore_perm _ _ _ _ _ _ step tree.searchTree.length [.root] []
    (fun node mem => mem_singleton.1 mem ▸ built.root_node) (built.length_searchTree ▸ le_of_eq (Nat.add_zero _))
  refine ⟨results, done, perm.trans ?_⟩
  rw [nil_append, flatMap_singleton]
  exact Perm.of_eq (congrArg _ all)

end Search

/-! ### What belongs to which node -/

/-- The nodes below a node, and itself: where `child_indexes` leads. -/
inductive Below (setting : Setting E) (tree : StaticRTree E) (first : TreeIndex) : TreeIndex → Prop
  | refl : Below setting tree first first
  | child {node : TreeIndex} {children : List ℕ} {start child : ℕ} : Below setting tree first node → tree.isLeaf node = false →
      tree.childIndexes setting node = some children → tree.treeLevelStarts[node.level + 1]? = some start → child ∈ children →
      Below setting tree first ⟨node.level + 1, child - start⟩

/-- The object at a place belongs to a leaf. -/
structure InLeaf (setting : Setting E) (tree : StaticRTree E) (leaf : TreeIndex) (place : ℕ) : Prop where
  isLeaf : tree.isLeaf leaf = true
  child : ∃ children, tree.childIndexes setting leaf = some children ∧ place ∈ children

def nodeRectangle (tree : StaticRTree E) (node : TreeIndex) : Option RectangleInt2D := do
  let start ← tree.treeLevelStarts[node.level]?
  tree.searchTree[start + node.offset]?

/-- Each segment belongs to one leaf, the rectangle of a node contains those of the segments below it, and `SearchInBox`
returns the segments that meet the box, each once. -/
structure LosesNothing (setting : Setting E) (input : List E) (wrapped : List WrappedInputElement) (tree : StaticRTree E) :
    Prop where
  once : ∀ i < input.length, ∃! leaf, Below setting tree .root leaf ∧ ∃ place element, InLeaf setting tree leaf place ∧
    wrapped[place]? = some element ∧ element.originalIndex = i ∧ tree.objects[place]? = input[i]?
  encloses : ∀ node leaf place object, Below setting tree .root node → Below setting tree node leaf →
    InLeaf setting tree leaf place → tree.objects[place]? = some object →
      ∃ rectangle, tree.nodeRectangle node = some rectangle ∧ rectangle.Encloses (setting.projectedRectangle object)
  search : ∀ box, ∃ results, tree.searchInBox setting box = some results ∧
    results.Perm (input.filter fun object => (setting.boundingRectangle object).intersects box)

section Nodes

variable (built : Built setting objects top tree)

include built

/-- A node below another is one of the tree, and what is below it is below the other. -/
theorem Built.node_of_below {first node : TreeIndex} (valid : Node setting objects top first)
    (below : Below setting tree first node) : Node setting objects top node ∧
      ∀ object ∈ objectsBelow setting objects (top - node.level) node.offset,
        object ∈ objectsBelow setting objects (top - first.level) first.offset := by
  induction below with
  | refl => exact ⟨valid, fun _ mem => mem⟩
  | @child node children start child _ inner indexes starts mem ih =>
    obtain ⟨parent, kept⟩ := ih
    have above : node.level < top := by
      refine lt_of_le_of_ne parent.level fun leaf => ?_
      rw [built.packed.isLeaf_iff.2 leaf] at inner
      cases inner
    rw [built.packed.childIndexes_of_lt above] at indexes
    rw [built.packed.starts (by omega)] at starts
    cases indexes
    cases starts
    obtain ⟨i, offset, rfl⟩ := mem_map.1 mem
    rw [Nat.add_sub_cancel_left]
    refine ⟨⟨above, (mem_window_range.1 offset).2.2⟩, fun object mem => kept object ?_⟩
    rw [show top - node.level = top - (node.level + 1) + 1 by omega, objectsBelow,
      covered_succ leafNodeSize_pos branchingFactor_pos]
    exact mem_flatMap.2 ⟨i, offset, mem⟩

/-- Every node of the tree is below the root. -/
theorem Built.below_root : ∀ {level offset : ℕ}, Node setting objects top ⟨level, offset⟩ →
    Below setting tree .root ⟨level, offset⟩
  | 0, offset, valid => by
    have first : offset = 0 := by
      have one := valid.offset
      rw [Nat.sub_zero, built.root] at one
      exact Nat.lt_one_iff.1 one
    rw [first]
    exact .refl
  | level + 1, offset, valid => by
    have above : level < top := valid.level
    have inside := valid.offset
    have branches : 0 < setting.branchingFactor := branchingFactor_pos
    have division := Nat.div_add_mod' offset setting.branchingFactor
    have remainder := Nat.mod_lt offset branches
    have parent : Node setting objects top ⟨level, offset / setting.branchingFactor⟩ := by
      refine ⟨above.le, ?_⟩
      rw [show top - level = top - (level + 1) + 1 by omega, sizeAt, levelSize_succ leafNodeSize_pos branches,
        lt_windowCount_iff branches]
      exact Nat.lt_of_le_of_lt (Nat.div_mul_le_self _ _) inside
    have inner : tree.isLeaf ⟨level, offset / setting.branchingFactor⟩ = false := by
      rw [← Bool.not_eq_true, built.packed.isLeaf_iff]
      exact above.ne
    have mine : offset ∈ childrenOf setting.leafNodeSize setting.branchingFactor objects.length (top - (level + 1))
        (offset / setting.branchingFactor) := mem_window_range.2 ⟨by omega, by omega, inside⟩
    have step := (Built.below_root parent).child inner (built.packed.childIndexes_of_lt above)
      (built.packed.starts (Nat.succ_le_succ above.le)) (mem_map_of_mem mine)
    rwa [Nat.add_sub_cancel_left] at step

/-- The objects of a leaf are those of its window. -/
theorem Built.inLeaf_iff {leaf : TreeIndex} {place : ℕ} : InLeaf setting tree leaf place ↔
    leaf.level = top ∧ place ∈ window setting.leafNodeSize (range objects.length) leaf.offset := by
  constructor
  · rintro ⟨isLeaf, children, indexes, mem⟩
    have bottom := built.packed.isLeaf_iff.1 isLeaf
    rw [built.packed.childIndexes_of_leaf bottom] at indexes
    cases indexes
    exact ⟨bottom, mem⟩
  · rintro ⟨bottom, mem⟩
    exact ⟨built.packed.isLeaf_iff.2 bottom, _, built.packed.childIndexes_of_leaf bottom, mem⟩

theorem Built.nodeRectangle_encloses {node leaf : TreeIndex} {place : ℕ} {object : E} (reached : Below setting tree .root node)
    (below : Below setting tree node leaf) (inLeaf : InLeaf setting tree leaf place)
    (found : tree.objects[place]? = some object) :
    ∃ rectangle, tree.nodeRectangle node = some rectangle ∧ rectangle.Encloses (setting.projectedRectangle object) := by
  obtain ⟨valid, -⟩ := built.node_of_below built.root_node reached
  obtain ⟨bottom, mem⟩ := built.inLeaf_iff.1 inLeaf
  have covers : object ∈ objectsBelow setting objects (top - leaf.level) leaf.offset := by
    rw [bottom, Nat.sub_self, objectsBelow, covered, Nat.pow_zero, Nat.mul_one, mem_window]
    exact ⟨place, mem, built.content ▸ found⟩
  have inside : node.offset < (levelAt setting objects (top - node.level)).length := by
    rw [length_levelAt]
    exact valid.offset
  refine ⟨_, ?_, levelAt_encloses (getElem?_eq_getElem inside) ((built.node_of_below valid below).2 object covers)⟩
  rw [nodeRectangle, built.packed.starts (Nat.le_succ_of_le valid.level), Option.bind_eq_bind, Option.bind_some,
    built.node valid.level valid.offset, getElem?_eq_getElem inside]

end Nodes

variable {input : List E} {wrapped : List WrappedInputElement}

/-- The sorted elements are numbered by the places of their segments. -/
theorem Sorted.originalIndexes (sorted : Sorted setting input wrapped) :
    (wrapped.map WrappedInputElement.originalIndex).Perm (range input.length) := by
  have numbers : (wrapAll setting input).map WrappedInputElement.originalIndex = range input.length := by
    rw [wrapAll, map_map, range_eq_range', ← zipIdx_map_snd 0 input]
    rfl
  rw [← numbers]
  exact sorted.perm.map _

/-- An object is the segment whose number stands at its place. -/
theorem object_of_element (same : objects.map some = wrapped.map fun element => input[element.originalIndex]?) {place : ℕ}
    {element : WrappedInputElement} (found : wrapped[place]? = some element) :
    objects[place]? = input[element.originalIndex]? ∧ place < objects.length := by
  have here := congrArg (·[place]?) same
  simp only [getElem?_map, found] at here
  cases read : objects[place]? with
  | none =>
    rw [read] at here
    cases here
  | some object =>
    rw [read] at here
    exact ⟨Option.some.inj here, (List.getElem?_eq_some_iff.1 read).1⟩

/-- The leaf of the object at a place is the one whose window the place is in. -/
theorem Built.inLeaf_iff_eq (built : Built setting objects top tree) {leaf : TreeIndex} {place : ℕ}
    (stored : place < objects.length) : InLeaf setting tree leaf place ↔ leaf = ⟨top, place / setting.leafNodeSize⟩ := by
  have wide : 0 < setting.leafNodeSize := leafNodeSize_pos
  rw [built.inLeaf_iff, mem_window_range]
  constructor
  · rintro ⟨bottom, first, last, -⟩
    have column : leaf.offset = place / setting.leafNodeSize :=
      (Nat.div_eq_of_lt_le first (by rw [Nat.succ_mul]; exact last)).symm
    exact congrArg₂ TreeIndex.mk bottom column
  · rintro rfl
    have division := Nat.div_add_mod' place setting.leafNodeSize
    have remainder := Nat.mod_lt place wide
    exact ⟨rfl, by dsimp only; omega, by dsimp only; omega, stored⟩

/-- **The R-tree loses no segment.** -/
theorem construct_losesNothing (setting : Setting E) {input : List E} (nonempty : input ≠ [])
    {wrapped : List WrappedInputElement} (sorted : Sorted setting input wrapped) :
    ∃ tree, construct setting input wrapped = some tree ∧ LosesNothing setting input wrapped tree := by
  obtain ⟨objects, top, tree, done, perm, same, built⟩ := construct_built nonempty sorted
  have once := sorted.originalIndexes.nodup_iff.2 nodup_range
  refine ⟨tree, done, fun i inside => ?_, fun node leaf place object reached below inLeaf found => ?_, fun box => ?_⟩
  · have numbered := sorted.originalIndexes.mem_iff.2 (mem_range.2 inside)
    obtain ⟨element, mem, number⟩ := mem_map.1 numbered
    obtain ⟨place, found⟩ := mem_iff_getElem?.1 mem
    obtain ⟨read, stored⟩ := object_of_element same found
    have valid : Node setting objects top ⟨top, place / setting.leafNodeSize⟩ := by
      refine ⟨le_rfl, ?_⟩
      rw [Nat.sub_self, sizeAt, levelSize, Nat.pow_zero, Nat.mul_one, lt_windowCount_iff leafNodeSize_pos]
      exact Nat.lt_of_le_of_lt (Nat.div_mul_le_self _ _) stored
    refine ⟨⟨top, place / setting.leafNodeSize⟩, ⟨built.below_root valid, place, element, (built.inLeaf_iff_eq stored).2 rfl, found,
      number, ?_⟩, ?_⟩
    · rw [built.content, read, number]
    · -- the number of a segment stands at one place only
      rintro leaf ⟨-, place', element', inLeaf, found', number', -⟩
      have samePlace : place' = place := by
        apply (getElem?_inj (by simpa using (List.getElem?_eq_some_iff.1 found').1) once).1
        rw [getElem?_map, getElem?_map, found, found', Option.map_some, Option.map_some, number, number']
      exact (built.inLeaf_iff_eq stored).1 (samePlace ▸ inLeaf)
  · exact built.nodeRectangle_encloses reached below inLeaf found
  · obtain ⟨results, found, same⟩ := built.searchInBox_perm box
    exact ⟨results, found, same.trans (perm.filter _)⟩

theorem twoByTwo_branches : 2 ≤ 2 := le_rfl

theorem twoByTwo_page : 0 < 1 ∧ 1 ≤ 2 := ⟨Nat.one_pos, Nat.le_succ 1⟩

theorem twoByTwo_monotone ⦃lat lat' : ℤ⦄ (below : lat ≤ lat') : 2 * lat ≤ 2 * lat' :=
  Int.mul_le_mul_of_nonneg_left below (by decide)

/-- Segments between numbered places on a line, two in a leaf and two nodes under another. -/
def twoByTwo : Setting (ℕ × ℕ) where
  branchingFactor := 2
  branches := twoByTwo_branches
  leafPageSize := 2
  sizeOfEdgeData := 1
  page := twoByTwo_page
  u := Prod.fst
  v := Prod.snd
  coordinateList place := ⟨place, place⟩
  latToY latitude := 2 * latitude
  monotone := twoByTwo_monotone
  hilbertCode := Prod.fst

theorem construct_losesNothing_five : ∃ tree, construct twoByTwo [(0, 1), (1, 2), (2, 3), (3, 4), (4, 5)]
      (wrapAll twoByTwo [(0, 1), (1, 2), (2, 3), (3, 4), (4, 5)]) = some tree ∧
    LosesNothing twoByTwo [(0, 1), (1, 2), (2, 3), (3, 4), (4, 5)]
      (wrapAll twoByTwo [(0, 1), (1, 2), (2, 3), (3, 4), (4, 5)]) tree :=
  construct_losesNothing twoByTwo (cons_ne_nil _ _) ⟨Perm.refl _, by decide⟩

end Osrm.StaticRTree
