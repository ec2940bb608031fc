import Osrm.Util.StaticRTree

/-!
# The levels of the R-tree

The array that the constructor leaves holds the levels of a packed tree, from the root down. The
nodes of height 0 bound windows of the objects, those above them windows of the nodes below; each
node therefore encloses the rectangles of all objects it covers.
-/

namespace Osrm.StaticRTree

open Function List

open Lib

variable {E : Type} (setting : Setting E) (objects : List E)

def sizeAt (h : ℕ) : ℕ := levelSize setting.leafNodeSize setting.branchingFactor objects.length h

def objectsBelow (h i : ℕ) : List E := covered setting.leafNodeSize setting.branchingFactor objects h i

def levelAbove (level : List RectangleInt2D) : List RectangleInt2D :=
  (range (windowCount setting.branchingFactor level.length)).map fun i => .mergeAll (window setting.branchingFactor level i)

def levelAt : ℕ → List RectangleInt2D
  | 0 => (range (windowCount setting.leafNodeSize objects.length)).map fun i =>
      .mergeAll ((window setting.leafNodeSize objects i).map setting.projectedRectangle)
  | h + 1 => levelAbove setting (levelAt h)

variable {setting objects}

theorem leafNodeSize_pos : 0 < setting.leafNodeSize := Nat.div_pos setting.page.2 setting.page.1

theorem branchingFactor_pos : 0 < setting.branchingFactor := Nat.lt_of_lt_of_le Nat.zero_lt_two setting.branches

theorem length_levelAt (h : ℕ) : (levelAt setting objects h).length = sizeAt setting objects h := by
  induction h with
  | zero => simp [levelAt, sizeAt, levelSize]
  | succ h ih =>
    rw [levelAt, levelAbove, length_map, length_range, ih]
    exact (levelSize_succ leafNodeSize_pos branchingFactor_pos h).symm

/-! ### The loops of the constructor -/

theorem buildLeaves_eq : ∀ {count : ℕ} {objects : List E}, objects.length ≤ count →
    buildLeaves setting count objects = levelAt setting objects 0
  | 0, objects, few => by
    rw [length_eq_zero_iff.1 (Nat.le_zero.1 few)]
    simp [buildLeaves, levelAt, windowCount, Nat.div_eq_of_lt (Nat.sub_lt leafNodeSize_pos Nat.one_pos)]
  | _ + 1, [], _ => by
    simp [buildLeaves, levelAt, windowCount, Nat.div_eq_of_lt (Nat.sub_lt leafNodeSize_pos Nat.one_pos)]
  | count + 1, object :: objects, few => by
    have wide : 0 < setting.leafNodeSize := leafNodeSize_pos
    have rest : ((object :: objects).drop setting.leafNodeSize).length ≤ count := by
      rw [length_drop]
      omega
    rw [buildLeaves, buildLeaves_eq rest, levelAt, levelAt, windowCount_step wide (length_pos_of_mem mem_cons_self),
      range_succ_eq_map]
    congr 1
    · simp [window]
    · simp [window_succ]

/-- The bounding box of a stretch of the array. -/
theorem mergeChildren_eq {searchTree : List RectangleInt2D} {first count : ℕ} (inside : first + count ≤ searchTree.length) :
    mergeChildren searchTree first (first + count) = some (.mergeAll ((searchTree.drop first).take count)) := by
  have steps : ∀ (count first : ℕ) (start : RectangleInt2D), first + count ≤ searchTree.length →
      (range' first count).foldlM (fun rectangle child => searchTree[child]?.map rectangle.mergeBoundingBoxes) start =
        some (((searchTree.drop first).take count).foldl RectangleInt2D.mergeBoundingBoxes start) := by
    intro count
    induction count with
    | zero =>
      intro first start _
      rfl
    | succ count ih =>
      intro first start inside
      have here : first < searchTree.length := by omega
      rw [range'_succ, foldlM_cons, getElem?_eq_getElem here, drop_eq_getElem_cons here]
      exact ih (first + 1) _ (by omega)
  rw [mergeChildren, Nat.add_sub_cancel_left]
  exact steps count first .empty inside

/-- One level: the nodes above the last level are appended. -/
theorem buildLevel_eq (front level : List RectangleInt2D) :
    buildLevel setting.branchingFactor (front ++ level) level.length (windowCount setting.branchingFactor level.length) =
      some (front ++ level ++ levelAbove setting level) := by
  have steps : ∀ m ≤ windowCount setting.branchingFactor level.length,
      (range m).foldlM (fun searchTree i =>
        (mergeChildren searchTree (i * setting.branchingFactor + ((front ++ level).length - level.length))
          (i * setting.branchingFactor + ((front ++ level).length - level.length) +
            min setting.branchingFactor (level.length - i * setting.branchingFactor))).map
          fun parentNode => searchTree ++ [parentNode]) (front ++ level) =
        some (front ++ level ++ (range m).map fun i => .mergeAll (window setting.branchingFactor level i)) := by
    intro m
    induction m with
    | zero =>
      intro _
      simp
    | succ m ih =>
      intro within
      have begins := (lt_windowCount_iff branchingFactor_pos).1 within
      rw [range_succ, foldlM_append, ih (Nat.le_of_succ_le within), length_append, Nat.add_sub_cancel,
        map_append, ← append_assoc]
      generalize map _ (range m) = above
      have inside : m * setting.branchingFactor + front.length + min setting.branchingFactor (level.length -
          m * setting.branchingFactor) ≤ (front ++ level ++ above).length := by
        simp only [length_append]
        omega
      have merged := mergeChildren_eq inside
      rw [window_middle] at merged
      simp only [Option.bind_eq_bind, Option.bind_some, foldlM_cons, merged]
      rfl
  exact steps _ le_rfl

/-- All levels, up to one of a single node. -/
theorem buildLevels_eq : ∀ {fuel h : ℕ}, sizeAt setting objects h ≤ fuel → ∃ top,
    buildLevels setting.branchingFactor fuel ((range (h + 1)).flatMap (levelAt setting objects)) (sizeAt setting objects h)
        ((range (h + 1)).map (sizeAt setting objects)) =
      some ((range (top + 1)).flatMap (levelAt setting objects), (range (top + 1)).map (sizeAt setting objects)) ∧
    sizeAt setting objects top ≤ 1
  | 0, h, few => ⟨h, by rw [buildLevels, if_neg (by omega)], by omega⟩
  | fuel + 1, h, few => by
    by_cases many : sizeAt setting objects h > 1
    · have fewer : sizeAt setting objects (h + 1) = windowCount setting.branchingFactor (sizeAt setting objects h) :=
        levelSize_succ leafNodeSize_pos branchingFactor_pos h
      have less : sizeAt setting objects (h + 1) < sizeAt setting objects h := by
        rw [fewer]
        exact windowCount_lt setting.branches many
      obtain ⟨top, done, one⟩ := @buildLevels_eq fuel (h + 1) (by omega)
      refine ⟨top, ?_, one⟩
      have level : buildLevel setting.branchingFactor _ _ _ = _ :=
        buildLevel_eq ((range h).flatMap (levelAt setting objects)) (levelAt setting objects h)
      have rounded : (sizeAt setting objects h + setting.branchingFactor - 1) / setting.branchingFactor =
          sizeAt setting objects (h + 1) := fewer.symm
      have more (f : ℕ → List RectangleInt2D) (m : ℕ) : (range (m + 1)).flatMap f = (range m).flatMap f ++ f m := by
        rw [range_succ, flatMap_append, flatMap_singleton]
      rw [length_levelAt, ← fewer, ← more] at level
      rw [buildLevels, if_pos many]
      dsimp only
      rw [rounded, level, ← done, more _ (h + 1), @List.range_succ (h + 1), map_append]
      rfl
    · exact ⟨h, by rw [buildLevels, if_neg many], by omega⟩

/-- A block among others is reversed. -/
theorem reverseRange_middle (left block right : List RectangleInt2D) :
    reverseRange (left ++ block.reverse ++ right) left.length block.length = some (left ++ block ++ right) := by
  have size : block.length = block.reverse.length := length_reverse.symm
  rw [reverseRange, if_pos (by simp only [length_append]; omega),
    append_assoc left block.reverse right, take_left, ← drop_drop, drop_left, size, take_left,
    drop_left, reverse_reverse]

/-- Each level of an array of reversed levels is reversed. -/
theorem reverseLevels_eq (level : ℕ → List RectangleInt2D) (m : ℕ) :
    reverseLevels (((range m).map fun i => (level i).length).scanl (· + ·) 0) ((range m).map fun i => (level i).length)
        ((range m).flatMap fun i => (level i).reverse) = some ((range m).flatMap level) := by
  have steps : ∀ j ≤ m, (range j).foldlM (fun searchTree i => do
      let start ← (((range m).map fun i => (level i).length).scanl (· + ·) 0)[i]?
      let size ← ((range m).map fun i => (level i).length)[i]?
      reverseRange searchTree start size) ((range m).flatMap fun i => (level i).reverse) =
        some ((range j).flatMap level ++ (range' j (m - j)).flatMap fun i => (level i).reverse) := by
    intro j
    induction j with
    | zero =>
      intro _
      simp [range_eq_range']
    | succ j ih =>
      intro within
      have next : range' j (m - j) = j :: range' (j + 1) (m - (j + 1)) := by
        rw [← range'_succ]
        congr 1
        omega
      have reversed := reverseRange_middle ((range j).flatMap level) (level j)
        ((range' (j + 1) (m - (j + 1))).flatMap fun i => (level i).reverse)
      rw [length_flatMap_range] at reversed
      rw [range_succ, foldlM_append, ih (Nat.le_of_succ_le within), next, flatMap_cons, ← append_assoc]
      simp only [foldlM_cons, Option.bind_eq_bind, Option.bind_some,
        getElem?_scanl_range _ (Nat.le_of_succ_le within), getElem?_map, getElem?_range within, Option.map_some, reversed]
      simp
  rw [reverseLevels, length_map, length_range, steps m le_rfl]
  simp

/-! ### The tree -/

/-- The tree of some objects, with its root at a height. -/
structure Built (setting : Setting E) (objects : List E) (top : ℕ) (tree : StaticRTree E) : Prop where
  searchTree : tree.searchTree = (range (top + 1)).flatMap fun level => levelAt setting objects (top - level)
  treeLevelStarts : tree.treeLevelStarts =
    ((range (top + 1)).map fun level => sizeAt setting objects (top - level)).scanl (· + ·) 0
  content : tree.objects = objects
  root : sizeAt setting objects top = 1

variable {wrapped : List WrappedInputElement} {input : List E}

/-- The objects are the segments, in the order of the sorted elements. -/
theorem exists_objects (sorted : Sorted setting input wrapped) :
    ∃ objects, (wrapped.mapM fun element => input[element.originalIndex]?) = some objects ∧ objects.Perm input ∧
      objects.map some = wrapped.map fun element => input[element.originalIndex]? := by
  have each : ∀ element ∈ wrapped, ∃ object, input[element.originalIndex]? = some object := by
    intro element mem
    obtain ⟨⟨object, i⟩, found, rfl⟩ := mem_map.1 (sorted.perm.mem_iff.1 mem)
    exact ⟨object, mk_mem_zipIdx_iff_getElem?.1 found⟩
  obtain ⟨objects, done, same⟩ := exists_mapM_eq_some each
  refine ⟨objects, done, ?_, same⟩
  have original : (wrapAll setting input).map (fun element => input[element.originalIndex]?) = input.map some := by
    rw [wrapAll, map_map]
    apply ext_getElem?
    intro i
    rw [getElem?_map, getElem?_map, getElem?_zipIdx]
    cases found : input[i]? with
    | none => rfl
    | some object => simp [found]
  apply (map_perm_map_iff (Option.some_injective E)).1
  rw [same, ← original]
  exact sorted.perm.map _

theorem construct_built (nonempty : input ≠ [])
    (sorted : Sorted setting input wrapped) :
    ∃ objects top tree, construct setting input wrapped = some tree ∧ objects.Perm input ∧
      (objects.map some = wrapped.map fun element => input[element.originalIndex]?) ∧ Built setting objects top tree := by
  obtain ⟨objects, read, perm, same⟩ := exists_objects sorted
  have leaves : buildLeaves setting objects.length objects = levelAt setting objects 0 := buildLeaves_eq le_rfl
  have first : sizeAt setting objects 0 = (levelAt setting objects 0).length := (length_levelAt 0).symm
  obtain ⟨top, levels, one⟩ := @buildLevels_eq E setting objects (sizeAt setting objects 0) 0 le_rfl
  have root : sizeAt setting objects top = 1 := by
    have some : 0 < objects.length := by
      rw [perm.length_eq]
      exact length_pos_iff.2 nonempty
    exact le_antisymm one (windowCount_pos (width_pos leafNodeSize_pos branchingFactor_pos top) some)
  have reversed : ((range (top + 1)).flatMap (levelAt setting objects)).reverse =
      (range (top + 1)).flatMap fun level => (levelAt setting objects (top - level)).reverse := by
    rw [reverse_flatMap, reverse_range, flatMap_map]
    rfl
  have sizes : ((range (top + 1)).map (sizeAt setting objects)).reverse =
      (range (top + 1)).map fun level => (levelAt setting objects (top - level)).length := by
    rw [← map_reverse, reverse_range]
    simp [length_levelAt]
  have finished := reverseLevels_eq (fun level => levelAt setting objects (top - level)) (top + 1)
  rw [← reversed, ← sizes] at finished
  refine ⟨objects, top, ⟨(range (top + 1)).flatMap fun level => levelAt setting objects (top - level),
    ((range (top + 1)).map (sizeAt setting objects)).reverse.scanl (· + ·) 0, objects⟩, ?_, perm, same, ?_⟩
  · have single : (range (0 + 1)).flatMap (levelAt setting objects) = levelAt setting objects 0 := append_nil _
    rw [single] at levels
    rw [construct, read]
    simp only [Option.bind_eq_bind, Option.bind_some, leaves, ← first]
    rw [show [sizeAt setting objects 0] = (range (0 + 1)).map (sizeAt setting objects) from rfl, levels, Option.bind_some,
      finished]
    rfl
  · refine ⟨rfl, ?_, rfl, root⟩
    simp only [sizes, length_levelAt]

/-- **The rectangle of a node contains** those of all objects below it. -/
theorem levelAt_encloses : ∀ {h i : ℕ} {rectangle : RectangleInt2D} {object : E},
    (levelAt setting objects h)[i]? = some rectangle → object ∈ objectsBelow setting objects h i →
      rectangle.Encloses (setting.projectedRectangle object)
  | 0, i, rectangle, object, here, mem => by
    rw [levelAt, getElem?_map] at here
    obtain ⟨j, found, rfl⟩ := Option.map_eq_some_iff.1 here
    obtain ⟨_, rfl⟩ := List.getElem?_eq_some_iff.1 found
    apply RectangleInt2D.mergeAll_encloses
    apply mem_map_of_mem
    rw [objectsBelow, covered] at mem
    simpa using mem
  | h + 1, i, rectangle, object, here, mem => by
    rw [levelAt, levelAbove, getElem?_map] at here
    obtain ⟨j, found, rfl⟩ := Option.map_eq_some_iff.1 here
    obtain ⟨_, rfl⟩ := List.getElem?_eq_some_iff.1 found
    rw [objectsBelow, covered_succ leafNodeSize_pos branchingFactor_pos] at mem
    obtain ⟨child, below, mem⟩ := mem_flatMap.1 mem
    have inside : child < (levelAt setting objects h).length := by
      rw [length_levelAt]
      exact (mem_window_range.1 below).2.2
    have inner := levelAt_encloses (getElem?_eq_getElem inside) mem
    apply (RectangleInt2D.mergeAll_encloses _).trans inner
    rw [mem_window]
    refine ⟨child, ?_, getElem?_eq_getElem inside⟩
    rw [getElem_range, length_levelAt]
    exact below

end Osrm.StaticRTree
