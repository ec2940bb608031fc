import Osrm.Util.Coordinate
import Osrm.Lib.Failure
import Osrm.Lib.PackedTree

/-!
# The R-tree

`StaticRTree` sorts the segments by Hilbert codes, cuts them into leaves and groups the nodes of
each level under those of the next, up to one root. The levels are appended to one array from the
leaves up; the array is then reversed as a whole and level by level, so that it starts with the root
and each level keeps its order. `SearchInBox` walks down with a queue: on the way it compares
projected rectangles, at the leaves those of the segments themselves.

The projection of latitudes is one monotone function to fixed-point numbers, for tree and query
alike. A read outside an array ends a function with `none`.
-/

namespace Osrm

structure RectangleInt2D where
  minLon : ℤ
  maxLon : ℤ
  minLat : ℤ
  maxLat : ℤ
  deriving DecidableEq, Repr

namespace RectangleInt2D

variable (rectangle other : RectangleInt2D) (a b : RectangleInt2D)

/-- The rectangle of the default constructor. -/
def empty : RectangleInt2D := ⟨2 ^ 31 - 1, -2 ^ 31, 2 ^ 31 - 1, -2 ^ 31⟩

def mergeBoundingBoxes : RectangleInt2D :=
  ⟨min rectangle.minLon other.minLon, max rectangle.maxLon other.maxLon, min rectangle.minLat other.minLat,
    max rectangle.maxLat other.maxLat⟩

def intersects : Bool :=
  !(rectangle.maxLon < other.minLon || rectangle.minLon > other.maxLon || rectangle.maxLat < other.minLat ||
    rectangle.minLat > other.maxLat)

/-- The bounding box of some rectangles. -/
def mergeAll (rectangles : List RectangleInt2D) : RectangleInt2D := rectangles.foldl mergeBoundingBoxes empty

structure Encloses : Prop where
  minLon : rectangle.minLon ≤ other.minLon
  maxLon : other.maxLon ≤ rectangle.maxLon
  minLat : rectangle.minLat ≤ other.minLat
  maxLat : other.maxLat ≤ rectangle.maxLat

theorem Encloses.refl (r : RectangleInt2D) : r.Encloses r := ⟨le_rfl, le_rfl, le_rfl, le_rfl⟩

theorem Encloses.trans {a b c : RectangleInt2D} (outer : a.Encloses b) (inner : b.Encloses c) : a.Encloses c :=
  ⟨outer.minLon.trans inner.minLon, inner.maxLon.trans outer.maxLon, outer.minLat.trans inner.minLat,
    inner.maxLat.trans outer.maxLat⟩

theorem mergeBoundingBoxes_left : (a.mergeBoundingBoxes b).Encloses a :=
  ⟨min_le_left _ _, le_max_left _ _, min_le_left _ _, le_max_left _ _⟩

theorem mergeBoundingBoxes_right : (a.mergeBoundingBoxes b).Encloses b :=
  ⟨min_le_right _ _, le_max_right _ _, min_le_right _ _, le_max_right _ _⟩

theorem foldl_encloses : ∀ (rectangles : List RectangleInt2D) (start : RectangleInt2D),
    (rectangles.foldl mergeBoundingBoxes start).Encloses start ∧
      ∀ r ∈ rectangles, (rectangles.foldl mergeBoundingBoxes start).Encloses r
  | [], start => ⟨.refl start, fun _ mem => absurd mem List.not_mem_nil⟩
  | first :: rest, start => by
    obtain ⟨outer, each⟩ := foldl_encloses rest (start.mergeBoundingBoxes first)
    refine ⟨outer.trans (mergeBoundingBoxes_left _ _), fun r mem => ?_⟩
    rcases List.mem_cons.1 mem with rfl | later
    · exact outer.trans (mergeBoundingBoxes_right _ _)
    · exact each r later

theorem mergeAll_encloses {rectangles : List RectangleInt2D} {r : RectangleInt2D} (mem : r ∈ rectangles) :
    (mergeAll rectangles).Encloses r := (foldl_encloses rectangles empty).2 r mem

end RectangleInt2D

namespace StaticRTree

variable {E : Type}

/-- What a tree is built with: the parameters of the template, the coordinates of the ends of a segment, the projection of
latitudes and the Hilbert code of a segment. -/
structure Setting (E : Type) where
  branchingFactor : ℕ
  branches : 2 ≤ branchingFactor
  leafPageSize : ℕ
  sizeOfEdgeData : ℕ
  /-- `static_assert(LEAF_PAGE_SIZE >= sizeof(EdgeDataT), "page size is too small")` -/
  page : 0 < sizeOfEdgeData ∧ sizeOfEdgeData ≤ leafPageSize
  u : E → ℕ
  v : E → ℕ
  coordinateList : ℕ → Coordinate
  latToY : ℤ → ℤ
  monotone : ∀ ⦃lat lat' : ℤ⦄, lat ≤ lat' → latToY lat ≤ latToY lat'
  hilbertCode : E → ℕ

namespace Setting

variable (setting : Setting E)

def leafNodeSize : ℕ := setting.leafPageSize / setting.sizeOfEdgeData

def fromWGS84 (coordinate : Coordinate) : Coordinate := ⟨coordinate.lon, setting.latToY coordinate.lat⟩

/-- The rectangle of a segment in the projection. -/
def projectedRectangle (object : E) : RectangleInt2D :=
  let projectedU := setting.fromWGS84 (setting.coordinateList (setting.u object))
  let projectedV := setting.fromWGS84 (setting.coordinateList (setting.v object))
  ⟨min RectangleInt2D.empty.minLon (min projectedU.lon projectedV.lon),
    max RectangleInt2D.empty.maxLon (max projectedU.lon projectedV.lon),
    min RectangleInt2D.empty.minLat (min projectedU.lat projectedV.lat),
    max RectangleInt2D.empty.maxLat (max projectedU.lat projectedV.lat)⟩

def boundingRectangle (object : E) : RectangleInt2D :=
  let coordinateU := setting.coordinateList (setting.u object)
  let coordinateV := setting.coordinateList (setting.v object)
  ⟨min coordinateU.lon coordinateV.lon, max coordinateU.lon coordinateV.lon, min coordinateU.lat coordinateV.lat,
    max coordinateU.lat coordinateV.lat⟩

def project (searchRectangle : RectangleInt2D) : RectangleInt2D :=
  ⟨searchRectangle.minLon, searchRectangle.maxLon, setting.latToY searchRectangle.minLat, setting.latToY searchRectangle.maxLat⟩

end Setting

/-! ### Construction -/

structure WrappedInputElement where
  hilbertValue : ℕ
  originalIndex : ℕ
  deriving DecidableEq, Repr

/-- `input_wrapper_vector` before sorting. -/
def wrapAll (setting : Setting E) (input : List E) : List WrappedInputElement :=
  input.zipIdx.map fun (element, i) => ⟨setting.hilbertCode element, i⟩

/-- `tbb::parallel_sort` may leave elements of one Hilbert code in any order. -/
structure Sorted (setting : Setting E) (input : List E) (wrapped : List WrappedInputElement) : Prop where
  perm : wrapped.Perm (wrapAll setting input)
  sorted : wrapped.Pairwise fun a b => a.hilbertValue ≤ b.hilbertValue

/-- The loop that makes a leaf of the next `LEAF_NODE_SIZE` objects. Its first argument is their number. -/
def buildLeaves (setting : Setting E) : ℕ → List E → List RectangleInt2D
  | 0, _ => []
  | _ + 1, [] => []
  | count + 1, object :: objects =>
    .mergeAll (((object :: objects).take setting.leafNodeSize).map setting.projectedRectangle) ::
      buildLeaves setting count ((object :: objects).drop setting.leafNodeSize)

/-- The bounding box of the nodes from a place in the array up to another. -/
def mergeChildren (searchTree : List RectangleInt2D) (firstChildIndex lastChildIndex : ℕ) : Option RectangleInt2D :=
  (List.range' firstChildIndex (lastChildIndex - firstChildIndex)).foldlM
    (fun rectangle child => searchTree[child]?.map rectangle.mergeBoundingBoxes) .empty

/-- The loop over the nodes of a level, which are appended to the array. -/
def buildLevel (branchingFactor : ℕ) (searchTree : List RectangleInt2D) (nodesInPreviousLevel nodesInCurrentLevel : ℕ) :
    Option (List RectangleInt2D) :=
  let previousLevelStartPos := searchTree.length - nodesInPreviousLevel
  (List.range nodesInCurrentLevel).foldlM (fun searchTree i =>
    let firstChildIndex := i * branchingFactor + previousLevelStartPos
    let lastChildIndex := firstChildIndex + min branchingFactor (nodesInPreviousLevel - i * branchingFactor)
    (mergeChildren searchTree firstChildIndex lastChildIndex).map fun parentNode => searchTree ++ [parentNode]) searchTree

/-- The loop over the levels: the array and the sizes of the levels. Its first argument bounds their number. -/
def buildLevels (branchingFactor : ℕ) : ℕ → List RectangleInt2D → ℕ → List ℕ → Option (List RectangleInt2D × List ℕ)
  | 0, searchTree, nodesInPreviousLevel, treeLevelSizes =>
    if nodesInPreviousLevel > 1 then none else some (searchTree, treeLevelSizes)
  | fuel + 1, searchTree, nodesInPreviousLevel, treeLevelSizes =>
    if nodesInPreviousLevel > 1 then
      -- the quotient, rounded up
      let nodesInCurrentLevel := (nodesInPreviousLevel + branchingFactor - 1) / branchingFactor
      (buildLevel branchingFactor searchTree nodesInPreviousLevel nodesInCurrentLevel).bind fun searchTree =>
        buildLevels branchingFactor fuel searchTree nodesInCurrentLevel (treeLevelSizes ++ [nodesInCurrentLevel])
    else some (searchTree, treeLevelSizes)

/-- `std::reverse` of a stretch of the array. -/
def reverseRange (searchTree : List RectangleInt2D) (start size : ℕ) : Option (List RectangleInt2D) :=
  if start + size ≤ searchTree.length then
    some (searchTree.take start ++ ((searchTree.drop start).take size).reverse ++ searchTree.drop (start + size))
  else none

/-- The loop that reverses each level. -/
def reverseLevels (treeLevelStarts treeLevelSizes : List ℕ) (searchTree : List RectangleInt2D) : Option (List RectangleInt2D) :=
  (List.range treeLevelSizes.length).foldlM (fun searchTree i => do
    let start ← treeLevelStarts[i]?
    let size ← treeLevelSizes[i]?
    reverseRange searchTree start size) searchTree

end StaticRTree

structure StaticRTree (E : Type) where
  searchTree : List RectangleInt2D
  treeLevelStarts : List ℕ
  objects : List E

namespace StaticRTree

variable {E : Type}

/-- The constructor, for the sorted elements. -/
def construct (setting : Setting E) (input : List E) (wrapped : List WrappedInputElement) : Option (StaticRTree E) := do
  let objects ← wrapped.mapM fun element => input[element.originalIndex]?
  let leaves := buildLeaves setting objects.length objects
  let (searchTree, treeLevelSizes) ← buildLevels setting.branchingFactor leaves.length leaves leaves.length [leaves.length]
  let treeLevelSizes := treeLevelSizes.reverse
  let treeLevelStarts := treeLevelSizes.scanl (· + ·) 0
  let searchTree ← reverseLevels treeLevelStarts treeLevelSizes searchTree.reverse
  return ⟨searchTree, treeLevelStarts, objects⟩

/-! ### Navigation and search -/

structure TreeIndex where
  level : ℕ
  offset : ℕ
  deriving DecidableEq, Repr

/-- `TreeIndex()` -/
def TreeIndex.root : TreeIndex := ⟨0, 0⟩

variable (setting : Setting E) (tree : StaticRTree E)

def isLeaf (treeIndex : TreeIndex) : Bool := treeIndex.level = tree.treeLevelStarts.length - 2

def childIndexes (parent : TreeIndex) : Option (List ℕ) :=
  if tree.isLeaf parent then
    let firstChildIndex := parent.offset * setting.leafNodeSize
    let endChildIndex := min (firstChildIndex + setting.leafNodeSize) tree.objects.length
    some (List.range' firstChildIndex (endChildIndex - firstChildIndex))
  else do
    let start ← tree.treeLevelStarts[parent.level + 1]?
    let next ← tree.treeLevelStarts[parent.level + 2]?
    let firstChildIndex := start + parent.offset * setting.branchingFactor
    -- `next - start` is `GetLevelSize(parent.level + 1)`
    let endChildIndex := min (firstChildIndex + setting.branchingFactor) (start + (next - start))
    return List.range' firstChildIndex (endChildIndex - firstChildIndex)

/-- The body of the loop of `SearchInBox`: the results at a node and the nodes pushed to the queue. -/
def visit (searchRectangle : RectangleInt2D) (node : TreeIndex) : Option (List E × List TreeIndex) := do
  let children ← tree.childIndexes setting node
  if tree.isLeaf node then
    let results ← children.mapM fun child => do
      let object ← tree.objects[child]?
      return if (setting.boundingRectangle object).intersects searchRectangle then [object] else []
    return (results.flatten, [])
  else
    let start ← tree.treeLevelStarts[node.level + 1]?
    let pushed ← children.mapM fun child => do
      let childRectangle ← tree.searchTree[child]?
      return if childRectangle.intersects (setting.project searchRectangle) then [⟨node.level + 1, child - start⟩] else []
    return ([], pushed.flatten)

def searchInBox (searchRectangle : RectangleInt2D) : Option (List E) :=
  Lib.explore (tree.visit setting searchRectangle) tree.searchTree.length [.root] []

end StaticRTree

end Osrm
