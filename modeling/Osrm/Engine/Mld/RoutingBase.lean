import Osrm.Engine.PhantomNode
import Osrm.Partitioner.CellStorage

/-!
# The query on a multi-level partition

`mld::search` runs two searches towards each other. A node is expanded at its own query
level, the highest level at which its cell contains neither source nor target: along the
row (or column) of its cell, unless it was itself reached that way, and along the edges
that leave the cell. `search` then unpacks each step along a row by a search of the cell on
the level below, restricted to that cell; the recursion ends on level `0`, where there are
only edges. The arguments that choose between the two kinds of search are `Args`.

`dir = true` is the source's `FORWARD_DIRECTION`.
-/

namespace Osrm.Mld

open Lib Lib.KeyedQueue CellStorage

variable {n : ℕ} (P : MultiLevelPartition n)

structure HeapData (n : ℕ) where
  parent : Fin n
  fromCliqueArc : Bool
  deriving DecidableEq, Repr

abbrev QueryHeap (n : ℕ) := KeyedQueue (Fin n) (HeapData n)

/-- The parts of `DataFacade<MLD>` that the search reads. The weight of an edge is the weight of the node it leaves
plus the penalty of the turn. -/
structure Facade (n : ℕ) where
  graph : MultiLevelGraph n
  partition : MultiLevelPartition n
  metric : CellMetric n
  excludeNode : Fin n → Bool
  nodeWeight : Fin n → ℤ
  weightPenalty : ℕ → ℤ

/-- An edge by its position in the edge array: the node it is listed at and its place among the node's edges. -/
structure EdgeID (n : ℕ) where
  node : Fin n
  index : ℕ
  deriving DecidableEq, Repr

/-- `FindEdge`; `none` is `SPECIAL_EDGEID`. -/
def findEdge (F : Facade n) (source target : Fin n) : Option (EdgeID n) :=
  ((F.graph.edges source).findIdx? (·.target = target)).map (⟨source, ·⟩)

def invalidLevelId : ℕ := 255

/-- The query level of a node for one segment of the source and one of the target. -/
def segmentLevel (node : Fin n) (source target : SegmentID (Fin n)) : ℕ :=
  if source.enabled && target.enabled then P.queryLevel source.id target.id node else invalidLevelId

/-- `getNodeQueryLevel` for a source and a target phantom -/
def phantomLevel (node : Fin n) (source target : PhantomNode (Fin n)) : ℕ :=
  min (min (segmentLevel P node source.forwardSegmentId target.forwardSegmentId)
      (segmentLevel P node source.forwardSegmentId target.reverseSegmentId))
    (min (segmentLevel P node source.reverseSegmentId target.forwardSegmentId)
      (segmentLevel P node source.reverseSegmentId target.reverseSegmentId))

/-- `getNodeQueryLevel` for `PhantomEndpointCandidates` -/
def candidatesLevel (node : Fin n) (candidates : PhantomEndpointCandidates (Fin n)) : ℕ :=
  candidates.sourcePhantoms.foldl (fun level₁ source =>
    min level₁ (candidates.targetPhantoms.foldl (fun level₂ target => min level₂ (phantomLevel P node source target)) level₁))
    invalidLevelId

/-- The last arguments of `search`: the endpoints of the route, or a level and the parent cell to stay in. -/
inductive Args (n : ℕ)
  | candidates (endpoints : PhantomEndpointCandidates (Fin n))
  | restricted (level parent : ℕ)

def getNodeQueryLevel (node : Fin n) : Args n → ℕ
  | .candidates endpoints => candidatesLevel P node endpoints
  | .restricted level _ => level

def checkParentCellRestriction (cell : ℕ) : Args n → Bool
  | .candidates _ => true
  | .restricted _ parent => cell = parent

variable (F : Facade n)

/-- The shortcuts of a node, each with its other end: a row of its cell forward, a column backward. -/
def shortcuts (dir : Bool) (level : ℕ) (node : Fin n) : List (Fin n × CellValue) :=
  let id := F.partition.cell level node
  if dir then (destinationNodes F.partition F.graph level id).zip (outRange F.partition F.graph F.metric level id node)
  else (sourceNodes F.partition F.graph level id).zip (inRange F.partition F.graph F.metric level id node)

/-- The node an edge of `node` leaves: the edge leads to, or in the other direction comes from, its target. -/
def leftNode (dir : Bool) (node : Fin n) (edge : DynamicEdge n EdgeBasedGraphEdgeData) : Fin n :=
  if dir then node else edge.target

def relaxOutgoingEdges (dir : Bool) (args : Args n) (heapNode : Label (Fin n) (HeapData n)) (heap : QueryHeap n) :
    QueryHeap n :=
  let level := getNodeQueryLevel F.partition heapNode.node args
  let heap :=
    if 1 ≤ level && !heapNode.data.fromCliqueArc then
      (shortcuts F dir level heapNode.node).foldl (fun heap shortcut =>
        if shortcut.2.weight ≠ invalidEdgeWeight && heapNode.node ≠ shortcut.1 then
          heap.relax lighter ⟨shortcut.1, add32 heapNode.weight shortcut.2.weight, ⟨heapNode.node, true⟩⟩
        else heap) heap
    else heap
  (F.graph.borderEdgeRange F.partition level heapNode.node).foldl (fun heap edge =>
    if edge.data.flag dir then
      if !F.excludeNode edge.target && checkParentCellRestriction (F.partition.cell (level + 1) edge.target) args then
        heap.relax lighter ⟨edge.target, add32 (add32 heapNode.weight (F.nodeWeight (leftNode dir heapNode.node edge)))
          (F.weightPenalty edge.data.turnId), ⟨heapNode.node, false⟩⟩
      else heap
    else heap) heap

def forceLoop (forceNodes : List (Fin n)) (heapNode : Entry (Fin n) (HeapData n)) : Bool :=
  forceNodes.any (· = heapNode.node) && decide (heapNode.data.parent = heapNode.node)

/-- `middle_node` and `path_upper_bound` -/
structure Meeting (n : ℕ) where
  middle : Option (Fin n)
  upperBound : ℤ
  deriving DecidableEq, Repr

/-- The part of `routingStep` that looks at the other heap. -/
def meet (forceForward forceReverse : List (Fin n)) (heapNode : Entry (Fin n) (HeapData n)) (reverseHeap : QueryHeap n)
    (best : Meeting n) : Meeting n :=
  match reverseHeap.find? heapNode.node with
  | none => best
  | some reverseHeapNode =>
    let pathWeight := add32 heapNode.weight reverseHeapNode.weight
    if !forceLoop forceForward heapNode && !forceLoop forceReverse heapNode && decide (0 ≤ pathWeight) &&
        decide (pathWeight < best.upperBound) then
      ⟨some heapNode.node, pathWeight⟩
    else best

def routingStep (dir : Bool) (forceForward forceReverse : List (Fin n)) (args : Args n)
    (forwardHeap reverseHeap : QueryHeap n) (best : Meeting n) : QueryHeap n × Meeting n :=
  match forwardHeap.top? with
  | none => (forwardHeap, best)
  | some heapNode =>
    (relaxOutgoingEdges F dir args heapNode.toLabel (forwardHeap.dequeue heapNode.node),
      meet forceForward forceReverse heapNode reverseHeap best)

/-- The variables of the loop of `search`. -/
structure SearchState (n : ℕ) where
  forward : QueryHeap n
  reverse : QueryHeap n
  best : Meeting n
  forwardHeapMin : ℤ
  reverseHeapMin : ℤ

/-- The first half of the loop's body. -/
def forwardStep (forceForward forceReverse : List (Fin n)) (args : Args n) (st : SearchState n) : SearchState n :=
  if st.forward.isEmpty then st
  else
    let r := routingStep F true forceForward forceReverse args st.forward st.reverse st.best
    { st with forward := r.1, best := r.2, forwardHeapMin := r.1.minKey?.getD st.forwardHeapMin }

/-- The second half of the loop's body. -/
def reverseStep (forceForward forceReverse : List (Fin n)) (args : Args n) (st : SearchState n) : SearchState n :=
  if st.reverse.isEmpty then st
  else
    let r := routingStep F false forceReverse forceForward args st.reverse st.forward st.best
    { st with reverse := r.1, best := r.2, reverseHeapMin := r.1.minKey?.getD st.reverseHeapMin }

/-- The loop of `search`; the first argument bounds the iterations. -/
def searchLoop (forceForward forceReverse : List (Fin n)) (args : Args n) : ℕ → SearchState n → SearchState n
  | 0, st => st
  | fuel + 1, st =>
    if st.forward.size + st.reverse.size > 0 && add32 st.forwardHeapMin st.reverseHeapMin < st.best.upperBound then
      searchLoop forceForward forceReverse args fuel
        (reverseStep F forceForward forceReverse args (forwardStep F forceForward forceReverse args st))
    else st

/-- `PackedEdge`: from, to, and whether it is a clique arc. -/
abbrev PackedEdge (n : ℕ) := Fin n × Fin n × Bool

/-- `retrievePackedPathFromSingleHeap<DIRECTION>`; the first argument bounds the iterations. -/
def retrievePackedPath (dir : Bool) (heap : QueryHeap n) : ℕ → Fin n → List (PackedEdge n)
  | 0, _ => []
  | fuel + 1, current =>
    match heap.find? current with
    | none => []
    | some e =>
      if current = e.data.parent then []
      else (if dir then (e.data.parent, current, e.data.fromCliqueArc) else (current, e.data.parent, e.data.fromCliqueArc)) ::
        retrievePackedPath dir heap fuel e.data.parent

def retrievePackedPathFromHeap (forward reverse : QueryHeap n) (middle : Fin n) : List (PackedEdge n) :=
  (retrievePackedPath true forward n middle).reverse ++ retrievePackedPath false reverse n middle

structure UnpackedPath (n : ℕ) where
  weight : ℤ
  nodes : List (Fin n)
  edges : List (Option (EdgeID n))
  deriving DecidableEq, Repr

/-- What `search` returns when it finds no path. -/
def noPath : UnpackedPath n := ⟨invalidEdgeWeight, [], []⟩

/-- The labels of given nodes and keys, each its own parent. -/
def rootLabels (roots : List (Fin n × ℤ)) : List (Label (Fin n) (HeapData n)) := roots.map fun r => ⟨r.1, r.2, ⟨r.1, false⟩⟩

/-- A heap with one label for each of `roots`. -/
def rootHeap (roots : List (Fin n × ℤ)) : QueryHeap n := empty.insertAll (rootLabels roots)

/-- One iteration of the loop that unpacks the packed path; `subpath` is the search of a cell. -/
def unpackEdge (args : Args n) (subpath : Fin n → Fin n → Args n → UnpackedPath n)
    (unpacked : List (Fin n) × List (Option (EdgeID n))) (packedEdge : PackedEdge n) :
    List (Fin n) × List (Option (EdgeID n)) :=
  let source := packedEdge.1
  let target := packedEdge.2.1
  if packedEdge.2.2 then
    let level := getNodeQueryLevel F.partition source args
    let sub := subpath source target (.restricted (level - 1) (F.partition.cell level source))
    (unpacked.1 ++ sub.nodes.tail, unpacked.2 ++ sub.edges)
  else (unpacked.1 ++ [target], unpacked.2 ++ [findEdge F source target])

/-- `mld::search`. The first argument bounds the depth of the recursion, which goes down one level each time;
each iteration of the loop settles a node in one of the heaps, so `2 * n` iterations are enough. -/
def search : ℕ → QueryHeap n → QueryHeap n → List (Fin n) → List (Fin n) → ℤ → Args n → UnpackedPath n
  | 0, _, _, _, _, _, _ => noPath
  | depth + 1, forward, reverse, forceForward, forceReverse, weightUpperBound, args =>
    if forward.isEmpty || reverse.isEmpty then noPath
    else
      let st := searchLoop F forceForward forceReverse args (2 * n)
        ⟨forward, reverse, ⟨none, weightUpperBound⟩, forward.minKey?.getD 0, reverse.minKey?.getD 0⟩
      match st.best.middle with
      | none => noPath
      | some middle =>
        if weightUpperBound ≤ st.best.upperBound then noPath
        else
          let packedPath := retrievePackedPathFromHeap st.forward st.reverse middle
          let sourceNode := (packedPath.head?.map (·.1)).getD middle
          let unpacked := packedPath.foldl (unpackEdge F args fun source target args =>
            search depth (rootHeap [(source, 0)]) (rootHeap [(target, 0)]) forceForward forceReverse invalidEdgeWeight args)
            ([sourceNode], [])
          ⟨st.best.upperBound, unpacked.1, unpacked.2⟩

end Osrm.Mld

namespace Osrm

variable {n : ℕ}

/-- The nodes and keys that `insertSourceInForwardHeap` inserts: the forward segment, then the reverse one. -/
def PhantomNode.sourceRoots (p : PhantomNode (Fin n)) : List (Fin n × ℤ) :=
  ([true, false].filter p.isValidSource).map fun dir => ((p.segmentId dir).id, 0 - p.weightPlusOffset dir)

/-- The nodes and keys that `insertTargetInReverseHeap` inserts: the forward segment, then the reverse one. -/
def PhantomNode.targetRoots (p : PhantomNode (Fin n)) : List (Fin n × ℤ) :=
  ([true, false].filter p.isValidTarget).map fun dir => ((p.segmentId dir).id, p.weightPlusOffset dir)

/-- The forward heap of `insertNodesInHeaps` -/
def PhantomEndpointCandidates.sourceRoots (candidates : PhantomEndpointCandidates (Fin n)) : List (Fin n × ℤ) :=
  candidates.sourcePhantoms.flatMap PhantomNode.sourceRoots

/-- The reverse heap of `insertNodesInHeaps` -/
def PhantomEndpointCandidates.targetRoots (candidates : PhantomEndpointCandidates (Fin n)) : List (Fin n × ℤ) :=
  candidates.targetPhantoms.flatMap PhantomNode.targetRoots

end Osrm
