import Osrm.Lib.LabelSetting
import Osrm.Contractor.ContractorGraph

/-!
# The query on a contracted graph

`ch::search` runs two searches, from the sources along the edges flagged forward and from
the targets along the edges flagged backward. Both only ever climb, for an edge of the
contracted graph is listed at the end that was contracted first. `routingStep` settles one
node, looks whether the other search knows it, and then gives up its heap when it is
beyond the best meeting so far, leaves the node when a better way into it is known
(`stallAtNode`), or relaxes its edges.

`dir = true` is the source's `FORWARD_DIRECTION`.
-/

namespace Osrm

open Lib Lib.KeyedQueue

variable {n : ℕ}

structure QueryEdgeData where
  turnId : ℕ
  shortcut : Bool
  weight : ℤ
  duration : ℤ
  distance : ℚ
  forward : Bool
  backward : Bool
  deriving DecidableEq, Repr

def QueryEdgeData.flag (d : QueryEdgeData) : Bool → Bool
  | true => d.forward
  | false => d.backward

/-- The query graph: a static graph, given by the edges of each node. -/
structure QueryGraph (n : ℕ) where
  edges : Fin n → List (DynamicEdge n QueryEdgeData)

def toQueryEdgeData (d : ContractorEdgeData) : QueryEdgeData :=
  ⟨d.id, d.shortcut, d.weight, d.duration, d.distance, d.forward, d.backward⟩

/-- `q` holds the edges of `g`. `toEdges` sorts them by source and target with an unstable sort, so the
edges of a node may come in another order. -/
def QueryGraph.Of (g : ContractorGraph n) (q : QueryGraph n) : Prop :=
  ∀ u, (q.edges u).Perm ((g.edges u).map fun e => ⟨e.target, toQueryEdgeData e.data⟩)

structure HeapData (n : ℕ) where
  parent : Fin n
  deriving DecidableEq, Repr

namespace Ch

variable (q : QueryGraph n)

abbrev QueryHeap (n : ℕ) := KeyedQueue (Fin n) (HeapData n)

def stallAtNode (dir : Bool) (heapNode : Entry (Fin n) (HeapData n)) (heap : QueryHeap n) : Bool :=
  (q.edges heapNode.node).any fun edge =>
    edge.data.flag (!dir) &&
      match heap.find? edge.target with
      | some toHeapNode => decide (add32 toHeapNode.weight edge.data.weight < heapNode.weight)
      | none => false

def relaxOutgoingEdges (dir : Bool) (heapNode : Entry (Fin n) (HeapData n)) (heap : QueryHeap n) :
    QueryHeap n :=
  (q.edges heapNode.node).foldl (fun heap edge =>
    if edge.data.flag dir then
      heap.relax lighter ⟨edge.target, add32 heapNode.weight edge.data.weight, ⟨heapNode.node⟩⟩
    else heap) heap

def forceLoop (forceNodes : List (Fin n)) (heapNode : Entry (Fin n) (HeapData n)) : Bool :=
  forceNodes.any (· = heapNode.node) && decide (heapNode.data.parent = heapNode.node)

/-- The best meeting so far: `middle_node_id` and `upper_bound`. -/
structure Meeting (n : ℕ) where
  middle : Option (Fin n)
  upperBound : ℤ
  deriving DecidableEq, Repr

/-- The loop over the loops at a node where the searches meet but must not stop. -/
def meetLoops (dir : Bool) (node : Fin n) (newWeight : ℤ) (best : Meeting n) : Meeting n :=
  (q.edges node).foldl (fun best edge =>
    if edge.data.flag dir && decide (edge.target = node) then
      let loopWeight := add32 newWeight edge.data.weight
      if 0 ≤ loopWeight ∧ loopWeight < best.upperBound then ⟨some node, loopWeight⟩ else best
    else best) best

/-- The part of `routingStep` that looks at the other heap. -/
def meet (dir : Bool) (forceForward forceReverse : List (Fin n))
    (heapNode : Entry (Fin n) (HeapData n)) (reverseHeap : QueryHeap n) (best : Meeting n) : Meeting n :=
  match reverseHeap.find? heapNode.node with
  | none => best
  | some reverseHeapNode =>
    let newWeight := add32 reverseHeapNode.weight heapNode.weight
    if newWeight < best.upperBound then
      if forceLoop forceForward heapNode || forceLoop forceReverse heapNode || decide (newWeight < 0) then
        meetLoops q dir heapNode.node newWeight best
      else ⟨some heapNode.node, newWeight⟩
    else best

/-- `routingStep<DIRECTION>` on a heap that is not empty. -/
def routingStep (dir : Bool) (minEdgeOffset : ℤ) (forceForward forceReverse : List (Fin n))
    (forwardHeap reverseHeap : QueryHeap n) (best : Meeting n) : QueryHeap n × Meeting n :=
  match forwardHeap.top? with
  | none => (forwardHeap, best)
  | some heapNode =>
    let popped := forwardHeap.dequeue heapNode.node
    let best := meet q dir forceForward forceReverse heapNode reverseHeap best
    if add32 heapNode.weight minEdgeOffset > best.upperBound then (popped.deleteAll, best)
    else if stallAtNode q dir heapNode popped then (popped, best)
    else (relaxOutgoingEdges q dir heapNode popped, best)

/-- The two heaps and the best meeting. -/
structure SearchState (n : ℕ) where
  forward : QueryHeap n
  reverse : QueryHeap n
  best : Meeting n

/-- The first half of the loop's body. -/
def forwardStep (minEdgeOffset : ℤ) (forceForward forceReverse : List (Fin n)) (st : SearchState n) :
    SearchState n :=
  if st.forward.isEmpty then st
  else
    let r := routingStep q true minEdgeOffset forceForward forceReverse st.forward st.reverse st.best
    ⟨r.1, st.reverse, r.2⟩

/-- The second half of the loop's body. -/
def reverseStep (minEdgeOffset : ℤ) (forceForward forceReverse : List (Fin n)) (st : SearchState n) :
    SearchState n :=
  if st.reverse.isEmpty then st
  else
    let r := routingStep q false minEdgeOffset forceReverse forceForward st.reverse st.forward st.best
    ⟨st.forward, r.1, r.2⟩

/-- The loop of `search`. The first argument bounds the iterations. -/
def searchLoop (q : QueryGraph n) (minEdgeOffset : ℤ) (forceForward forceReverse : List (Fin n)) :
    ℕ → SearchState n → SearchState n
  | 0, st => st
  | fuel + 1, st =>
    if st.forward.size + st.reverse.size = 0 then st
    else searchLoop q minEdgeOffset forceForward forceReverse fuel
      (reverseStep q minEdgeOffset forceForward forceReverse
        (forwardStep q minEdgeOffset forceForward forceReverse st))

/-- The loop of `retrievePackedPathFromSingleHeap`; the first argument bounds the iterations. -/
def retrievePackedPath (heap : QueryHeap n) : ℕ → Fin n → List (Fin n)
  | 0, _ => []
  | fuel + 1, current =>
    match heap.find? current with
    | none => []
    | some e =>
      if e.data.parent ≠ current && heap.wasInserted e.data.parent then
        e.data.parent :: retrievePackedPath heap fuel e.data.parent
      else []

def retrievePackedPathFromHeap (forward reverse : QueryHeap n) (middle : Fin n) : List (Fin n) :=
  (retrievePackedPath forward n middle).reverse ++ [middle] ++ retrievePackedPath reverse n middle

/-- The keys of the middle node in both heaps, `GetKey` twice. -/
def keySum (st : SearchState n) (middle : Fin n) : ℤ :=
  add32 (((st.forward.find? middle).map (·.weight)).getD 0) (((st.reverse.find? middle).map (·.weight)).getD 0)

/-- `ch::search`: the weight and the packed leg. Each iteration settles a node in one of the two heaps,
so `2 * n` iterations are enough. -/
def search (forward reverse : QueryHeap n) (forceForward forceReverse : List (Fin n))
    (weightUpperBound : ℤ) : ℤ × List (Fin n) :=
  if forward.isEmpty || reverse.isEmpty then (invalidEdgeWeight, [])
  else
    let minEdgeOffset := min 0 (forward.minKey?.getD 0)
    let st := searchLoop q minEdgeOffset forceForward forceReverse (2 * n) ⟨forward, reverse, ⟨none, weightUpperBound⟩⟩
    match st.best.middle with
    | none => (invalidEdgeWeight, [])
    | some middle =>
      if weightUpperBound ≤ st.best.upperBound then (invalidEdgeWeight, [])
      else if st.best.upperBound ≠ keySum st middle then (st.best.upperBound, [middle, middle])
      else (st.best.upperBound, retrievePackedPathFromHeap st.forward st.reverse middle)

end Ch

end Osrm
