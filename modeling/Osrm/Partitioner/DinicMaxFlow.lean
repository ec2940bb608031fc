import Osrm.Lib.UnitFlow
import Mathlib.Data.Fintype.Fin

/-!
# The partitioner's flow

`DinicMaxFlow` finds a smallest cut between two sets of nodes of a bisection view. Each round computes
the levels of the nodes by a breadth-first search from the border of the sources through the edges
without flow, then sends units along paths found by depth-first searches from the border of the sinks
down the levels. Dead ends are marked by overwriting their level. When no sink is reached, the nodes
with a level are the source side.

Levels are 32-bit numbers and `INVALID_LEVEL` is the last of them, so one more than it is 0. The nodes
of a view are numbered by 32 bits as well, without `SPECIAL_NODEID`. A loop that takes more steps than
it is allowed ends with `none`.
-/

namespace Osrm.Partitioner

/-- `BisectionGraphView`: the targets of the edges of each node, with each edge listed at both ends. -/
structure BisectionGraphView (n : ℕ) where
  edges : Fin n → List (Fin n)
  symmetric : ∀ u v, v ∈ edges u → u ∈ edges v
  small : n < 2 ^ 32

namespace DinicMaxFlow

variable {n : ℕ}

abbrev LevelGraph (n : ℕ) := Fin n → ℕ

abbrev FlowEdges (n : ℕ) := Fin n → Finset (Fin n)

def invalidLevel : ℕ := 2 ^ 32 - 1

/-- The next level, in 32 bits. -/
def nextLevel (level : ℕ) : ℕ := (level + 1) % 2 ^ 32

structure MinCut (n : ℕ) where
  numNodesSource : ℕ
  numEdges : ℕ
  flags : Fin n → Bool

variable (view : BisectionGraphView n) (flow : FlowEdges n) (levels : LevelGraph n)

/-- `makeHasNeighborNotInCheck` -/
def hasNeighborNotIn (set : List (Fin n)) (node : Fin n) : Bool := (view.edges node).any fun target => !set.contains target

/-- The nodes of a set with a neighbour outside. -/
def border (set : List (Fin n)) : List (Fin n) := set.filter (hasNeighborNotIn view set)

/-- The levels before the breadth-first search: 0 for the border of the sources and the sources next to it. -/
def initialLevels (borderSourceNodes sourceNodes : List (Fin n)) : LevelGraph n :=
  borderSourceNodes.foldl (fun levels node =>
    (view.edges node).foldl (fun levels target => if sourceNodes.contains target then Function.update levels target 0 else levels)
      (Function.update levels node 0)) fun _ => invalidLevel

/-- One edge in `relax_node`: the levels and the nodes pushed to the queue. -/
def relaxEdge (node : Fin n) (level : ℕ) (state : LevelGraph n × List (Fin n)) (target : Fin n) :
    LevelGraph n × List (Fin n) :=
  if target ∈ flow node then state
  else if state.1 target > level then (Function.update state.1 target level, state.2 ++ [target])
  else state

def relaxNode (sinkNodes : List (Fin n)) (flow : FlowEdges n) (levels : LevelGraph n) (node : Fin n) :
    LevelGraph n × List (Fin n) :=
  if sinkNodes.contains node then (levels, [])
  else (view.edges node).foldl (relaxEdge flow node (nextLevel (levels node))) (levels, [])

/-- The loop over the queue in `ComputeLevelGraph`. -/
def relaxAll (sinkNodes : List (Fin n)) (flow : FlowEdges n) : ℕ → LevelGraph n → List (Fin n) → Option (LevelGraph n)
  | _, levels, [] => some levels
  | 0, _, _ :: _ => none
  | fuel + 1, levels, node :: levelQueue =>
    let (levels, pushed) := relaxNode view sinkNodes flow levels node
    relaxAll sinkNodes flow fuel levels (levelQueue ++ pushed)

def computeLevelGraph (borderSourceNodes sourceNodes sinkNodes : List (Fin n)) (flow : FlowEdges n) : Option (LevelGraph n) :=
  relaxAll view sinkNodes flow (borderSourceNodes.length + n) (initialLevels view borderSourceNodes sourceNodes) borderSourceNodes

/-- The loop of `GetAugmentingPath`. The path and the stack of edge iterators are kept in sync: a frame is a node of the path
with its edges that are still to be looked at, the last one first. The path is returned from the source on; it is empty where
there is none. -/
def searchPath (flow : FlowEdges n) (sourceNodes : List (Fin n)) : ℕ → LevelGraph n → List (Fin n × List (Fin n)) →
    Option (LevelGraph n × List (Fin n))
  | _, levels, [] => some (levels, [])
  | 0, _, _ :: _ => none
  | fuel + 1, levels, (node, []) :: frames =>
    -- backtrack
    searchPath flow sourceNodes fuel (Function.update levels node invalidLevel) frames
  | fuel + 1, levels, (node, target :: rest) :: frames =>
    if node ∉ flow target ∧ nextLevel (levels target) = levels node then
      if sourceNodes.contains target then some (levels, target :: node :: frames.map Prod.fst)
      else searchPath flow sourceNodes fuel levels ((target, view.edges target) :: (node, rest) :: frames)
    else searchPath flow sourceNodes fuel levels ((node, rest) :: frames)

/-- A bound for the steps of a depth-first search. -/
def searchSteps : ℕ := ∑ node, ((view.edges node).length + 2)

def getAugmentingPath (node : Fin n) (flow : FlowEdges n) (sourceNodes : List (Fin n)) :
    Option (LevelGraph n × List (Fin n)) :=
  searchPath view flow sourceNodes (searchSteps view) levels [(node, view.edges node)]

def augmentOne (source target : Fin n) : FlowEdges n :=
  if source ∈ flow target then Function.update flow target ((flow target).erase source)
  else Function.update flow source (insert target (flow source))

def augmentFlow (flow : FlowEdges n) : List (Fin n) → FlowEdges n
  | [] => flow
  | [_] => flow
  | source :: target :: path => augmentFlow (augmentOne flow source target) (target :: path)

/-- The flow, the levels and `flow_increase`. -/
structure Blocking (n : ℕ) where
  flow : FlowEdges n
  levels : LevelGraph n
  flowIncrease : ℕ

/-- The loop of `augment_all_paths`. -/
def augmentPaths (sourceNodes : List (Fin n)) (sinkNode : Fin n) : ℕ → Blocking n → Option (Blocking n)
  | 0, _ => none
  | fuel + 1, state => do
    let (levels, path) ← getAugmentingPath view state.levels sinkNode state.flow sourceNodes
    if path.isEmpty then return { state with levels := levels }
    else augmentPaths sourceNodes sinkNode fuel ⟨augmentFlow state.flow path, levels, state.flowIncrease + 1⟩

/-- The number of edge ends, a bound for the flow. -/
def numberOfEdges : ℕ := ∑ node, (view.edges node).length

def augmentAllPaths (sourceNodes : List (Fin n)) (state : Blocking n) (sinkNode : Fin n) : Option (Blocking n) :=
  if state.levels sinkNode = invalidLevel then some state
  else augmentPaths view sourceNodes sinkNode (numberOfEdges view + 1) state

def blockingFlow (sourceNodes borderSinkNodes : List (Fin n)) : Option (Blocking n) :=
  borderSinkNodes.foldlM (augmentAllPaths view sourceNodes) ⟨flow, levels, 0⟩

def makeCut (flowValue : ℕ) : MinCut n where
  numNodesSource := (List.finRange n).countP fun node => levels node ≠ invalidLevel
  numEdges := flowValue
  flags node := levels node ≠ invalidLevel

/-- The loop of `DinicMaxFlow::operator()`. -/
def rounds (sourceNodes sinkNodes : List (Fin n)) : ℕ → FlowEdges n → ℕ → Option (MinCut n)
  | 0, _, _ => none
  | fuel + 1, flow, flowValue => do
    let levels ← computeLevelGraph view (border view sourceNodes) sourceNodes sinkNodes flow
    -- it is enough to look at the border
    if (border view sinkNodes).any fun node => levels node ≠ invalidLevel then
      let blocking ← blockingFlow view flow levels sourceNodes (border view sinkNodes)
      rounds sourceNodes sinkNodes fuel blocking.flow (flowValue + blocking.flowIncrease)
    else return makeCut (fun node => if sourceNodes.contains node then 0 else levels node) flowValue

/-- `DinicMaxFlow::operator()` -/
def minCut (sourceNodes sinkNodes : List (Fin n)) : Option (MinCut n) :=
  rounds view sourceNodes sinkNodes (numberOfEdges view + 1) (fun _ => ∅) 0

end DinicMaxFlow

end Osrm.Partitioner
