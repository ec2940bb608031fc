import Osrm.Engine.GeospatialQuery

/-!
# Annotating a path

`annotatePath` lists the segments of a path, from the segment of the source up to the one
before the target's, with the weights that live traffic leaves them. The first node starts
at the source's segment, the last one ends at the target's, and a path inside one node has
both. The weight of a turn goes to the segment before it, and the part of the first segment
that lies before the source is taken off at the end.
-/

namespace Osrm

open List

open Extractor Live

/-- What `annotatePath` asks of the data facade. `E` is the type of edge ids. -/
structure PathFacade (V E : Type*) extends GeometryFacade V where
  turnId : E → ℕ
  weightPenalty : ℕ → ℤ
  durationPenalty : ℕ → ℤ

structure PathData (V : Type*) where
  fromEdgeBasedNode : V
  turnViaNode : ℕ
  weightUntilTurn : ℤ
  weightOfTurn : ℤ
  durationUntilTurn : ℤ
  durationOfTurn : ℤ
  datasourceId : ℕ
  turnEdge : Option ℕ
deriving DecidableEq, Repr

variable {V E : Type*}

namespace SnappedPhantom

variable (p : SnappedPhantom V)

/-- The direction in which a node of the phantom is travelled. -/
def traversed [DecidableEq V] (p : SnappedPhantom V) (node : V) : Bool := p.forwardSegmentId.id = node

/-- The number of the phantom's segment in a direction. -/
def position (dir : Bool) (size : ℕ) : ℕ :=
  if dir then p.fwdSegmentPosition else size - p.fwdSegmentPosition - 1

def weight (dir : Bool) : ℤ := if dir then p.forwardWeight else p.reverseWeight

def duration (dir : Bool) : ℤ := if dir then p.forwardDuration else p.reverseDuration

end SnappedPhantom

namespace PathFacade

variable (facade : PathFacade V E) (store : LiveDataStore)

/-- The weights of a node's segments with live traffic. -/
def nodeWeights (node : V) : List ℕ :=
  facade.liveWeights store (facade.getGeometryIndex node).id (facade.getGeometryIndex node).forward

/-- The entry of a segment of a node; `via` is the number of the node at its end. -/
def segment (node : V) (index via : ℕ) : PathData V :=
  let geometry := facade.getGeometryIndex node
  let segments := facade.segmentData geometry.id
  { fromEdgeBasedNode := node
    turnViaNode := (segments.geometry geometry.forward).getD via 0
    weightUntilTurn := ((facade.nodeWeights store node).getD index 0 : ℕ)
    weightOfTurn := 0
    durationUntilTurn := ((segments.durations geometry.forward).getD index 0 : ℕ)
    durationOfTurn := 0
    datasourceId := (segments.datasources geometry.forward).getD index 0
    turnEdge := none }

def addTurn (turn : ℕ) : List (PathData V) → List (PathData V)
  | [] => []
  | [p] => [{ p with
      durationUntilTurn := p.durationUntilTurn + facade.durationPenalty turn
      durationOfTurn := facade.durationPenalty turn
      weightUntilTurn := p.weightUntilTurn + facade.weightPenalty turn
      weightOfTurn := facade.weightPenalty turn
      turnEdge := some turn }]
  | p :: q :: rest => p :: addTurn turn (q :: rest)

/-- One iteration of the loop over the nodes before the last: its segments, then the turn. -/
def annotateNode (source : SnappedPhantom V) (startReverse : Bool) (path : List (PathData V)) (step : V × E) : List (PathData V) :=
  let size := (facade.nodeWeights store step.1).length
  let start := if path.isEmpty then source.position (!startReverse) size else 0
  let listed := (range' start (size - start)).map fun i => facade.segment store step.1 i (i + 1)
  facade.addTurn (facade.turnId step.2) (path ++ listed)

/-- The segments of the last node, from `start` to `stop`, upward or downward. -/
def lastSegments (node : V) (start stop : ℕ) : List (PathData V) :=
  if start < stop then (range' start (stop - start)).map fun i => facade.segment store node i (i + 1)
  else (range (start - stop)).map fun k => facade.segment store node (start - k) (start - k - 1)

/-- Take the part of the first segment before the source off the first entry. -/
def cutSource (weight duration : ℤ) : List (PathData V) → List (PathData V)
  | [] => []
  | p :: rest => { p with
      weightUntilTurn := max (p.weightUntilTurn - weight) 0
      durationUntilTurn := max (p.durationUntilTurn - duration) 0 } :: rest

/-- `annotatePath`, with the store as the aggregation has left it. -/
def annotatePath [DecidableEq V] (source target : SnappedPhantom V) (nodes : List V) (edges : List E) : List (PathData V) :=
  match nodes.head?, nodes.getLast? with
  | some sourceNode, some targetNode =>
    let startReverse := !source.traversed sourceNode
    let targetReverse := !target.traversed targetNode
    let path := (nodes.zip edges).foldl (facade.annotateNode store source startReverse) []
    let isLocalPath := (facade.getGeometryIndex sourceNode).id = (facade.getGeometryIndex targetNode).id ∧ path.isEmpty
    let size := (facade.nodeWeights store targetNode).length
    let start := if isLocalPath then source.position (!targetReverse) size else 0
    let stop := target.position (!targetReverse) size
    cutSource (source.weight (!startReverse)) (source.duration (!startReverse))
      (path ++ facade.lastSegments store targetNode start stop)
  | _, _ => []

end PathFacade

/-- The weight of an annotated path up to the target's segment. -/
def pathWeight (path : List (PathData V)) : ℤ := (path.map (·.weightUntilTurn)).sum

section Totals

variable (facade : PathFacade V E) (store : LiveDataStore) (node : V) {weight : ℤ} {path : List (PathData V)}
  (via : ℕ → ℕ)

theorem pathWeight_append (p q : List (PathData V)) : pathWeight (p ++ q) = pathWeight p + pathWeight q := by
  rw [pathWeight, map_append, sum_append]
  rfl

/-- The entries of a stretch of segments carry its weights. -/
theorem pathWeight_segments {start count : ℕ}
    (inside : start + count ≤ (facade.nodeWeights store node).length) :
    pathWeight ((range' start count).map fun i => facade.segment store node i (via i)) =
      (((facade.nodeWeights store node).drop start).take count).sum := by
  induction count generalizing start with
  | zero => rfl
  | succ count ih =>
    have here : start < (facade.nodeWeights store node).length := by omega
    have rest := @ih (start + 1) (by omega)
    rw [range'_succ, map_cons, pathWeight, map_cons, sum_cons, drop_eq_getElem_cons here,
      take_succ_cons, sum_cons, Nat.cast_add, ← rest]
    have first : (facade.segment store node start (via start)).weightUntilTurn =
        ((facade.nodeWeights store node)[start] : ℕ) := by
      show ((((facade.nodeWeights store node).getD start 0 : ℕ)) : ℤ) = _
      rw [getD_eq_getElem?_getD, getElem?_eq_getElem here]
      rfl
    rw [first]
    rfl

/-- Walking downward passes the segments in reverse order. -/
theorem pathWeight_downward {start stop : ℕ} (down : stop ≤ start)
    (inside : start < (facade.nodeWeights store node).length) :
    pathWeight ((range (start - stop)).map fun k => facade.segment store node (start - k) (start - k - 1)) =
      (((facade.nodeWeights store node).drop (stop + 1)).take (start - stop)).sum := by
  have reversed : (range (start - stop)).map (fun k => facade.segment store node (start - k) (start - k - 1)) =
      ((range' (stop + 1) (start - stop)).map fun i => facade.segment store node i (i - 1)).reverse := by
    rw [← map_reverse, reverse_range', map_map]
    apply map_congr_left
    intro k mem
    have same : stop + 1 + (start - stop) - 1 - k = start - k := by omega
    simp only [Function.comp, same]
  rw [reversed, pathWeight, map_reverse, sum_reverse]
  exact pathWeight_segments facade store node (· - 1) (by omega)

/-- A turn adds its weight. -/
theorem pathWeight_addTurn (turn : ℕ) (nonempty : path ≠ []) :
    pathWeight (facade.addTurn turn path) = pathWeight path + facade.weightPenalty turn := by
  induction path with
  | nil => exact absurd rfl nonempty
  | cons p rest ih =>
    cases rest with
    | nil =>
      simp only [PathFacade.addTurn, pathWeight, map_cons, sum_cons]
      omega
    | cons q rest =>
      have tail := ih (cons_ne_nil q rest)
      unfold pathWeight at tail ⊢
      rw [PathFacade.addTurn, map_cons, sum_cons, map_cons (l := q :: rest), sum_cons]
      omega

/-- The path has a first entry, of at least the given weight. -/
def StartsWith (weight : ℤ) (path : List (PathData V)) : Prop := ∃ p rest, path = p :: rest ∧ weight ≤ p.weightUntilTurn

theorem StartsWith.ne_nil (h : StartsWith weight path) : path ≠ [] := by
  obtain ⟨p, rest, rfl, _⟩ := h
  exact cons_ne_nil p rest

theorem StartsWith.append (h : StartsWith weight path) (more : List (PathData V)) :
    StartsWith weight (path ++ more) := by
  obtain ⟨p, rest, rfl, le⟩ := h
  exact ⟨p, rest ++ more, rfl, le⟩

theorem StartsWith.addTurn {turn : ℕ} (h : StartsWith weight path)
    (nonneg : 0 ≤ facade.weightPenalty turn) : StartsWith weight (facade.addTurn turn path) := by
  obtain ⟨p, rest, rfl, le⟩ := h
  cases rest with
  | nil =>
    refine ⟨_, [], rfl, ?_⟩
    show weight ≤ p.weightUntilTurn + facade.weightPenalty turn
    omega
  | cons q rest => exact ⟨p, _, rfl, le⟩

/-- Taking off no more than the first entry has. -/
theorem pathWeight_cutSource {duration : ℤ} (h : StartsWith weight path) :
    pathWeight (PathFacade.cutSource weight duration path) = pathWeight path - weight := by
  obtain ⟨p, rest, rfl, le⟩ := h
  simp only [PathFacade.cutSource, pathWeight, map_cons, sum_cons]
  omega

theorem startsWith_segments (start count : ℕ) (some : 0 < count)
    (le : weight ≤ ((facade.nodeWeights store node).getD start 0 : ℕ)) :
    StartsWith weight ((range' start count).map fun i => facade.segment store node i (via i)) := by
  obtain ⟨k, rfl⟩ := Nat.exists_eq_add_of_lt some
  exact ⟨_, _, rfl, le⟩

variable (source : SnappedPhantom V) (startReverse : Bool)

/-- **A later node** adds all of its segments and its turn. -/
theorem annotateNode_later (started : StartsWith weight path) (step : V × E)
    (nonneg : 0 ≤ facade.weightPenalty (facade.turnId step.2)) :
    StartsWith weight (facade.annotateNode store source startReverse path step) ∧
      pathWeight (facade.annotateNode store source startReverse path step) =
        pathWeight path + (facade.nodeWeights store step.1).sum + facade.weightPenalty (facade.turnId step.2) := by
  have filled : path.isEmpty = false := by
    obtain ⟨p, rest, rfl, _⟩ := started
    rfl
  have grown := started.append ((range' 0 ((facade.nodeWeights store step.1).length - 0)).map
    fun i => facade.segment store step.1 i (i + 1))
  unfold PathFacade.annotateNode
  simp only [filled, Bool.false_eq_true, if_false]
  refine ⟨grown.addTurn facade nonneg, ?_⟩
  rw [pathWeight_addTurn facade _ grown.ne_nil, pathWeight_append, pathWeight_segments facade store step.1 (· + 1) (by omega),
    Nat.sub_zero, drop_zero, take_length]

/-- **The first node** starts at the source's segment. -/
theorem annotateNode_first (step : V × E) (start : ℕ) (nonneg : 0 ≤ facade.weightPenalty (facade.turnId step.2))
    (position : source.position (!startReverse) (facade.nodeWeights store step.1).length = start)
    (inside : start < (facade.nodeWeights store step.1).length)
    (le : weight ≤ ((facade.nodeWeights store step.1).getD start 0 : ℕ)) :
    StartsWith weight (facade.annotateNode store source startReverse [] step) ∧
      pathWeight (facade.annotateNode store source startReverse [] step) =
        ((facade.nodeWeights store step.1).drop start).sum + facade.weightPenalty (facade.turnId step.2) := by
  have listed := startsWith_segments facade store step.1 (· + 1) start ((facade.nodeWeights store step.1).length - start) (by omega) le
  unfold PathFacade.annotateNode
  simp only [isEmpty_nil, if_true, nil_append, position]
  refine ⟨listed.addTurn facade nonneg, ?_⟩
  rw [pathWeight_addTurn facade _ listed.ne_nil, pathWeight_segments facade store step.1 (· + 1) (by omega),
    take_of_length_le (by rw [length_drop])]

/-- The weight of the nodes and turns of a list of steps. -/
def stepsWeight (steps : List (V × E)) : ℤ :=
  (steps.map fun step => ((facade.nodeWeights store step.1).sum : ℤ) + facade.weightPenalty (facade.turnId step.2)).sum

/-- **The loop over the later nodes.** -/
theorem foldl_annotateNode (steps : List (V × E)) (nonneg : ∀ step ∈ steps, 0 ≤ facade.weightPenalty (facade.turnId step.2)) :
    ∀ path, StartsWith weight path → StartsWith weight (steps.foldl (facade.annotateNode store source startReverse) path) ∧
      pathWeight (steps.foldl (facade.annotateNode store source startReverse) path) = pathWeight path + stepsWeight facade store steps := by
  induction steps with
  | nil => exact fun path started => ⟨started, (add_zero _).symm⟩
  | cons step steps ih =>
    intro path started
    obtain ⟨next, added⟩ := annotateNode_later facade store source startReverse started step (nonneg step mem_cons_self)
    obtain ⟨done, total⟩ := ih (fun s mem => nonneg s (mem_cons_of_mem _ mem)) _ next
    refine ⟨done, ?_⟩
    rw [foldl_cons, total, stepsWeight, stepsWeight, map_cons, sum_cons]
    omega

end Totals

end Osrm
