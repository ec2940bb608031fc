import Osrm.Extractor.CompressedChains

/-!
# Traffic signals on compressed chains

`Compress` looks up a directed signal under the neighbour that a node has when it is taken out.
This is its neighbour in the original graph only as long as that has not been taken out itself:
if it has the smaller number, the signal is missed.
-/

namespace Osrm.Extractor

open Lib CompressedEdgeContainer

variable {n : ℕ} {s : TrafficSignals n}

/-- The weight of the segments along a chain. -/
def segmentsWeight (graph : NodeBasedDynamicGraph n) (u : Fin n) (inner : List (Fin n)) (w : Fin n) : ℤ :=
  ((Chain.pairs u (inner ++ [w])).map (segmentWeight graph)).sum

/-- The weight of an edge is that of its segments, with one penalty for each signal that is passed at an inner node. -/
def ChargedOnce (x : GraphCompressor n) (graph : NodeBasedDynamicGraph n) (st : Compression n) (u : Fin n) (e : ℕ) (w : Fin n)
    (inner : List (Fin n)) : Prop :=
  (st.graph.getEdgeData e).weight = segmentsWeight graph u inner w +
    x.signalPenalty.weight * (Chain.pairs u inner).countP x.trafficSignals.hasSignal

/-- In front of each directed signal there is the first node of the chain or a node with a greater number. -/
def SignalsInOrder (s : TrafficSignals n) (u : Fin n) (inner : List (Fin n)) : Prop :=
  ∀ p ∈ Chain.pairs u inner, p ∈ s.unidirectionalSegments → p.2 ∉ s.bidirectionalNodes → p.1 = u ∨ p.2 < p.1

theorem hasSignal_iff {p : Fin n × Fin n} :
    s.hasSignal p = true ↔ p.2 ∈ s.bidirectionalNodes ∨ p ∈ s.unidirectionalSegments := by
  rw [TrafficSignals.hasSignal, Bool.or_eq_true, decide_eq_true_iff, decide_eq_true_iff]

section Tests

variable {graph : NodeBasedDynamicGraph n} {u : Fin n} {inner : List (Fin n)} (fresh : u ∉ inner)
  (seen : List.Forall₂ (fun test pair => test = pair ∨ ¬ Adjacent graph test) (Chain.tests u inner) (Chain.pairs u inner))
  (segments : ∀ p ∈ s.unidirectionalSegments, Adjacent graph p)
include fresh seen segments

/-- A test under another neighbour finds a directed signal only if that is the neighbour in the chain. -/
theorem tests_within :
    List.Forall₂ (fun test pair => s.hasSignal test = true → s.hasSignal pair = true) (Chain.tests u inner) (Chain.pairs u inner) := by
  apply (Chain.forall₂_and seen (Chain.testsFrom_pairs [] inner fresh)).imp
  rintro test pair ⟨same, node, -⟩ found
  rcases hasSignal_iff.1 found with bidirectional | segment
  · rw [node] at bidirectional
    exact hasSignal_iff.2 (.inl bidirectional)
  · have equal := same.resolve_right fun apart => apart (segments test segment)
    exact equal ▸ found

theorem tests_countP_iff :
    (Chain.tests u inner).countP s.hasSignal = (Chain.pairs u inner).countP s.hasSignal ↔ SignalsInOrder s u inner := by
  rw [Chain.countP_eq_iff (tests_within fresh seen segments)]
  apply Chain.forall₂_iff_right
  apply (Chain.forall₂_and seen (Chain.testsFrom_pairs [] inner fresh)).imp
  rintro test pair ⟨same, node, front⟩
  rw [hasSignal_iff, hasSignal_iff, node]
  constructor
  · intro found segment single
    have test' := (found (.inr segment)).resolve_left single
    have equal := same.resolve_right fun apart => apart (segments test test')
    exact front.1 (congrArg Prod.fst equal)
  · rintro order (bidirectional | segment)
    · exact .inl bidirectional
    · by_cases single : pair.2 ∈ s.bidirectionalNodes
      · exact .inl single
      · right
        rwa [Prod.ext (front.2 (order segment single)) node]

end Tests

/-- **Signals are charged once.** For each edge that is left, with the nodes that its bucket leads along, the weight is as it should
be if and only if the segments with the signals found under the neighbours at the time wrap to the segments with the signals there
are. For a penalty other than zero, signals on segments of the graph and segments whose sum is in range this is so if and only if
the weight with the penalties is in range and the directed signals are in order. -/
theorem compress_chargedOnce_iff (x : GraphCompressor n) (graph : NodeBasedDynamicGraph n) (mirrored : graph.Mirrored)
    (typed : Typed graph) : ∃ st, x.compress graph empty = some st ∧ ∀ u e w, st.graph.Edge u e w →
      ∃ bucket inner, st.geometry.getBucketReference e = some bucket ∧ Chain.stops u (bucket.map (·.nodeId)) = inner ++ [w] ∧
        (∀ p ∈ Chain.pairs u (inner ++ [w]), Adjacent graph p) ∧
        (ChargedOnce x graph st u e w inner ↔
          (segmentsWeight graph u inner w +
              x.signalPenalty.charge.1 * (Chain.tests u inner).countP x.trafficSignals.hasSignal).bmod (2 ^ 32) =
            segmentsWeight graph u inner w +
              x.signalPenalty.weight * (Chain.pairs u inner).countP x.trafficSignals.hasSignal) ∧
        (x.signalPenalty.IsSet → x.signalPenalty.weight ≠ 0 → (∀ p ∈ x.trafficSignals.unidirectionalSegments, Adjacent graph p) →
          FitsInt (segmentsWeight graph u inner w) → (ChargedOnce x graph st u e w inner ↔
            FitsInt (segmentsWeight graph u inner w +
              x.signalPenalty.weight * (Chain.pairs u inner).countP x.trafficSignals.hasSignal) ∧
            SignalsInOrder x.trafficSignals u inner)) := by
  obtain ⟨st, links, inner, compressed, mirrored', chains, -⟩ := compress_spec x mirrored typed
  refine ⟨st, compressed, ?_⟩
  intro u e w edge
  obtain ⟨describes, bucket⟩ := chains edge
  have weight : (st.graph.getEdgeData e).weight = (segmentsWeight graph u (inner u e) w +
      x.signalPenalty.charge.1 * (Chain.tests u (inner u e)).countP x.trafficSignals.hasSignal).bmod (2 ^ 32) :=
    (congrArg Prod.fst describes.cost).trans (congrArg (Int.bmod · (2 ^ 32)) describes.charged)
  have fresh : u ∉ inner u e := by
    intro here
    have zero : (st.graph.nodeArray u).edges = 0 := (describes.removed u here).2
    have inside := edge.1
    rw [DynamicGraphArray.InRange] at inside
    omega
  refine ⟨_, inner u e, bucket, ?_, describes.adjacent, by rw [ChargedOnce, weight], ?_⟩
  · rw [List.map_map]
    exact describes.stops
  · intro set nonzero segments fits
    have charge : x.signalPenalty.charge.1 = x.signalPenalty.weight := congrArg Prod.fst (if_pos set)
    rw [charge] at weight
    rw [ChargedOnce, weight, ← tests_countP_iff fresh describes.seen segments]
    constructor
    · intro charged
      have whole := charged ▸ fitsInt_wrap _
      have fewer := fits.between whole (Chain.countP_le (tests_within fresh describes.seen segments))
      rw [fewer.wrap, add_right_inj, mul_right_inj' nonzero, Nat.cast_inj] at charged
      exact ⟨whole, charged⟩
    · rintro ⟨whole, found⟩
      rw [found, whole.wrap]

/-- A road along the nodes `0`, `2`, `1` and `3`. -/
def crossedRoad : NodeBasedDynamicGraph 4 := unitGraph [(0, 2), (1, 2), (1, 3), (2, 0), (2, 1), (3, 1)]

theorem size_crossedRoad : ∀ v, (crossedRoad.nodeArray v).firstEdge + (crossedRoad.nodeArray v).edges ≤ 6 := by decide

theorem mirrored_crossedRoad : crossedRoad.Mirrored :=
  DynamicGraphArray.mirrored_of_size size_crossedRoad (by decide) (by decide) (by decide) (by decide)
    (by decide)

theorem typed_crossedRoad : Typed crossedRoad := by
  intro u e w edge
  have all : ∀ d < 6, wrapCost (crossedRoad.getEdgeData d).cost = (crossedRoad.getEdgeData d).cost := by decide
  exact all e (edge.1.2.trans_le (size_crossedRoad u))

/-- The edge from `0` to `3` with its weight and the nodes of its bucket. -/
def edgeAcross (st : Compression 4) : Option (ℕ × ℤ × Option (List (Fin 4))) :=
  (st.graph.findEdge (exampleNode 0) (exampleNode 3)).map fun e =>
    (e, (st.graph.getEdgeData e).weight, (st.geometry.getBucketReference e).map (List.map (·.nodeId)))

/-- Node `1` is taken out before node `2` in front of it, so its signal is charged. -/
theorem compress_chargedOnce_crossedRoad : ∃ st e, (signalOn (2, 1)).compress crossedRoad empty = some st ∧
    st.graph.Edge 0 e 3 ∧ (st.graph.getEdgeData e).weight = 50 ∧ ChargedOnce (signalOn (2, 1)) crossedRoad st 0 e 3 [2, 1] := by
  have evaluated : ((signalOn (2, 1)).compress crossedRoad empty).bind edgeAcross =
      some (0, 50, some [2, 1, 1, 3]) := by
    decide +kernel
  obtain ⟨st, compressed, chains⟩ := compress_chargedOnce_iff (signalOn (2, 1)) crossedRoad mirrored_crossedRoad typed_crossedRoad
  rw [compressed] at evaluated
  obtain ⟨e, found, values⟩ := Option.map_eq_some_iff.1 evaluated
  obtain ⟨rfl, weight, nodes⟩ := Prod.mk.inj values |>.imp_right Prod.mk.inj
  have edge := DynamicGraphArray.edge_of_findEdge found
  obtain ⟨bucket, inner, reference, stops, -, general, -⟩ := chains 0 0 3 edge
  rw [reference] at nodes
  rw [Option.some.inj nodes] at stops
  obtain rfl : inner = [2, 1] := List.append_cancel_right (stops.symm.trans (show _ = [2, 1] ++ [3] by decide))
  exact ⟨st, 0, compressed, edge, weight, general.2 (by decide +kernel)⟩

/-- Node `1` is taken out first, so the signal from `1` to `2` is looked up from `0` to `2`. -/
theorem compress_missedSignal : ∃ st e, (signalOn (1, 2)).compress road empty = some st ∧
    st.graph.Edge 0 e 3 ∧ (st.graph.getEdgeData e).weight = 30 ∧
    (st.geometry.getBucketReference e).map (List.map (·.nodeId)) = some [1, 2, 3] ∧ Adjacent road (1, 2) ∧
    ¬ ChargedOnce (signalOn (1, 2)) road st 0 e 3 [1, 2] := by
  have evaluated : ((signalOn (1, 2)).compress road empty).bind edgeAcross = some (0, 30, some [1, 2, 3]) := by
    decide
  obtain ⟨st, compressed, across⟩ := Option.bind_eq_some_iff.1 evaluated
  obtain ⟨e, found, values⟩ := Option.map_eq_some_iff.1 across
  obtain ⟨rfl, weight, nodes⟩ := Prod.mk.inj values |>.imp_right Prod.mk.inj
  refine ⟨st, 0, compressed, DynamicGraphArray.edge_of_findEdge found, weight, nodes, ⟨2, by decide⟩, ?_⟩
  rw [ChargedOnce, weight]
  decide +kernel

end Osrm.Extractor
