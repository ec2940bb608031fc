import Mathlib.Algebra.Group.Prod
import Osrm.Extractor.CompressedEdgeContainer
import Osrm.Util.Coordinate
import Osrm.Util.DynamicGraphEdges

/-!
# Graph compression

`GraphCompressor::Compress` goes through the nodes by their numbers and takes out those of degree
two. When node `v` between `u` and `w` is taken out, the edge from `u` to `v` becomes one from `u`
to `w` under its old id, that from `w` to `v` becomes one from `w` to `u`, and the two edges of `v`
are deleted. A traffic signal at `v` adds a penalty to the directions in which it is passed; it is
looked up under the neighbours that `v` has at that time. Weights and durations are 32-bit integers
whose sums wrap.

Only the geometry and the graph are modelled: the paths of restrictions and maneuvers, which
`TurnPathCompressor` keeps up to date, are not read here again.
-/

namespace Osrm.Extractor

open DynamicGraphArray CompressedEdgeContainer

/-- What `RoadClassification` compares. -/
structure RoadClassification where
  motorwayClass : Bool
  linkClass : Bool
  mayBeIgnored : Bool
  roadPriorityClass : ℕ
  deriving DecidableEq, Repr

/-- What `NodeBasedEdgeClassification` compares. -/
structure NodeBasedEdgeClassification where
  forward : Bool
  backward : Bool
  isSplit : Bool
  roundabout : Bool
  circular : Bool
  startpoint : Bool
  restricted : Bool
  roadClassification : RoadClassification
  deriving DecidableEq, Repr

structure NodeBasedEdgeAnnotation where
  nameId : ℕ
  laneDescriptionId : ℕ
  classes : ℕ
  travelMode : ℕ
  isLeftHandDriving : Bool
  deriving DecidableEq, Repr

def NodeBasedEdgeAnnotation.canCombineWith (a b : NodeBasedEdgeAnnotation) : Bool :=
  a.nameId = b.nameId && a.classes = b.classes && a.travelMode = b.travelMode && a.isLeftHandDriving = b.isLeftHandDriving

def invalidLaneDescriptionId : ℕ := 65535

structure NodeBasedEdgeData where
  weight : ℤ
  duration : ℤ
  distance : ℚ
  reversed : Bool
  flags : NodeBasedEdgeClassification
  annotationData : ℕ
  deriving DecidableEq, Repr

abbrev NodeBasedDynamicGraph (n : ℕ) := DynamicGraphArray n NodeBasedEdgeData

structure TrafficSignals (n : ℕ) where
  bidirectionalNodes : Finset (Fin n)
  unidirectionalSegments : Finset (Fin n × Fin n)

def TrafficSignals.hasSignal {n : ℕ} (s : TrafficSignals n) (segment : Fin n × Fin n) : Bool :=
  segment.2 ∈ s.bidirectionalNodes || segment ∈ s.unidirectionalSegments

/-- `TurnPath`. The nodes of the via ways are given as the first one and the others. -/
inductive TurnPath (V : Type*)
  | viaNode (source via target : V)
  | viaWay (source via : V) (vias : List V) (target : V)
  deriving DecidableEq, Repr

/-- The arguments of `Compress` that it only reads, with what `ProcessTurn` makes of the artificial turn. -/
structure GraphCompressor (n : ℕ) where
  barrierNodes : Finset (Fin n)
  trafficSignals : TrafficSignals n
  turnDuration : ℚ
  turnWeight : ℚ
  weightMultiplier : ℚ
  /-- `turn_path` of the restrictions -/
  turnRestrictions : List (TurnPath (Fin n))
  /-- `instruction_node` of the maneuver overrides -/
  instructionNodes : List (Fin n)
  nodeDataContainer : ℕ → NodeBasedEdgeAnnotation

/-- The graph and the container while `Compress` runs. -/
structure Compression (n : ℕ) where
  graph : NodeBasedDynamicGraph n
  geometry : CompressedEdgeContainer (Fin n)

/-- A node between `u` and `w`, with the ids of the four edges. -/
structure Junction (n : ℕ) where
  u : Fin n
  w : Fin n
  forwardE1 : ℕ
  forwardE2 : ℕ
  reverseE1 : ℕ
  reverseE2 : ℕ
  deriving DecidableEq, Repr

/-- The neighbours of a node with two edges. -/
def junction {n : ℕ} (g : NodeBasedDynamicGraph n) (v : Fin n) : Option (Junction n) := do
  let reverseEdgeOrder := if (g.getEdgeData (g.beginEdges v)).reversed then 1 else 0
  let forwardE2 := g.beginEdges v + reverseEdgeOrder
  let reverseE2 := g.beginEdges v + 1 - reverseEdgeOrder
  let w ← g.getTarget forwardE2
  let u ← g.getTarget reverseE2
  let forwardE1 ← g.findEdge u v
  let reverseE1 ← g.findEdge w v
  some ⟨u, w, forwardE1, forwardE2, reverseE1, reverseE2⟩

/-- `apply_e2_to_e1`, on the data of the first edge. -/
def applyE2ToE1 (edge2 : NodeBasedEdgeData) (penalty : NodePenalty) (edge1 : NodeBasedEdgeData) : NodeBasedEdgeData :=
  let data :=
    { edge1 with
      weight := add32 edge1.weight edge2.weight
      duration := add32 edge1.duration edge2.duration
      distance := addFloat edge1.distance edge2.distance }
  if penalty.IsSet then
    { data with weight := add32 data.weight penalty.weight, duration := add32 data.duration penalty.duration }
  else data

def setDummyPenalty (penalty other : NodePenalty) : NodePenalty :=
  if penalty.weight = invalidEdgeWeight ∧ other.weight ≠ invalidEdgeWeight then ⟨0, 0⟩ else penalty

/-- The edges of `v` are joined to those of its neighbours. -/
def mergeEdges {n : ℕ} (g : NodeBasedDynamicGraph n) (v : Fin n) (j : Junction n) (forward reverse : NodePenalty) :
    NodeBasedDynamicGraph n :=
  let g := g.modifyData j.forwardE1 (applyE2ToE1 (g.getEdgeData j.forwardE2) forward)
  let g := g.modifyData j.reverseE1 (applyE2ToE1 (g.getEdgeData j.reverseE2) reverse)
  let g := (g.setTarget j.forwardE1 j.w).setTarget j.reverseE1 j.u
  (g.deleteEdge v j.forwardE2).deleteEdge v j.reverseE2

namespace GraphCompressor

variable {n : ℕ} (x : GraphCompressor n) (g : NodeBasedDynamicGraph n) (j : Junction n)

def incompressibleViaNodes : List (Fin n) :=
  (x.turnRestrictions.flatMap fun
    | .viaNode _ via _ => [via]
    | .viaWay _ via vias _ => [via, vias.getLastD via]) ++ x.instructionNodes

def signalPenalty : NodePenalty := ⟨truncate (x.turnWeight * x.weightMultiplier), truncate (x.turnDuration * 10)⟩

def selectAnnotation (front back : ℕ) : ℕ :=
  if (x.nodeDataContainer back).laneDescriptionId = invalidLaneDescriptionId then front else back

/-- Set the annotation of the first edge to the one selected for both. -/
def annotate (front back : ℕ) : NodeBasedDynamicGraph n :=
  g.modifyData front fun data =>
    { data with annotationData := x.selectAnnotation data.annotationData (g.getEdgeData back).annotationData }

/-- The annotations of the four edges are selected one after the other. -/
def selectAnnotations : NodeBasedDynamicGraph n :=
  x.annotate (x.annotate (x.annotate (x.annotate g j.forwardE1 j.forwardE2) j.reverseE1 j.reverseE2) j.forwardE2 j.forwardE1)
    j.reverseE2 j.reverseE1

/-- The two directions of each road have one name. -/
def sameNames : Bool :=
  let name := fun e => (x.nodeDataContainer (g.getEdgeData e).annotationData).nameId
  name j.forwardE1 = name j.reverseE1 && name j.forwardE2 = name j.reverseE2

def compatible : Bool :=
  let fwd1 := g.getEdgeData j.forwardE1
  let fwd2 := g.getEdgeData j.forwardE2
  let rev1 := g.getEdgeData j.reverseE1
  let rev2 := g.getEdgeData j.reverseE2
  fwd1.flags = fwd2.flags && rev1.flags = rev2.flags && fwd1.reversed = fwd2.reversed && rev1.reversed = rev2.reversed &&
    (x.nodeDataContainer fwd1.annotationData).canCombineWith (x.nodeDataContainer fwd2.annotationData) &&
    (x.nodeDataContainer rev1.annotationData).canCombineWith (x.nodeDataContainer rev2.annotationData)

/-- The penalty in one direction before `set_dummy_penalty`. -/
def penaltyAt (segment : Fin n × Fin n) : NodePenalty :=
  if x.trafficSignals.hasSignal segment then x.signalPenalty else NodePenalty.unset

/-- Compress the edges of a node that are compatible. -/
def compressAt (st : Compression n) (v : Fin n) (j : Junction n) : Compression n :=
  let fwd1 := st.graph.getEdgeData j.forwardE1
  let fwd2 := st.graph.getEdgeData j.forwardE2
  let rev1 := st.graph.getEdgeData j.reverseE1
  let rev2 := st.graph.getEdgeData j.reverseE2
  let annotated := x.selectAnnotations st.graph j
  -- a penalty that depends on the turn direction cannot be one of the node
  if (x.trafficSignals.hasSignal (j.u, v) || x.trafficSignals.hasSignal (j.w, v)) && fwd1.flags.restricted != fwd2.flags.restricted then
    { st with graph := annotated }
  else
    let forward := x.penaltyAt (j.u, v)
    let reverse := x.penaltyAt (j.w, v)
    let forward' := setDummyPenalty forward reverse
    let reverse' := setDummyPenalty reverse forward'
    let geometry := st.geometry.compressEdge j.forwardE1 j.forwardE2 v j.w fwd1.weight fwd2.weight fwd1.duration fwd2.duration forward'
    { graph := mergeEdges annotated v j forward reverse
      geometry := geometry.compressEdge j.reverseE1 j.reverseE2 v j.u rev1.weight rev2.weight rev1.duration rev2.duration reverse' }

/-- The body of the loop; `none` if an edge is looked up that does not exist. -/
def compressNode (st : Compression n) (v : Fin n) : Option (Compression n) :=
  if st.graph.getOutDegree v ≠ 2 then some st
  else if v ∈ x.barrierNodes then some st
  else if x.incompressibleViaNodes.contains v then some st
  else do
    let j ← junction st.graph v
    if (st.graph.findEdgeInEitherDirection j.u j.w).isSome then some st
    else if !x.sameNames st.graph j then some st
    else if x.compatible st.graph j then some (x.compressAt st v j)
    else some st

/-- The loop that adds the edges which were not compressed, for one edge. -/
def addUncompressed (c : CompressedEdgeContainer (Fin n)) (edgeId : ℕ) :
    Option (CompressedEdgeContainer (Fin n)) := do
  let target ← g.getTarget edgeId
  let data := g.getEdgeData edgeId
  some (c.addUncompressedEdge edgeId target data.weight data.duration)

def compress (graph : NodeBasedDynamicGraph n) (geometry : CompressedEdgeContainer (Fin n)) : Option (Compression n) := do
  let st ← (List.finRange n).foldlM x.compressNode ⟨graph, geometry⟩
  let geometry ← ((List.finRange n).flatMap st.graph.edgeRange).foldlM (addUncompressed st.graph) st.geometry
  some { st with geometry := geometry }

end GraphCompressor

/-! ### The neighbours of a node -/

section Neighbours

variable {n : ℕ} {g g' : NodeBasedDynamicGraph n} {v : Fin n} {j : Junction n}

variable (g v j) in
/-- The four edges of a junction are those between `v` and its neighbours. -/
structure Junction.Valid : Prop where
  forward1 : g.Edge j.u j.forwardE1 v
  forward2 : g.Edge v j.forwardE2 j.w
  reverse1 : g.Edge j.w j.reverseE1 v
  reverse2 : g.Edge v j.reverseE2 j.u
  only : ∀ {e y}, g.Edge v e y → e = j.forwardE2 ∧ y = j.w ∨ e = j.reverseE2 ∧ y = j.u
  apart : j.u ≠ j.w

theorem junction_valid (mirrored : g.Mirrored) (two : g.getOutDegree v = 2) : ∃ j, junction g v = some j ∧ j.Valid g v := by
  obtain ⟨forwardE2, reverseE2, order, forward, reverse⟩ : ∃ forwardE2 reverseE2,
      (forwardE2 = g.beginEdges v ∧ reverseE2 = g.beginEdges v + 1 ∨ forwardE2 = g.beginEdges v + 1 ∧ reverseE2 = g.beginEdges v) ∧
      g.beginEdges v + (if (g.getEdgeData (g.beginEdges v)).reversed then 1 else 0) = forwardE2 ∧
      g.beginEdges v + 1 - (if (g.getEdgeData (g.beginEdges v)).reversed then 1 else 0) = reverseE2 := by
    cases (g.getEdgeData (g.beginEdges v)).reversed with
    | true => exact ⟨_, _, .inr ⟨rfl, rfl⟩, rfl, rfl⟩
    | false => exact ⟨_, _, .inl ⟨rfl, rfl⟩, rfl, rfl⟩
  have range : ∀ e, g.InRange v e ↔ e = forwardE2 ∨ e = reverseE2 := by
    intro e
    have size : (g.nodeArray v).edges = 2 := two
    have first : (g.nodeArray v).firstEdge = g.beginEdges v := rfl
    rw [DynamicGraphArray.InRange]
    omega
  obtain ⟨w, toW⟩ := mirrored.targeted ((range _).2 (.inl rfl))
  obtain ⟨u, toU⟩ := mirrored.targeted ((range _).2 (.inr rfl))
  have forward2 : g.Edge v forwardE2 w := ⟨(range _).2 (.inl rfl), toW⟩
  have reverse2 : g.Edge v reverseE2 u := ⟨(range _).2 (.inr rfl), toU⟩
  obtain ⟨reverseE1, reverse1⟩ := mirrored.mirror forward2
  obtain ⟨forwardE1, forward1⟩ := mirrored.mirror reverse2
  refine ⟨⟨u, w, forwardE1, forwardE2, reverseE1, reverseE2⟩, ?_, forward1, forward2, reverse1, reverse2, ?_, ?_⟩
  · simp [junction, forward, reverse, toW, toU, mirrored.findEdge_eq forward1, mirrored.findEdge_eq reverse1]
  · intro e y edge
    rcases (range e).1 edge.1 with rfl | rfl
    · exact .inl ⟨rfl, (mirrored.target_eq edge forward2).2⟩
    · exact .inr ⟨rfl, (mirrored.target_eq edge reverse2).2⟩
  · intro same
    have same : u = w := same
    subst same
    have := mirrored.simple forward2 reverse2
    omega

namespace Junction.Valid

variable (valid : j.Valid g v) (mirrored : g.Mirrored)

include valid mirrored

theorem u_ne : j.u ≠ v := by
  intro same
  have loop := valid.forward1
  rw [same] at loop
  exact mirrored.loopless loop

theorem w_ne : j.w ≠ v := by
  intro same
  have loop := valid.reverse1
  rw [same] at loop
  exact mirrored.loopless loop

theorem e1_ne : j.forwardE1 ≠ j.reverseE1 := by
  intro same
  have first := valid.forward1
  rw [same] at first
  exact valid.apart (mirrored.target_eq first valid.reverse1).1

/-- Edges of different nodes are different. -/
theorem ids_ne : j.forwardE1 ≠ j.forwardE2 ∧ j.forwardE1 ≠ j.reverseE2 ∧ j.reverseE1 ≠ j.forwardE2 ∧ j.reverseE1 ≠ j.reverseE2 ∧
    j.forwardE2 ≠ j.reverseE2 := by
  have source : ∀ {x y e e'}, g.InRange x e → g.InRange y e' → x ≠ y → e ≠ e' := by
    rintro x y e e' first second other rfl
    exact other (mirrored.apart first second)
  refine ⟨source valid.forward1.1 valid.forward2.1 (valid.u_ne mirrored), source valid.forward1.1 valid.reverse2.1 (valid.u_ne mirrored),
    source valid.reverse1.1 valid.forward2.1 (valid.w_ne mirrored), source valid.reverse1.1 valid.reverse2.1 (valid.w_ne mirrored), ?_⟩
  intro same
  have second := valid.reverse2
  rw [← same] at second
  exact valid.apart (mirrored.target_eq second valid.forward2).2

/-- An edge to `v` comes from one of the neighbours. -/
theorem of_target {x : Fin n} {e : ℕ} (edge : g.Edge x e v) : x = j.u ∧ e = j.forwardE1 ∨ x = j.w ∧ e = j.reverseE1 := by
  obtain ⟨e', opposite⟩ := mirrored.mirror edge
  obtain ⟨-, rfl⟩ | ⟨-, rfl⟩ := valid.only opposite
  · exact .inr ⟨rfl, mirrored.simple edge valid.reverse1⟩
  · exact .inl ⟨rfl, mirrored.simple edge valid.forward1⟩

end Junction.Valid

/-! ### One step -/

def NodeBasedEdgeData.cost (data : NodeBasedEdgeData) : ℤ × ℤ := (data.weight, data.duration)

def NodePenalty.charge (penalty : NodePenalty) : ℤ × ℤ := if penalty.IsSet then (penalty.weight, penalty.duration) else 0

/-- A weight and a duration as 32-bit integers. -/
def wrapCost (cost : ℤ × ℤ) : ℤ × ℤ := (cost.1.bmod (2 ^ 32), cost.2.bmod (2 ^ 32))

/-- Sums may be wrapped once or at every step. -/
theorem wrapCost_add (a b c : ℤ × ℤ) : wrapCost (wrapCost a + wrapCost b + c) = wrapCost (a + b + c) := by
  have each (x y z : ℤ) : (x.bmod (2 ^ 32) + y.bmod (2 ^ 32) + z).bmod (2 ^ 32) = (x + y + z).bmod (2 ^ 32) := by
    rw [add_assoc, Int.bmod_add_bmod, add_left_comm, Int.bmod_add_bmod, add_left_comm, add_assoc]
  exact Prod.ext (each _ _ _) (each _ _ _)

theorem applyE2ToE1_cost (edge2 : NodeBasedEdgeData) (penalty : NodePenalty) (edge1 : NodeBasedEdgeData) :
    (applyE2ToE1 edge2 penalty edge1).cost = wrapCost (edge1.cost + edge2.cost + penalty.charge) := by
  unfold applyE2ToE1 NodePenalty.charge
  split
  · have each (x y z : ℤ) : add32 (add32 x y) z = (x + y + z).bmod (2 ^ 32) := by
      rw [add32_add32, add32, add_assoc]
    exact Prod.ext (each _ _ _) (each _ _ _)
  · rw [add_zero]
    rfl

variable (g g' v j) in
/-- `v` is taken out between its neighbours. -/
structure Merged (forward reverse : NodePenalty) : Prop where
  degree : ∀ x, g'.getOutDegree x = if x = v then 0 else g.getOutDegree x
  inRange : ∀ x e, g'.InRange x e ↔ x ≠ v ∧ g.InRange x e
  target : ∀ {x e}, x ≠ v → g.InRange x e →
    g'.getTarget e = if e = j.reverseE1 then some j.u else if e = j.forwardE1 then some j.w else g.getTarget e
  cost : ∀ {x e}, x ≠ v → g.InRange x e → (g'.getEdgeData e).cost =
    if e = j.reverseE1 then wrapCost ((g.getEdgeData j.reverseE1).cost + (g.getEdgeData j.reverseE2).cost + reverse.charge)
    else if e = j.forwardE1 then wrapCost ((g.getEdgeData j.forwardE1).cost + (g.getEdgeData j.forwardE2).cost + forward.charge)
    else (g.getEdgeData e).cost

/-- `mergeEdges` on a graph with the same edges and costs. -/
theorem mergeEdges_merged {a : NodeBasedDynamicGraph n} (nodes : a.nodeArray = g.nodeArray) (targets : ∀ e, a.getTarget e = g.getTarget e)
    (costs : ∀ e, (a.getEdgeData e).cost = (g.getEdgeData e).cost) (mirrored : g.Mirrored) (valid : j.Valid g v)
    (two : g.getOutDegree v = 2) (forward reverse : NodePenalty) : Merged g (mergeEdges a v j forward reverse) v j forward reverse := by
  have same : ∀ x e, a.InRange x e ↔ g.InRange x e := by
    intro x e
    rw [DynamicGraphArray.InRange, nodes]
    rfl
  have others : j.reverseE2 ≠ j.forwardE1 := by
    intro eq
    have first := valid.forward1
    rw [← eq] at first
    exact valid.u_ne mirrored (mirrored.target_eq first valid.reverse2).1
  let h := ((a.modifyData j.forwardE1 (applyE2ToE1 (a.getEdgeData j.forwardE2) forward)).modifyData j.reverseE1
    (applyE2ToE1 ((a.modifyData j.forwardE1 (applyE2ToE1 (a.getEdgeData j.forwardE2) forward)).getEdgeData j.reverseE2) reverse))
  obtain ⟨degrees, ranges, frame⟩ := deleteBoth_spec (g := (h.setTarget j.forwardE1 j.w).setTarget j.reverseE1 j.u)
    (v := v) ((congrArg (fun table => (table v).edges) nodes).trans two)
    (fun inside inside' => mirrored.apart ((same _ _).1 inside) ((same _ _).1 inside'))
    j.forwardE2 j.reverseE2 ((same _ _).2 valid.forward2.1) ((same _ _).2 valid.reverse2.1)
  refine ⟨?_, ?_, ?_, ?_⟩
  · intro x
    refine (degrees x).trans ?_
    exact congrArg (fun table : Fin n → DynamicNode => if x = v then 0 else (table x).edges) nodes
  · intro x e
    exact (ranges x e).trans (and_congr_right fun _ => same x e)
  · intro x e other inside
    refine (frame x e other ((same x e).2 inside)).1.trans ?_
    simp only [h, setTarget_getTarget, modifyData_getTarget, targets]
  · intro x e other inside
    refine (congrArg NodeBasedEdgeData.cost (frame x e other ((same x e).2 inside)).2).trans ?_
    rw [setTarget_getEdgeData, setTarget_getEdgeData]
    simp only [h, modifyData_getEdgeData, if_neg (valid.e1_ne mirrored).symm]
    split
    · rw [applyE2ToE1_cost, costs, costs]
    · split
      · rw [applyE2ToE1_cost, costs, costs]
      · exact costs e

namespace Merged

variable {forward reverse : NodePenalty} (merged : Merged g g' v j forward reverse)

include merged

theorem edge_iff (mirrored : g.Mirrored) (valid : j.Valid g v) {x y : Fin n} {e : ℕ} : g'.Edge x e y ↔
    g.Edge x e y ∧ x ≠ v ∧ y ≠ v ∨ x = j.u ∧ e = j.forwardE1 ∧ y = j.w ∨ x = j.w ∧ e = j.reverseE1 ∧ y = j.u := by
  constructor
  · intro ⟨inside, target⟩
    obtain ⟨other, inside⟩ := (merged.inRange x e).1 inside
    rw [merged.target other inside] at target
    by_cases second : e = j.reverseE1
    · subst second
      rw [if_pos rfl] at target
      exact .inr (.inr ⟨mirrored.apart inside valid.reverse1.1, rfl, (Option.some.inj target).symm⟩)
    · rw [if_neg second] at target
      by_cases first : e = j.forwardE1
      · subst first
        rw [if_pos rfl] at target
        exact .inr (.inl ⟨mirrored.apart inside valid.forward1.1, rfl, (Option.some.inj target).symm⟩)
      · rw [if_neg first] at target
        refine .inl ⟨⟨inside, target⟩, other, ?_⟩
        rintro rfl
        obtain ⟨-, same⟩ | ⟨-, same⟩ := valid.of_target mirrored ⟨inside, target⟩
        · exact first same
        · exact second same
  · rintro (⟨⟨inside, target⟩, other, away⟩ | ⟨rfl, rfl, rfl⟩ | ⟨rfl, rfl, rfl⟩)
    · refine ⟨(merged.inRange x e).2 ⟨other, inside⟩, ?_⟩
      have second : e ≠ j.reverseE1 := by
        rintro rfl
        exact away (mirrored.target_eq ⟨inside, target⟩ valid.reverse1).2
      have first : e ≠ j.forwardE1 := by
        rintro rfl
        exact away (mirrored.target_eq ⟨inside, target⟩ valid.forward1).2
      rw [merged.target other inside, if_neg second, if_neg first]
      exact target
    · refine ⟨(merged.inRange _ _).2 ⟨valid.u_ne mirrored, valid.forward1.1⟩, ?_⟩
      rw [merged.target (valid.u_ne mirrored) valid.forward1.1, if_neg (valid.e1_ne mirrored), if_pos rfl]
    · refine ⟨(merged.inRange _ _).2 ⟨valid.w_ne mirrored, valid.reverse1.1⟩, ?_⟩
      rw [merged.target (valid.w_ne mirrored) valid.reverse1.1, if_pos rfl]

/-- The graph stays mirrored, if there was no edge between the neighbours. -/
theorem mirrored (mirrored : g.Mirrored) (valid : j.Valid g v) (free : (∀ e, ¬ g.Edge j.u e j.w) ∧ ∀ e, ¬ g.Edge j.w e j.u) :
    g'.Mirrored where
  apart first second := mirrored.apart ((merged.inRange _ _).1 first).2 ((merged.inRange _ _).1 second).2
  targeted inside := by
    obtain ⟨other, inside⟩ := (merged.inRange _ _).1 inside
    rw [merged.target other inside]
    split
    · exact ⟨_, rfl⟩
    · split
      · exact ⟨_, rfl⟩
      · exact mirrored.targeted inside
  mirror edge := by
    rcases (merged.edge_iff mirrored valid).1 edge with ⟨old, other, away⟩ | ⟨rfl, -, rfl⟩ | ⟨rfl, -, rfl⟩
    · obtain ⟨e', opposite⟩ := mirrored.mirror old
      exact ⟨e', (merged.edge_iff mirrored valid).2 (.inl ⟨opposite, away, other⟩)⟩
    · exact ⟨_, (merged.edge_iff mirrored valid).2 (.inr (.inr ⟨rfl, rfl, rfl⟩))⟩
    · exact ⟨_, (merged.edge_iff mirrored valid).2 (.inr (.inl ⟨rfl, rfl, rfl⟩))⟩
  simple first second := by
    rcases (merged.edge_iff mirrored valid).1 first with ⟨old, -, -⟩ | ⟨rfl, rfl, rfl⟩ | ⟨rfl, rfl, rfl⟩ <;>
      rcases (merged.edge_iff mirrored valid).1 second with ⟨old', -, -⟩ | ⟨same, rfl, same'⟩ | ⟨same, rfl, same'⟩
    · exact mirrored.simple old old'
    · rw [same, same'] at old
      exact absurd old (free.1 _)
    · rw [same, same'] at old
      exact absurd old (free.2 _)
    · exact absurd old' (free.1 _)
    · rfl
    · exact absurd same valid.apart
    · exact absurd old' (free.2 _)
    · exact absurd same.symm valid.apart
    · rfl
  loopless loop := by
    rcases (merged.edge_iff mirrored valid).1 loop with ⟨old, -, -⟩ | ⟨same, -, same'⟩ | ⟨same, -, same'⟩
    · exact mirrored.loopless old
    · exact valid.apart (same.symm.trans same')
    · exact valid.apart (same'.symm.trans same)

end Merged

/-- What `compressNode` does to a node that it takes out. -/
structure Compressed (x : GraphCompressor n) (st st' : Compression n) (v : Fin n) (j : Junction n) : Prop where
  valid : j.Valid st.graph v
  free : (∀ e, ¬ st.graph.Edge j.u e j.w) ∧ ∀ e, ¬ st.graph.Edge j.w e j.u
  merged : Merged st.graph st'.graph v j (x.penaltyAt (j.u, v)) (x.penaltyAt (j.w, v))
  geometry :
    let fwd1 := st.graph.getEdgeData j.forwardE1
    let fwd2 := st.graph.getEdgeData j.forwardE2
    let rev1 := st.graph.getEdgeData j.reverseE1
    let rev2 := st.graph.getEdgeData j.reverseE2
    let forward' := setDummyPenalty (x.penaltyAt (j.u, v)) (x.penaltyAt (j.w, v))
    st'.geometry = (st.geometry.compressEdge j.forwardE1 j.forwardE2 v j.w fwd1.weight fwd2.weight fwd1.duration fwd2.duration
      forward').compressEdge j.reverseE1 j.reverseE2 v j.u rev1.weight rev2.weight rev1.duration rev2.duration
      (setDummyPenalty (x.penaltyAt (j.w, v)) forward')

/-- The buckets of the joined edges; the others stay. -/
theorem Compressed.buckets {x : GraphCompressor n} {st st' : Compression n} (step : Compressed x st st' v j) (mirrored : st.graph.Mirrored)
    (valid : st.geometry.geometries.Valid) (filled1 : st.geometry.getBucketReference j.forwardE1 ≠ some [])
    (filled2 : st.geometry.getBucketReference j.reverseE1 ≠ some []) :
    let entries := fun e y => entries (st.geometry.getBucketReference e)
      (entry y (st.graph.getEdgeData e).weight (st.graph.getEdgeData e).duration)
    let penalty := fun p : NodePenalty => if p.IsSet then [entry v p.weight p.duration] else []
    let forward' := setDummyPenalty (x.penaltyAt (j.u, v)) (x.penaltyAt (j.w, v))
    st'.geometry.geometries.Valid ∧
      st'.geometry.getBucketReference j.forwardE1 = some (entries j.forwardE1 v ++ penalty forward' ++ entries j.forwardE2 j.w) ∧
      st'.geometry.getBucketReference j.reverseE1 =
        some (entries j.reverseE1 v ++ penalty (setDummyPenalty (x.penaltyAt (j.w, v)) forward') ++ entries j.reverseE2 j.u) ∧
      ∀ e, e ≠ j.forwardE1 → e ≠ j.forwardE2 → e ≠ j.reverseE1 → e ≠ j.reverseE2 →
        st'.geometry.getBucketReference e = st.geometry.getBucketReference e := by
  intro entries penalty forward'
  obtain ⟨ne12, ne14, ne32, ne34, ne24⟩ := step.valid.ids_ne mirrored
  have ne13 := step.valid.e1_ne mirrored
  obtain ⟨valid', buckets⟩ := compressEdge_bucket valid ne12 filled1 v j.w
    (st.graph.getEdgeData j.forwardE1).weight (st.graph.getEdgeData j.forwardE2).weight
    (st.graph.getEdgeData j.forwardE1).duration (st.graph.getEdgeData j.forwardE2).duration forward'
  obtain ⟨valid'', buckets'⟩ := compressEdge_bucket valid' ne34
    (by rw [buckets, if_neg ne13.symm, if_neg ne32]; exact filled2) v j.u
    (st.graph.getEdgeData j.reverseE1).weight (st.graph.getEdgeData j.reverseE2).weight
    (st.graph.getEdgeData j.reverseE1).duration (st.graph.getEdgeData j.reverseE2).duration
    (setDummyPenalty (x.penaltyAt (j.w, v)) forward')
  rw [step.geometry]
  refine ⟨valid'', ?_, ?_, ?_⟩
  · rw [buckets', if_neg ne13, if_neg ne14, buckets, if_pos rfl]
  · rw [buckets', if_pos rfl, buckets, if_neg ne13.symm, if_neg ne32, buckets, if_neg ne14.symm, if_neg ne24.symm]
  · intro e other1 other2 other3 other4
    rw [buckets', if_neg other3, if_neg other4, buckets, if_neg other1, if_neg other2]

namespace GraphCompressor

variable (x : GraphCompressor n)

theorem annotate_same (g : NodeBasedDynamicGraph n) (front back : ℕ) : (x.annotate g front back).nodeArray = g.nodeArray ∧
    (∀ e, (x.annotate g front back).getTarget e = g.getTarget e) ∧
    ∀ e, ((x.annotate g front back).getEdgeData e).cost = (g.getEdgeData e).cost := by
  refine ⟨rfl, fun e => modifyData_getTarget, ?_⟩
  intro e
  rw [annotate, modifyData_getEdgeData]
  split
  · next same => rw [same]; rfl
  · rfl

variable (g j) in
/-- The annotations do not matter for the edges and their costs. -/
theorem selectAnnotations_same : (x.selectAnnotations g j).nodeArray = g.nodeArray ∧
    (∀ e, (x.selectAnnotations g j).getTarget e = g.getTarget e) ∧
    ∀ e, ((x.selectAnnotations g j).getEdgeData e).cost = (g.getEdgeData e).cost := by
  refine ⟨rfl, ?_, ?_⟩
  · intro e
    simp only [selectAnnotations, (x.annotate_same _ _ _).2.1]
  · intro e
    simp only [selectAnnotations, (x.annotate_same _ _ _).2.2]

/-- **One step.** A node is left alone, or it is taken out between its two neighbours. -/
theorem compressNode_cases {st : Compression n} (mirrored : st.graph.Mirrored) (v : Fin n) :
    ∃ st', x.compressNode st v = some st' ∧ (st' = st ∨ ∃ j, Compressed x st st' v j) := by
  unfold compressNode
  split
  · exact ⟨st, rfl, .inl rfl⟩
  next two =>
  split
  · exact ⟨st, rfl, .inl rfl⟩
  split
  · exact ⟨st, rfl, .inl rfl⟩
  have two : st.graph.getOutDegree v = 2 := not_not.1 two
  obtain ⟨j, found, valid⟩ := junction_valid mirrored two
  rw [found, Option.bind_eq_bind, Option.bind_some]
  split
  · exact ⟨st, rfl, .inl rfl⟩
  next free =>
  split
  · exact ⟨st, rfl, .inl rfl⟩
  split_ifs with compatible
  · refine ⟨_, rfl, .inr ⟨j, ?_⟩⟩
    have flags : (st.graph.getEdgeData j.forwardE1).flags = (st.graph.getEdgeData j.forwardE2).flags := by
      simp only [GraphCompressor.compatible, Bool.and_eq_true, decide_eq_true_iff] at compatible
      exact compatible.1.1.1.1.1
    obtain ⟨nodes, targets, costs⟩ := x.selectAnnotations_same st.graph j
    have result : x.compressAt st v j = _ := if_neg (by rw [flags]; simp)
    rw [result]
    exact ⟨valid, findEdgeInEitherDirection_isSome.1 (Bool.eq_false_of_not_eq_true free),
      mergeEdges_merged nodes targets costs mirrored valid two _ _, rfl⟩
  · exact ⟨st, rfl, .inl rfl⟩

end GraphCompressor

end Neighbours

end Osrm.Extractor
