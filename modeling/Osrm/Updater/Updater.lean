import Osrm.Updater.SegmentUpdate
import Osrm.Util.OpeningHours
import Osrm.Util.Typedefs
import Mathlib.Data.List.Sort

/-!
# The updater

`Updater::LoadAndUpdateEdgeExpandedGraph` loads the edge-based graph and the node weights for the
contractor or the customizer and updates them: by tables of speeds, by tables of turn penalties and
by the conditional turn restrictions that are active at a time. The edges that start in an updated
geometry get their weight anew, from the weights of its segments and the penalty of the turn.
Segment data and turn penalties are also written back to the files they were read from.

Arrays that are read by nodes, geometries or turns are functions here; the edges are a list, and the
turn of an edge is its place in it. Weights and durations of edges are 32-bit integers whose sums
wrap; penalties are computed in double precision.
-/

namespace Osrm.Updater

open Function List

open Extractor OpeningHours

def invalidTurnPenalty : ℤ := 32767

/-- A node weight. Its sign bit marks a one-way street, the other bits (`& 0x7fffffff`) are the weight. -/
structure NodeWeight where
  oneway : Bool
  weight : ℤ
  deriving DecidableEq, Repr

/-- A new weight with the mark of the old one; the sign bit of a negative one is the mark. -/
def NodeWeight.set (old : NodeWeight) (newWeight : ℤ) : NodeWeight := ⟨old.oneway || newWeight < 0, newWeight % 2 ^ 31⟩

structure EdgeBasedEdge where
  source : ℕ
  target : ℕ
  turnId : ℕ
  weight : ℤ
  duration : ℤ
  deriving DecidableEq, Repr

/-- `PenaltySource`; a weight that is not finite is `none`. -/
structure PenaltySource where
  duration : ℚ
  weight : Option ℚ

structure TurnIndexBlock where
  fromId : ℕ
  viaId : ℕ
  toId : ℕ

structure ConditionalTurnPenalty where
  turnOffset : ℕ
  location : Coordinate
  conditions : List Rule

structure Conditional where
  fromNode : ℕ
  toNode : ℕ
  penalty : ConditionalTurnPenalty

def indexConditionals (conditionals : List Conditional) (edges : List EdgeBasedEdge) : List ConditionalTurnPenalty :=
  edges.flatMap fun edge =>
    (conditionals.filter fun conditional => conditional.fromNode = edge.source ∧ conditional.toNode = edge.target).map
      fun conditional => { conditional.penalty with turnOffset := edge.turnId }

structure Files where
  nodeWeights : ℕ → NodeWeight
  nodeDurations : ℕ → ℤ
  edges : List EdgeBasedEdge
  geometryId : ℕ → GeometryID
  numberOfGeometries : ℕ
  segmentData : ℕ → SegmentData
  turnWeightPenalties : ℕ → ℤ
  turnDurationPenalties : ℕ → ℤ
  turnIndex : ℕ → TurnIndexBlock
  conditionals : List Conditional
  osmNodeIds : ℕ → ℕ
  segmentLength : ℕ → ℕ → ℚ
  weightMultiplier : ℚ
  /-- The extractor renumbers the turns by the places of their edges. -/
  turnIds : ∀ i (inside : i < edges.length), edges[i].turnId = i

/-- What ends an update early. -/
inductive Exception
  | tooManyFiles
  | badNumericCast
  | invalidTime
  | date (error : DateError)

/-- `UpdaterConfig`: the numbers of files, the tables read from them, and the time. -/
structure UpdaterConfig where
  segmentSpeedLookupPaths : ℕ
  turnPenaltyLookupPaths : ℕ
  segmentSpeeds : SegmentLookupTable
  turnPenalties : ℕ → ℕ → ℕ → Option PenaltySource
  hasRestrictions : Bool
  validNow : ℤ
  calendar : Calendar
  timezoner : ℤ → Coordinate → Option Tm
  numericCast : NumericCast

/-- The weight and duration penalty of an entry. -/
def convertToPenalty (numericCast : NumericCast) (weightMultiplier : ℚ) (value : PenaltySource) : Option (ℤ × ℤ) := do
  let turnDurationPenalty ← numericCast.toPenalty (stdRound (toDouble (value.duration * 10)))
  let turnWeightPenalty ← numericCast.toPenalty (stdRound (match value.weight with
    | some weight => toDouble (weight * weightMultiplier)
    | none => toDouble (toDouble (turnDurationPenalty * weightMultiplier) / 10)))
  return (turnWeightPenalty, turnDurationPenalty)

namespace Files

variable (files : Files) (config : UpdaterConfig)

/-- The turns with a conditional restriction. -/
def conditionalTurns : List ConditionalTurnPenalty := indexConditionals files.conditionals files.edges

/-- The entry of the turn penalty table for a turn. -/
def penaltySource (turn : ℕ) : Option PenaltySource :=
  let block := files.turnIndex turn
  config.turnPenalties (files.osmNodeIds block.fromId) (files.osmNodeIds block.viaId) (files.osmNodeIds block.toId)

/-- A penalty of a turn after the loop of `updateTurnPenalties`. -/
def listedPenalty (part : ℤ × ℤ → ℤ) (old : ℕ → ℤ) (turn : ℕ) : ℤ :=
  match files.penaltySource config turn with
  | some value => ((convertToPenalty config.numericCast files.weightMultiplier value).map part).getD (old turn)
  | none => old turn

/-- `updateTurnPenalties`: the weight and duration penalties and the turns that were updated. -/
def updateTurnPenalties : Except Exception ((ℕ → ℤ) × (ℕ → ℤ) × List ℕ) :=
  let turns := (range files.edges.length).filter fun turn => (files.penaltySource config turn).isSome
  if turns.all fun turn => ((files.penaltySource config turn).bind (convertToPenalty config.numericCast files.weightMultiplier)).isSome then
    .ok (files.listedPenalty config Prod.fst files.turnWeightPenalties,
      files.listedPenalty config Prod.snd files.turnDurationPenalties, turns)
  else .error .badNumericCast

def isRestrictionValid (turn : ConditionalTurnPenalty) : Except Exception Bool :=
  match config.timezoner config.validNow turn.location with
  | none => .ok false
  | some localTime => (checkOpeningHours config.calendar turn.conditions localTime).mapError .date

/-- `updateConditionalTurns`: the turns it gives the invalid penalty. -/
def updateConditionalTurns : List ConditionalTurnPenalty → Except Exception (List ℕ)
  | [] => .ok []
  | penalty :: rest => do
    let valid ← isRestrictionValid config penalty
    let updatedTurns ← updateConditionalTurns rest
    return if valid then penalty.turnOffset :: updatedTurns else updatedTurns

/-- The geometry of the source of the edge with a turn. -/
def geometryOfTurn (turn : ℕ) : GeometryID :=
  files.geometryId (match files.edges[turn]? with
    | some edge => edge.source
    | none => 0)

end Files

/-! ### The edges -/

/-- The order of the updated geometries. -/
def GeometryID.before (a b : GeometryID) : Bool := a.id < b.id || (a.id = b.id && !a.forward && b.forward)

/-- `tbb::parallel_sort` of the updated geometries -/
def sortGeometries (geometries : List GeometryID) : List GeometryID := geometries.insertionSort fun a b => ¬b.before a

/-- The search in the sorted geometries with `std::lower_bound`. -/
def isUpdated (updatedSegments : List GeometryID) (geometryId : GeometryID) : Bool :=
  match (updatedSegments.dropWhile (·.before geometryId)).head? with
  | some found => found.id = geometryId.id && found.forward = geometryId.forward
  | none => false

/-- The loop over the weights of a geometry, from a sum on. -/
def sumWeights : ℤ → List ℕ → ℤ
  | newWeight, [] => newWeight
  | newWeight, weight :: weights =>
    if weight = invalidSegmentWeight then invalidEdgeWeight else sumWeights (add32 newWeight weight) weights

def computeNewWeightAndDuration (segmentData : ℕ → SegmentData) (geometryId : GeometryID) : ℤ × ℤ :=
  (sumWeights 0 ((segmentData geometryId.id).weights geometryId.forward),
    (((segmentData geometryId.id).durations geometryId.forward).sum : ℤ).bmod (2 ^ 32))

/-- What `update_edge` reads. -/
structure Context where
  geometryId : ℕ → GeometryID
  segmentData : ℕ → SegmentData
  updatedSegments : List GeometryID
  turnDurationPenalties : ℕ → ℤ

/-- What `update_edge` changes besides the edge. -/
structure State where
  nodeWeights : ℕ → NodeWeight
  nodeDurations : ℕ → ℤ
  turnWeightPenalties : ℕ → ℤ

/-- The weight of an edge without its turn and the penalty of the turn, as they are after clamping. The penalty is
stored in 16 bits. -/
def clampWeight (newWeight turnWeightPenalty weightMinValue : ℤ) : ℤ × ℤ :=
  if add32 turnWeightPenalty newWeight < weightMinValue then
    if turnWeightPenalty < 0 then (newWeight, (add32 weightMinValue (-newWeight)).bmod (2 ^ 16))
    else (weightMinValue, turnWeightPenalty)
  else (newWeight, turnWeightPenalty)

def updateEdge (context : Context) (state : State) (edge : EdgeBasedEdge) : EdgeBasedEdge × State :=
  let geometryId := context.geometryId edge.source
  if isUpdated context.updatedSegments geometryId then
    let (newWeight, newDuration) := computeNewWeightAndDuration context.segmentData geometryId
    let state := { state with
      nodeWeights := update state.nodeWeights edge.source ((state.nodeWeights edge.source).set newWeight)
      nodeDurations := update state.nodeDurations edge.source newDuration }
    if newWeight = invalidEdgeWeight then ({ edge with weight := invalidEdgeWeight }, state)
    else
      let turnDurationPenalty := context.turnDurationPenalties edge.turnId
      let weightMinValue := ((context.segmentData geometryId.id).geometry true).length
      let (newWeight, turnWeightPenalty) := clampWeight newWeight (state.turnWeightPenalties edge.turnId) weightMinValue
      ({ edge with weight := add32 newWeight turnWeightPenalty, duration := add32 newDuration turnDurationPenalty },
        { state with turnWeightPenalties := update state.turnWeightPenalties edge.turnId turnWeightPenalty })
  else (edge, state)

def updateEdges (context : Context) : State → List EdgeBasedEdge → List EdgeBasedEdge × State
  | state, [] => ([], state)
  | state, edge :: edges =>
    let (edge, state) := updateEdge context state edge
    let (edges, state) := updateEdges context state edges
    (edge :: edges, state)

/-- The edges, where there is an updated geometry. -/
def updateGraph (context : Context) (state : State) (edges : List EdgeBasedEdge) : List EdgeBasedEdge × State :=
  if context.updatedSegments.length > 0 then updateEdges context state edges else (edges, state)

/-- What the update returns, and the files as they are then. -/
structure Loaded where
  edges : List EdgeBasedEdge
  nodeWeights : ℕ → NodeWeight
  nodeDurations : ℕ → ℤ
  files : Files

namespace UpdaterConfig

variable (config : UpdaterConfig)

def updatesConditionalTurns : Bool := config.hasRestrictions && config.validNow ≠ 0

def updatesEdgeWeights : Bool := config.segmentSpeedLookupPaths ≠ 0

def updatesTurnPenalties : Bool := config.turnPenaltyLookupPaths ≠ 0

/-- Turn penalties are written back to their files. -/
def writesPenalties : Bool := config.updatesTurnPenalties || config.updatesConditionalTurns

end UpdaterConfig

namespace Files

variable (files : Files) (config : UpdaterConfig)

def speedUpdate : SpeedUpdate :=
  ⟨config.segmentSpeeds, files.osmNodeIds, files.segmentLength, files.weightMultiplier, config.numericCast⟩

/-- The first stage: segment data and updated geometries. -/
def updateSegments : Except Exception ((ℕ → SegmentData) × List GeometryID) :=
  if config.updatesEdgeWeights then
    match (files.speedUpdate config).updateSegmentData files.numberOfGeometries files.segmentData with
    | some updated => .ok updated
    | none => .error .badNumericCast
  else .ok (files.segmentData, [])

/-- The second stage: penalties and the turns whose penalties are in the table. -/
def updatePenalties : Except Exception ((ℕ → ℤ) × (ℕ → ℤ) × List ℕ) :=
  if config.updatesTurnPenalties then files.updateTurnPenalties config
  else .ok (files.turnWeightPenalties, files.turnDurationPenalties, [])

/-- The third stage: the turns with an active conditional restriction. -/
def updateConditionals : Except Exception (List ℕ) :=
  if config.updatesConditionalTurns then
    if config.validNow ≤ 0 then .error .invalidTime
    else updateConditionalTurns config files.conditionalTurns
  else .ok []

/-- The files after the update. Penalties are written only where turn penalties or conditional turns are updated. -/
def write (segmentData : ℕ → SegmentData) (turnWeightPenalties turnDurationPenalties : ℕ → ℤ) : Files :=
  { files with
    segmentData := segmentData
    turnWeightPenalties := if config.writesPenalties then turnWeightPenalties else files.turnWeightPenalties
    turnDurationPenalties := if config.writesPenalties then turnDurationPenalties else files.turnDurationPenalties }

def loadAndUpdateEdgeExpandedGraph : Except Exception Loaded :=
  if !config.updatesEdgeWeights && !config.updatesTurnPenalties && !config.updatesConditionalTurns then
    .ok ⟨files.edges, files.nodeWeights, files.nodeDurations, files⟩
  else if config.segmentSpeedLookupPaths + config.turnPenaltyLookupPaths > 255 then .error .tooManyFiles
  else do
    let (segmentData, updatedGeometries) ← files.updateSegments config
    let (turnWeightPenalties, turnDurationPenalties, updatedTurns) ← files.updatePenalties config
    let activeTurns ← files.updateConditionals config
    let turnWeightPenalties := fun turn => if activeTurns.contains turn then invalidTurnPenalty else turnWeightPenalties turn
    let updatedSegments := sortGeometries
      (updatedGeometries ++ updatedTurns.map files.geometryOfTurn ++ activeTurns.map files.geometryOfTurn)
    let updated := updateGraph ⟨files.geometryId, segmentData, updatedSegments, turnDurationPenalties⟩
      ⟨files.nodeWeights, files.nodeDurations, turnWeightPenalties⟩ files.edges
    return ⟨updated.1, updated.2.nodeWeights, updated.2.nodeDurations,
      files.write config segmentData updated.2.turnWeightPenalties turnDurationPenalties⟩

end Files

/-! ### The search and the sums -/

theorem mem_sortGeometries {geometries : List GeometryID} {g : GeometryID} : g ∈ sortGeometries geometries ↔ g ∈ geometries :=
  (perm_insertionSort _ geometries).mem_iff

/-- The order of geometries, as one of numbers. -/
def GeometryID.key (g : GeometryID) : ℕ := 2 * g.id + g.forward.toNat

theorem GeometryID.before_eq (a b : GeometryID) : a.before b = decide (a.key < b.key) := by
  obtain ⟨aId, aForward⟩ := a
  obtain ⟨bId, bForward⟩ := b
  rw [Bool.eq_iff_iff]
  cases aForward <;> cases bForward <;> simp [before, key] <;> omega

theorem GeometryID.key_injective {a b : GeometryID} (same : a.key = b.key) : a = b := by
  obtain ⟨aId, aForward⟩ := a
  obtain ⟨bId, bForward⟩ := b
  cases aForward <;> cases bForward <;> simp [key] at same ⊢ <;> omega

variable (geometries : List GeometryID)

theorem sorted_sortGeometries :
    (sortGeometries geometries).Pairwise fun a b => a.key ≤ b.key := by
  have order : (fun a b : GeometryID => ¬b.before a = true) = fun a b => a.key ≤ b.key := by
    funext a b
    rw [GeometryID.before_eq, decide_eq_true_eq, not_lt]
  have total : Std.Total fun a b : GeometryID => ¬b.before a = true := by
    rw [order]
    exact ⟨fun a b => le_total a.key b.key⟩
  have transitive : IsTrans GeometryID fun a b : GeometryID => ¬b.before a = true := by
    rw [order]
    exact ⟨fun _ _ _ => le_trans⟩
  have sorted := pairwise_insertionSort (fun a b : GeometryID => ¬b.before a = true) geometries
  refine Pairwise.imp ?_ sorted
  intro a b notBefore
  rwa [GeometryID.before_eq, decide_eq_true_eq, not_lt] at notBefore

theorem isUpdated_of_mem {g : GeometryID} : ∀ {geometries : List GeometryID},
    geometries.Pairwise (fun a b => a.key ≤ b.key) → g ∈ geometries → isUpdated geometries g = true
  | [], _, mem => absurd mem not_mem_nil
  | first :: rest, sorted, mem => by
    obtain ⟨least, sorted⟩ := pairwise_cons.1 sorted
    by_cases early : first.key < g.key
    · have later : g ∈ rest := by
        rcases mem_cons.1 mem with rfl | later
        · exact absurd early (lt_irrefl _)
        · exact later
      have found := isUpdated_of_mem sorted later
      rw [isUpdated] at found ⊢
      rwa [dropWhile_cons_of_pos (by rw [GeometryID.before_eq, decide_eq_true early])]
    · have here : first = g := by
        rcases mem_cons.1 mem with rfl | later
        · rfl
        · exact GeometryID.key_injective (le_antisymm (least g later) (not_lt.1 early))
      rw [isUpdated, dropWhile_cons_of_neg (by rw [GeometryID.before_eq, decide_eq_true_eq]; exact early), here]
      simp

/-- Sorting and searching find exactly the updated geometries. -/
theorem isUpdated_sortGeometries (g : GeometryID) :
    isUpdated (sortGeometries geometries) g = true ↔ g ∈ geometries := by
  rw [← mem_sortGeometries]
  constructor
  · intro found
    unfold isUpdated at found
    split at found
    · next x head =>
      have same : x = g := by
        cases x
        cases g
        simp_all
      rw [← same]
      exact (dropWhile_sublist _).subset (mem_of_mem_head? head)
    · cases found
  · exact isUpdated_of_mem (sorted_sortGeometries geometries)

/-- The loop over the weights gives their sum, or `INVALID_EDGE_WEIGHT` where one is invalid. -/
theorem sumWeights_eq : ∀ (start : ℤ) (weights : List ℕ), FitsInt start → sumWeights start weights =
    if invalidSegmentWeight ∈ weights then invalidEdgeWeight else (start + (weights.sum : ℕ)).bmod (2 ^ 32)
  | start, [], fits => by
    rw [sumWeights, if_neg not_mem_nil, sum_nil, Nat.cast_zero, add_zero, fits.wrap]
  | start, weight :: weights, _ => by
    have fits : FitsInt (add32 start weight) := fitsInt_wrap _
    rw [sumWeights, sumWeights_eq _ _ fits]
    by_cases invalid : weight = invalidSegmentWeight
    · simp [invalid]
    · simp only [invalid, if_false, mem_cons, Ne.symm invalid, false_or, sum_cons, Nat.cast_add, add32, Int.bmod_add_bmod, add_assoc]

/-! ### One edge and all edges -/

section Edges

variable (context : Context)

/-- The weight that an edge has after `update_edge`, where the penalty of its turn was `penalty`. -/
def Context.newWeight (penalty : ℤ) (edge : EdgeBasedEdge) : ℤ :=
  let geometryId := context.geometryId edge.source
  if isUpdated context.updatedSegments geometryId then
    let newWeight := (computeNewWeightAndDuration context.segmentData geometryId).1
    if newWeight = invalidEdgeWeight then invalidEdgeWeight
    else
      let clamped := clampWeight newWeight penalty ((context.segmentData geometryId.id).geometry true).length
      add32 clamped.1 clamped.2
  else edge.weight

/-- The penalty that the turn of an edge has then. -/
def Context.newPenalty (penalty : ℤ) (edge : EdgeBasedEdge) : ℤ :=
  let geometryId := context.geometryId edge.source
  if isUpdated context.updatedSegments geometryId then
    let newWeight := (computeNewWeightAndDuration context.segmentData geometryId).1
    if newWeight = invalidEdgeWeight then penalty
    else (clampWeight newWeight penalty ((context.segmentData geometryId.id).geometry true).length).2
  else penalty

variable {context} {state : State} {edge : EdgeBasedEdge}

/-- What `update_edge` does: the edge and its turn get their new values, its node the weight of its geometry, where that
was updated; nothing else changes. -/
structure Updates (context : Context) (state : State) (edge : EdgeBasedEdge) (after : EdgeBasedEdge × State) : Prop where
  weight : after.1.weight = context.newWeight (state.turnWeightPenalties edge.turnId) edge
  source : after.1.source = edge.source
  turnId : after.1.turnId = edge.turnId
  penalties : after.2.turnWeightPenalties =
    update state.turnWeightPenalties edge.turnId (context.newPenalty (state.turnWeightPenalties edge.turnId) edge)
  nodeWeights : ∀ node, (after.2.nodeWeights node).weight =
    if node = edge.source ∧ isUpdated context.updatedSegments (context.geometryId node) then
      (computeNewWeightAndDuration context.segmentData (context.geometryId node)).1 % 2 ^ 31
    else (state.nodeWeights node).weight

theorem updates_updateEdge : Updates context state edge (updateEdge context state edge) := by
  cases updated : isUpdated context.updatedSegments (context.geometryId edge.source) with
  | false =>
    have same : updateEdge context state edge = (edge, state) := by simp [updateEdge, updated]
    rw [same]
    refine ⟨by simp [Context.newWeight, updated], rfl, rfl, by simp [Context.newPenalty, updated], fun node => ?_⟩
    rw [if_neg]
    rintro ⟨rfl, here⟩
    rw [updated] at here
    cases here
  | true =>
    have node (nodes : ℕ → NodeWeight) (weight : ℤ) (node : ℕ) :
        (update nodes edge.source ((nodes edge.source).set weight) node).weight =
          if node = edge.source then weight % 2 ^ 31 else (nodes node).weight := by
      rw [update_apply]
      split <;> rfl
    have nodeWeights (weight : ℤ) (same : weight = (computeNewWeightAndDuration context.segmentData
        (context.geometryId edge.source)).1) (n : ℕ) : (if n = edge.source then weight % 2 ^ 31 else (state.nodeWeights n).weight) =
          if n = edge.source ∧ isUpdated context.updatedSegments (context.geometryId n) then
            (computeNewWeightAndDuration context.segmentData (context.geometryId n)).1 % 2 ^ 31
          else (state.nodeWeights n).weight := by
      by_cases here : n = edge.source
      · subst here
        simp [updated, same]
      · simp [here]
    by_cases invalid : (computeNewWeightAndDuration context.segmentData (context.geometryId edge.source)).1 = invalidEdgeWeight
    all_goals
      refine ⟨?_, ?_, ?_, ?_, fun n => ?_⟩
      · simp [updateEdge, Context.newWeight, updated, invalid]
      · simp [updateEdge, updated, invalid]
      · simp [updateEdge, updated, invalid]
      · simp [updateEdge, Context.newPenalty, updated, invalid]
      · rw [← nodeWeights _ rfl, ← node]
        simp [updateEdge, updated, invalid]

/-- What the loop over the edges does, where each edge has a turn of its own. -/
structure UpdatesAll (context : Context) (state : State) (edges : List EdgeBasedEdge) (after : List EdgeBasedEdge × State) :
    Prop where
  length : after.1.length = edges.length
  each : ∀ (i : ℕ) (edge : EdgeBasedEdge), edges[i]? = some edge → ∃ edge', after.1[i]? = some edge' ∧
    edge'.weight = context.newWeight (state.turnWeightPenalties edge.turnId) edge ∧ edge'.source = edge.source ∧
      edge'.turnId = edge.turnId
  penalties : ∀ edge ∈ edges, after.2.turnWeightPenalties edge.turnId =
    context.newPenalty (state.turnWeightPenalties edge.turnId) edge
  otherPenalties : ∀ turn, (∀ edge ∈ edges, edge.turnId ≠ turn) →
    after.2.turnWeightPenalties turn = state.turnWeightPenalties turn
  nodeWeights : ∀ node, (∃ edge ∈ edges, edge.source = node) →
    (after.2.nodeWeights node).weight =
      if isUpdated context.updatedSegments (context.geometryId node) then
        (computeNewWeightAndDuration context.segmentData (context.geometryId node)).1 % 2 ^ 31
      else (state.nodeWeights node).weight
  otherNodes : ∀ node, (∀ edge ∈ edges, edge.source ≠ node) →
    (after.2.nodeWeights node).weight = (state.nodeWeights node).weight

theorem updatesAll_updateEdges : ∀ {edges : List EdgeBasedEdge} {state : State}, (edges.map EdgeBasedEdge.turnId).Nodup →
    UpdatesAll context state edges (updateEdges context state edges)
  | [], state, _ => by
    refine ⟨rfl, fun i edge found => ?_, fun _ mem => absurd mem not_mem_nil, fun _ _ => rfl, fun node some => ?_,
      fun _ _ => rfl⟩
    · cases found
    · obtain ⟨edge, mem, -⟩ := some
      cases mem
  | edge :: edges, state, distinct => by
    obtain ⟨fresh, distinct⟩ := nodup_cons.1 distinct
    have first : Updates context state edge (updateEdge context state edge) := updates_updateEdge
    have rest : UpdatesAll context (updateEdge context state edge).2 edges _ := updatesAll_updateEdges distinct
    have other : ∀ later ∈ edges, later.turnId ≠ edge.turnId := fun later mem same =>
      fresh (same ▸ mem_map_of_mem mem)
    have kept : ∀ turn, turn ≠ edge.turnId →
        (updateEdge context state edge).2.turnWeightPenalties turn = state.turnWeightPenalties turn := fun turn apart => by
      rw [first.penalties, update_of_ne apart]
    refine ⟨congrArg (· + 1) rest.length, ?_, ?_, ?_, ?_, ?_⟩
    · intro i later found
      cases i with
      | zero =>
        cases found
        exact ⟨_, rfl, first.weight, first.source, first.turnId⟩
      | succ i =>
        rw [← kept _ (other later (mem_of_getElem? found))]
        exact rest.each i later found
    · intro later mem
      rcases mem_cons.1 mem with rfl | mem
      · rw [← update_self later.turnId (context.newPenalty (state.turnWeightPenalties later.turnId) later)
          state.turnWeightPenalties, ← first.penalties]
        exact rest.otherPenalties _ other
      · rw [← kept _ (other later mem)]
        exact rest.penalties later mem
    · intro turn apart
      rw [← kept turn fun same => apart edge mem_cons_self same.symm]
      exact rest.otherPenalties turn fun later mem => apart later (mem_cons_of_mem _ mem)
    · intro node some
      by_cases later : ∃ later ∈ edges, later.source = node
      · refine (rest.nodeWeights node later).trans ?_
        rw [first.nodeWeights]
        split
        · rfl
        · next notUpdated => rw [if_neg fun here => notUpdated here.2]
      · have here : node = edge.source := by
          obtain ⟨found, mem, rfl⟩ := some
          rcases mem_cons.1 mem with rfl | mem
          · rfl
          · exact absurd ⟨found, mem, rfl⟩ later
        have last := rest.otherNodes node fun found mem same => later ⟨found, mem, same⟩
        rw [first.nodeWeights] at last
        simp only [here, true_and] at last ⊢
        exact last
    · intro node none
      have notFirst : ¬(node = edge.source ∧ isUpdated context.updatedSegments (context.geometryId node) = true) := fun here =>
        none edge mem_cons_self here.1.symm
      rw [← (first.nodeWeights node).trans (if_neg notFirst)]
      exact rest.otherNodes node fun later mem => none later (mem_cons_of_mem _ mem)

theorem updatesAll_updateGraph {edges : List EdgeBasedEdge} (distinct : (edges.map EdgeBasedEdge.turnId).Nodup) :
    UpdatesAll context state edges (updateGraph context state edges) := by
  rw [updateGraph]
  split_ifs with none
  · exact updatesAll_updateEdges distinct
  · have empty := length_eq_zero_iff.1 (Nat.eq_zero_of_not_pos none)
    have notUpdated (g : GeometryID) : isUpdated context.updatedSegments g = false := by rw [empty]; rfl
    refine ⟨rfl, fun i edge found => ⟨edge, found, ?_, rfl, rfl⟩, fun edge _ => ?_, fun _ _ => rfl, fun node _ => ?_, fun _ _ => rfl⟩
    · simp [Context.newWeight, notUpdated]
    · simp [Context.newPenalty, notUpdated]
    · simp [notUpdated]

end Edges

end Osrm.Updater
