import Osrm.Updater.Updater
import Osrm.Lib.Failure

/-!
# What an update loads and stores

The stages of `LoadAndUpdateEdgeExpandedGraph` put together: the weights of all edges, the node
weights and the files after an update, as functions of the files and the configuration before it.
-/

namespace Osrm.Updater

open List

open Extractor

namespace Files

variable (files : Files) (config : UpdaterConfig)

/-- The turn has a conditional restriction that is active. -/
def isActive (turn : ℕ) : Bool :=
  config.updatesConditionalTurns && files.conditionalTurns.any fun penalty =>
    penalty.turnOffset = turn && (match isRestrictionValid config penalty with
      | .ok valid => valid
      | .error _ => false)

/-- The turn is in the table of turn penalties. -/
def isListed (turn : ℕ) : Bool := config.updatesTurnPenalties && (files.penaltySource config turn).isSome

/-- The directed geometry has a listed segment, or a turn from it has a listed or an invalid penalty. -/
def geometryUpdated (geometryId : GeometryID) : Bool :=
  (config.updatesEdgeWeights && geometryId.id < files.numberOfGeometries &&
    (files.speedUpdate config).wasUpdated (files.segmentData geometryId.id) geometryId.forward) ||
  files.edges.any fun edge =>
    files.geometryId edge.source = geometryId && (files.isListed config edge.turnId || files.isActive config edge.turnId)

/-- The weights of the segments of a directed geometry, with those of the listed segments. -/
def weightsAfter (geometryId : GeometryID) : List ℕ :=
  if config.updatesEdgeWeights && geometryId.id < files.numberOfGeometries then
    (files.speedUpdate config).listedWeights (files.segmentData geometryId.id) geometryId.forward
  else (files.segmentData geometryId.id).weights geometryId.forward

/-- The penalty of a turn, from the table or the restrictions. -/
def penaltyAfter (turn : ℕ) : ℤ :=
  if files.isActive config turn then invalidTurnPenalty
  else if config.updatesTurnPenalties then files.listedPenalty config Prod.fst files.turnWeightPenalties turn
  else files.turnWeightPenalties turn

/-- The sum of the segments that an edge starts with, `INVALID_EDGE_WEIGHT` where one is invalid. -/
def sumAfter (edge : EdgeBasedEdge) : ℤ := sumWeights 0 (files.weightsAfter config (files.geometryId edge.source))

/-- The weight of an edge from an updated geometry without invalid segment, and the penalty of its turn. -/
def clamped (edge : EdgeBasedEdge) : ℤ × ℤ :=
  clampWeight (files.sumAfter config edge) (files.penaltyAfter config edge.turnId)
    (files.segmentData (files.geometryId edge.source).id).nodes.length

/-- What an update loads and stores, as a function of the files and the configuration. -/
structure Outcome (loaded : Loaded) : Prop where
  length : loaded.edges.length = files.edges.length
  each : ∀ (i : ℕ) (edge : EdgeBasedEdge), files.edges[i]? = some edge → ∃ edge', loaded.edges[i]? = some edge' ∧
    edge'.source = edge.source ∧ edge'.turnId = edge.turnId ∧ edge'.weight =
      if files.geometryUpdated config (files.geometryId edge.source) then
        if files.sumAfter config edge = invalidEdgeWeight then invalidEdgeWeight
        else add32 (files.clamped config edge).1 (files.clamped config edge).2
      else edge.weight
  segments : ∀ geometryId : GeometryID, (loaded.files.segmentData geometryId.id).weights geometryId.forward =
    files.weightsAfter config geometryId
  penalties : ∀ edge ∈ files.edges, loaded.files.turnWeightPenalties edge.turnId =
    if config.writesPenalties then
      if files.geometryUpdated config (files.geometryId edge.source) ∧ files.sumAfter config edge ≠ invalidEdgeWeight then
        (files.clamped config edge).2
      else files.penaltyAfter config edge.turnId
    else files.turnWeightPenalties edge.turnId
  nodeWeights : ∀ edge ∈ files.edges, (loaded.nodeWeights edge.source).weight =
    if files.geometryUpdated config (files.geometryId edge.source) then files.sumAfter config edge % 2 ^ 31
    else (files.nodeWeights edge.source).weight

variable {files config}
  {penalties : (ℕ → ℤ) × (ℕ → ℤ) × List ℕ} {updated : (ℕ → SegmentData) × List GeometryID} {edge : EdgeBasedEdge}
    {active : List ℕ} {turn : ℕ}

/-- The first stage sets the weights of the listed segments and finds the geometries that have some. -/
theorem updateSegments_ok (done : files.updateSegments config = .ok updated) :
    (∀ geometryId : GeometryID, (updated.1 geometryId.id).weights geometryId.forward = files.weightsAfter config geometryId) ∧
      (∀ id, (updated.1 id).nodes = (files.segmentData id).nodes) ∧
      ∀ geometryId : GeometryID, geometryId ∈ updated.2 ↔ config.updatesEdgeWeights ∧ geometryId.id < files.numberOfGeometries ∧
        (files.speedUpdate config).wasUpdated (files.segmentData geometryId.id) geometryId.forward := by
  rw [updateSegments] at done
  cases updates : config.updatesEdgeWeights with
  | false =>
    rw [updates] at done
    cases done
    refine ⟨fun geometryId => ?_, fun _ => rfl, fun geometryId => ?_⟩
    · simp [weightsAfter, updates]
    · simp
  | true =>
    rw [if_pos updates, SpeedUpdate.updateSegmentData] at done
    split at done
    · next result found =>
      split at found
      · cases found
        cases done
        refine ⟨fun geometryId => ?_, fun id => ?_, fun geometryId => ?_⟩
        · by_cases inside : geometryId.id < files.numberOfGeometries
          · simp [weightsAfter, updates, inside, SpeedUpdate.updateGeometry_weights]
          · simp [weightsAfter, inside]
        · simp only
          split <;> rfl
        · obtain ⟨id, forward⟩ := geometryId
          simp only [mem_flatMap, mem_range, mem_filterMap, Option.ite_none_right_eq_some, Option.some.injEq,
            GeometryID.mk.injEq]
          constructor
          · rintro ⟨_, inside, dir, -, listed, rfl, rfl⟩
            exact ⟨trivial, inside, listed⟩
          · rintro ⟨-, inside, listed⟩
            exact ⟨id, inside, forward, by cases forward <;> simp, listed, rfl, rfl⟩
      · cases found
    · cases done

theorem updatePenalties_ok (done : files.updatePenalties config = .ok penalties) :
    (∀ turn, penalties.1 turn = if config.updatesTurnPenalties then
      files.listedPenalty config Prod.fst files.turnWeightPenalties turn else files.turnWeightPenalties turn) ∧
    ∀ turn, turn ∈ penalties.2.2 ↔ turn < files.edges.length ∧ files.isListed config turn := by
  rw [updatePenalties] at done
  cases updates : config.updatesTurnPenalties with
  | false =>
    rw [updates] at done
    cases done
    exact ⟨fun turn => rfl, fun turn => by simp [isListed, updates]⟩
  | true =>
    rw [if_pos updates, updateTurnPenalties] at done
    split at done
    · cases done
      exact ⟨fun turn => rfl, fun turn => by simp [isListed, updates]⟩
    · cases done

/-- The third stage finds the turns with an active restriction. -/
theorem updateConditionalTurns_ok : ∀ {penalties : List ConditionalTurnPenalty} {active : List ℕ},
    updateConditionalTurns config penalties = .ok active → ∀ turn, turn ∈ active ↔
      ∃ penalty ∈ penalties, penalty.turnOffset = turn ∧ isRestrictionValid config penalty = .ok true
  | [], active, done, turn => by
    cases done
    simp
  | penalty :: penalties, active, done, turn => by
    obtain ⟨valid, decided, done⟩ := Lib.bind_eq_ok done
    obtain ⟨later, rest, done⟩ := Lib.bind_eq_ok done
    have laterIff := updateConditionalTurns_ok rest turn
    cases done
    cases valid with
    | true => simp [laterIff, decided, eq_comm]
    | false => simp [laterIff, decided]

theorem isActive_iff : files.isActive config turn = true ↔ config.updatesConditionalTurns = true ∧
    ∃ penalty ∈ files.conditionalTurns, penalty.turnOffset = turn ∧ isRestrictionValid config penalty = .ok true := by
  have valid (penalty : ConditionalTurnPenalty) : (match isRestrictionValid config penalty with
      | .ok valid => valid
      | .error _ => false) = true ↔ isRestrictionValid config penalty = .ok true := by
    cases isRestrictionValid config penalty <;> simp
  simp [isActive, valid]

theorem updateConditionals_ok (done : files.updateConditionals config = .ok active) (turn : ℕ) :
    turn ∈ active ↔ files.isActive config turn := by
  rw [updateConditionals] at done
  cases updates : config.updatesConditionalTurns with
  | false =>
    rw [updates] at done
    cases done
    simp [isActive, updates]
  | true =>
    rw [if_pos updates] at done
    split at done
    · cases done
    · rw [updateConditionalTurns_ok done, isActive_iff, updates]
      exact ⟨fun found => ⟨rfl, found⟩, fun both => both.2⟩

theorem getElem?_turnId (mem : edge ∈ files.edges) : files.edges[edge.turnId]? = some edge := by
  obtain ⟨i, inside, rfl⟩ := mem_iff_getElem.1 mem
  rw [files.turnIds i inside, getElem?_eq_getElem inside]

theorem geometryOfTurn_turnId (mem : edge ∈ files.edges) :
    files.geometryOfTurn edge.turnId = files.geometryId edge.source := by
  rw [geometryOfTurn, getElem?_turnId mem]

/-- An active turn is that of an edge: restrictions are indexed by the edges. -/
theorem exists_edge_of_isActive (active : files.isActive config turn = true) :
    ∃ edge ∈ files.edges, edge.turnId = turn := by
  obtain ⟨-, penalty, mem, rfl, -⟩ := isActive_iff.1 active
  simp only [conditionalTurns, indexConditionals, mem_flatMap, mem_map] at mem
  obtain ⟨edge, mem, conditional, -, rfl⟩ := mem
  exact ⟨edge, mem, rfl⟩

/-- The list of updated geometries holds exactly these. -/
theorem mem_updated
    (first : files.updateSegments config = .ok updated) (second : files.updatePenalties config = .ok penalties)
    (third : files.updateConditionals config = .ok active) (g : GeometryID) :
    g ∈ updated.2 ++ penalties.2.2.map files.geometryOfTurn ++ active.map files.geometryOfTurn ↔
      files.geometryUpdated config g = true := by
  have segments := (updateSegments_ok first).2.2 g
  have listed := (updatePenalties_ok second).2
  have actives := updateConditionals_ok third
  have turns (P : ℕ → Bool) (turns : List ℕ) (same : ∀ turn, turn ∈ turns ↔ turn < files.edges.length ∧ P turn) :
      g ∈ turns.map files.geometryOfTurn ↔ ∃ edge ∈ files.edges, files.geometryId edge.source = g ∧ P edge.turnId := by
    rw [mem_map]
    constructor
    · rintro ⟨turn, mem, rfl⟩
      obtain ⟨inside, holds⟩ := (same turn).1 mem
      have edge := getElem_mem inside
      have place := files.turnIds turn inside
      refine ⟨files.edges[turn], edge, ?_, place.symm ▸ holds⟩
      rw [← geometryOfTurn_turnId edge, place]
    · rintro ⟨edge, mem, rfl, holds⟩
      refine ⟨edge.turnId, (same _).2 ⟨?_, holds⟩, geometryOfTurn_turnId mem⟩
      exact (List.getElem?_eq_some_iff.1 (getElem?_turnId mem)).1
  have activeTurns : ∀ turn, turn ∈ active ↔ turn < files.edges.length ∧ files.isActive config turn = true := by
    intro turn
    rw [actives]
    refine ⟨fun here => ⟨?_, here⟩, fun here => here.2⟩
    obtain ⟨edge, mem, rfl⟩ := exists_edge_of_isActive here
    exact (List.getElem?_eq_some_iff.1 (getElem?_turnId mem)).1
  rw [mem_append, mem_append, segments, turns _ _ listed, turns _ _ activeTurns, geometryUpdated]
  simp only [Bool.or_eq_true, Bool.and_eq_true, any_eq_true, decide_eq_true_eq]
  constructor
  · rintro ((⟨updates, inside, here⟩ | ⟨edge, mem, same, here⟩) | ⟨edge, mem, same, here⟩)
    · exact .inl ⟨⟨updates, inside⟩, here⟩
    · exact .inr ⟨edge, mem, same, .inl here⟩
    · exact .inr ⟨edge, mem, same, .inr here⟩
  · rintro (⟨⟨updates, inside⟩, here⟩ | ⟨edge, mem, same, here | here⟩)
    · exact .inl (.inl ⟨updates, inside, here⟩)
    · exact .inl (.inr ⟨edge, mem, same, here⟩)
    · exact .inr ⟨edge, mem, same, here⟩

theorem turnIds_nodup : (files.edges.map EdgeBasedEdge.turnId).Nodup := by
  have places : files.edges.map EdgeBasedEdge.turnId = range files.edges.length := by
    apply ext_getElem
    · simp
    · intro i inside _
      rw [getElem_map, getElem_range]
      exact files.turnIds i (by simpa using inside)
  rw [places]
  exact nodup_range

/-- Without updates nothing is updated. -/
theorem outcome_of_no_update (weights : config.updatesEdgeWeights = false) (penalties : config.updatesTurnPenalties = false)
    (conditional : config.updatesConditionalTurns = false) :
    files.Outcome config ⟨files.edges, files.nodeWeights, files.nodeDurations, files⟩ := by
  have notUpdated (g : GeometryID) : files.geometryUpdated config g = false := by
    simp [geometryUpdated, isListed, isActive, weights, penalties, conditional]
  refine ⟨rfl, fun i edge found => ⟨edge, found, rfl, rfl, ?_⟩, fun g => ?_, fun edge mem => ?_, fun edge mem => ?_⟩
  · simp [notUpdated]
  · simp [weightsAfter, weights]
  · simp [UpdaterConfig.writesPenalties, penalties, conditional]
  · simp [notUpdated]

/-- The edges after all stages. -/
theorem outcome_of_stages {segmentData : ℕ → SegmentData} {updatedSegments : List GeometryID} {penalties durations : ℕ → ℤ}
    {after : List EdgeBasedEdge × State}
    (segments : ∀ g : GeometryID, (segmentData g.id).weights g.forward = files.weightsAfter config g)
    (nodes : ∀ id, (segmentData id).nodes = (files.segmentData id).nodes)
    (updated : ∀ g, isUpdated updatedSegments g = true ↔ files.geometryUpdated config g = true)
    (before : ∀ turn, penalties turn = files.penaltyAfter config turn)
    (all : UpdatesAll ⟨files.geometryId, segmentData, updatedSegments, durations⟩ ⟨files.nodeWeights, files.nodeDurations, penalties⟩
      files.edges after) :
    files.Outcome config ⟨after.1, after.2.nodeWeights, after.2.nodeDurations,
      files.write config segmentData after.2.turnWeightPenalties durations⟩ := by
  have same (g : GeometryID) : isUpdated updatedSegments g = files.geometryUpdated config g := Bool.eq_iff_iff.2 (updated g)
  have length (id : ℕ) : ((segmentData id).geometry true).length = (files.segmentData id).nodes.length :=
    congrArg length (nodes id)
  refine ⟨all.length, fun i edge found => ?_, segments, fun edge mem => ?_, fun edge mem => ?_⟩
  · obtain ⟨edge', found', weight, source, turnId⟩ := all.each i edge found
    refine ⟨edge', found', source, turnId, weight.trans ?_⟩
    simp only [Context.newWeight, same, computeNewWeightAndDuration, segments, length, before]
    rfl
  · have last := all.penalties edge mem
    simp only [Context.newPenalty, same, computeNewWeightAndDuration, segments, length, before] at last
    simp only [write]
    split
    · rw [last]
      by_cases here : files.geometryUpdated config (files.geometryId edge.source) = true
      · by_cases valid : files.sumAfter config edge = invalidEdgeWeight
        · rw [if_pos here]
          exact (if_pos valid).trans (if_neg fun both => both.2 valid).symm
        · rw [if_pos here]
          exact (if_neg valid).trans (if_pos ⟨here, valid⟩).symm
      · rw [if_neg here, if_neg fun both => here both.1]
    · rfl
  · have node := all.nodeWeights edge.source ⟨edge, mem, rfl⟩
    simp only [same, computeNewWeightAndDuration, segments] at node
    exact node

/-- **What an update loads and stores.** -/
theorem outcome_of_ok {loaded : Loaded} (done : files.loadAndUpdateEdgeExpandedGraph config = .ok loaded) :
    files.Outcome config loaded := by
  rw [loadAndUpdateEdgeExpandedGraph] at done
  split at done
  · next none =>
    cases done
    simp only [Bool.and_eq_true, Bool.not_eq_true'] at none
    exact outcome_of_no_update none.1.1 none.1.2 none.2
  · split at done
    · cases done
    · obtain ⟨updated, first, done⟩ := Lib.bind_eq_ok done
      obtain ⟨penalties, second, done⟩ := Lib.bind_eq_ok done
      obtain ⟨active, third, done⟩ := Lib.bind_eq_ok done
      obtain ⟨weights, nodes, -⟩ := updateSegments_ok first
      cases done
      refine outcome_of_stages weights nodes (fun g => ?_) (fun turn => ?_) (updatesAll_updateGraph turnIds_nodup)
      · exact (isUpdated_sortGeometries _ g).trans (mem_updated first second third g)
      · rw [penaltyAfter, (updatePenalties_ok second).1]
        simp [updateConditionals_ok third]

end Files

end Osrm.Updater
