import Osrm.Updater.Outcome

/-!
# Edge weights, node weights and penalties

The contractor routes by the weights of the edges, the customizer's engine by the weights of the
nodes and the stored penalties of the turns. Before an update an edge weighs as much as its source
and its turn. After one, this depends on how the weight was clamped: a clamped sum is not passed on
to the node weight, and a clamped penalty only reaches the file where penalties are written at all.
-/

namespace Osrm.Updater

open Extractor

/-- Each edge weighs as much as its source and its turn. -/
def Files.Consistent (files : Files) : Prop :=
  ∀ edge ∈ files.edges, edge.weight = (files.nodeWeights edge.source).weight + files.turnWeightPenalties edge.turnId

/-- What is to hold of an edge after an update. -/
structure Agrees (files : Files) (config : UpdaterConfig) (loaded : Loaded) (edge edge' : EdgeBasedEdge) : Prop where
  valid : invalidSegmentWeight ∉ (loaded.files.segmentData (files.geometryId edge.source).id).weights
      (files.geometryId edge.source).forward →
    edge'.weight = (loaded.nodeWeights edge.source).weight + loaded.files.turnWeightPenalties edge.turnId ∧ 1 ≤ edge'.weight
  invalid : files.geometryUpdated config (files.geometryId edge.source) = true →
    invalidSegmentWeight ∈ (loaded.files.segmentData (files.geometryId edge.source).id).weights
      (files.geometryId edge.source).forward → edge'.weight = invalidEdgeWeight
  kept : files.geometryUpdated config (files.geometryId edge.source) = false → edge'.weight = edge.weight

/-- A penalty is a 16-bit integer. -/
def FitsPenalty (penalty : ℤ) : Prop := -2 ^ 15 ≤ penalty ∧ penalty < 2 ^ 15

/-- The segments that an edge starts with and the number of their nodes, with any penalty, are 32-bit integers. -/
def Files.SumsFit (files : Files) (config : UpdaterConfig) (edge : EdgeBasedEdge) : Prop :=
  (files.weightsAfter config (files.geometryId edge.source)).sum + 2 ^ 15 < 2 ^ 31 ∧
    (files.segmentData (files.geometryId edge.source).id).nodes.length + 2 ^ 15 < 2 ^ 31

/-- The penalty, in 16 bits, that makes a sum of weights up to the least weight. -/
def makesUp (least sum : ℤ) : ℤ := Int.bmod (least - sum) (2 ^ 16)

/-- The edge is not clamped, or only its penalty is and is stored; an edge that is not updated has a positive weight. -/
def Files.Settled (files : Files) (config : UpdaterConfig) (edge : EdgeBasedEdge) : Prop :=
  let geometryId := files.geometryId edge.source
  let sum : ℤ := (files.weightsAfter config geometryId).sum
  let penalty := files.penaltyAfter config edge.turnId
  let least : ℤ := (files.segmentData geometryId.id).nodes.length
  invalidSegmentWeight ∉ files.weightsAfter config geometryId →
    if files.geometryUpdated config geometryId then
      sum + penalty < least →
        penalty < 0 ∧ (config.writesPenalties = true ∨ makesUp least sum = penalty) ∧ 1 ≤ sum + makesUp least sum
    else 1 ≤ edge.weight

section Consistency

variable {files : Files} {config : UpdaterConfig}

theorem penaltyAfter_of_not_written (notWritten : config.writesPenalties = false) (turn : ℕ) :
    files.penaltyAfter config turn = files.turnWeightPenalties turn := by
  simp only [UpdaterConfig.writesPenalties, Bool.or_eq_false_iff] at notWritten
  simp [Files.penaltyAfter, Files.isActive, notWritten.1, notWritten.2]

/-- An edge that is not updated keeps its source, its turn and their weights. -/
theorem penaltyAfter_of_not_updated {edge : EdgeBasedEdge} (mem : edge ∈ files.edges)
    (kept : files.geometryUpdated config (files.geometryId edge.source) = false) :
    files.penaltyAfter config edge.turnId = files.turnWeightPenalties edge.turnId := by
  simp only [Files.geometryUpdated, Bool.or_eq_false_iff, List.any_eq_false] at kept
  have none := kept.2 edge mem
  simp only [decide_true, Bool.true_and, Bool.or_eq_true, not_or, Bool.not_eq_true] at none
  obtain ⟨notListed, notActive⟩ := none
  rw [Files.penaltyAfter, notActive, if_neg Bool.false_ne_true]
  split_ifs with updates
  · rw [Files.isListed, updates, Bool.true_and, Option.isSome_eq_false_iff, Option.isNone_iff_eq_none] at notListed
    rw [Files.listedPenalty, notListed]
  · rfl

/-- The penalties of the table come out of a cast to 16 bits. -/
theorem fitsPenalty_penaltyAfter (typed : ∀ turn, FitsPenalty (files.turnWeightPenalties turn)) (turn : ℕ) :
    FitsPenalty (files.penaltyAfter config turn) := by
  unfold Files.penaltyAfter
  split_ifs
  · exact ⟨by decide, by decide⟩
  · unfold Files.listedPenalty
    split
    · next value _ =>
      cases converted : convertToPenalty config.numericCast files.weightMultiplier value with
      | none => exact typed turn
      | some penalty =>
        obtain ⟨duration, -, both⟩ := Option.bind_eq_some_iff.1 converted
        obtain ⟨weight, cast, both⟩ := Option.bind_eq_some_iff.1 both
        cases both
        exact ((config.numericCast.toPenalty_eq_some_iff _ _).1 cast).2
    · exact typed turn
  · exact typed turn

/-- What clamping does to the sum of a node weight and a penalty. -/
theorem clampWeight_agrees_iff {sum penalty least : ℤ} (two : 2 ≤ least) (written : Bool) (typed : FitsPenalty penalty)
    (low : 0 ≤ sum) (fits : sum + 2 ^ 15 < 2 ^ 31) (few : least + 2 ^ 15 < 2 ^ 31) :
    (add32 (clampWeight sum penalty least).1 (clampWeight sum penalty least).2 =
        sum + (if written then (clampWeight sum penalty least).2 else penalty) ∧
      1 ≤ add32 (clampWeight sum penalty least).1 (clampWeight sum penalty least).2) ↔
    (sum + penalty < least →
      penalty < 0 ∧ (written = true ∨ makesUp least sum = penalty) ∧ 1 ≤ sum + makesUp least sum) := by
  obtain ⟨lower, upper⟩ := typed
  have exact {weight turn : ℤ} (low : 0 ≤ weight) (fits : weight + 2 ^ 15 < 2 ^ 31) (typed : FitsPenalty turn) :
      add32 weight turn = weight + turn := by
    obtain ⟨lower, upper⟩ := typed
    exact FitsInt.wrap ⟨by omega, by omega⟩
  have added : add32 penalty sum = sum + penalty := by
    rw [add32, Int.add_comm]
    exact exact low fits ⟨lower, upper⟩
  by_cases short : sum + penalty < least
  · by_cases negative : penalty < 0
    · have clamped : clampWeight sum penalty least = (sum, makesUp least sum) := by
        rw [clampWeight, added, if_pos short, if_pos negative, makesUp, add32, ← sub_eq_add_neg,
          Int.bmod_bmod_of_dvd (Nat.pow_dvd_pow 2 (by decide))]
      have madeUp : FitsPenalty (makesUp least sum) :=
        ⟨@Int.le_bmod _ (2 ^ 16) (by decide), @Int.bmod_lt _ (2 ^ 16) (by decide)⟩
      rw [clamped, exact low fits madeUp]
      simp only [short, negative, true_and, true_implies]
      apply and_congr_left'
      cases written <;> simp
    · have clamped : clampWeight sum penalty least = (least, penalty) := by
        rw [clampWeight, added, if_pos short, if_neg negative]
      rw [clamped, exact (by omega) few ⟨lower, upper⟩]
      constructor
      · intro same
        omega
      · intro fine
        exact absurd (fine short).1 negative
  · have clamped : clampWeight sum penalty least = (sum, penalty) := by
      rw [clampWeight, added, if_neg short]
    rw [clamped, ite_self, exact low fits ⟨lower, upper⟩]
    exact ⟨fun _ below => absurd below short, fun _ => ⟨rfl, by omega⟩⟩

/-- A sum of segments in range is neither cut off nor taken for the invalid weight. -/
theorem Files.SumsFit.sumAfter {edge : EdgeBasedEdge} (fits : files.SumsFit config edge)
    (valid : invalidSegmentWeight ∉ files.weightsAfter config (files.geometryId edge.source)) :
    files.sumAfter config edge = (files.weightsAfter config (files.geometryId edge.source)).sum ∧
      files.sumAfter config edge % 2 ^ 31 = (files.weightsAfter config (files.geometryId edge.source)).sum ∧
      files.sumAfter config edge ≠ invalidEdgeWeight := by
  have small := fits.1
  have inRange : FitsInt ((files.weightsAfter config (files.geometryId edge.source)).sum : ℤ) := ⟨by omega, by omega⟩
  have sum : files.sumAfter config edge = (files.weightsAfter config (files.geometryId edge.source)).sum := by
    rw [Files.sumAfter, sumWeights_eq _ _ (by decide), if_neg valid, zero_add, inRange.wrap]
  rw [sum]
  refine ⟨rfl, Int.emod_eq_of_lt (Int.natCast_nonneg _) inRange.2, ?_⟩
  rw [invalidEdgeWeight]
  omega

/-- One edge after an update. -/
theorem agrees_iff_settled (consistent : files.Consistent) (typed : ∀ turn, FitsPenalty (files.turnWeightPenalties turn))
    {loaded : Loaded} (outcome : files.Outcome config loaded) {i : ℕ} {edge edge' : EdgeBasedEdge}
    (fits : files.SumsFit config edge) (found : files.edges[i]? = some edge) (found' : loaded.edges[i]? = some edge') :
    Agrees files config loaded edge edge' ↔ files.Settled config edge := by
  have mem := List.mem_of_getElem? found
  obtain ⟨same, here, -, -, weight⟩ := outcome.each i edge found
  cases found'.symm.trans here
  have segments := outcome.segments (files.geometryId edge.source)
  have penalty := outcome.penalties edge mem
  have node := outcome.nodeWeights edge mem
  rw [Files.Settled]
  cases updated : files.geometryUpdated config (files.geometryId edge.source) with
  | false =>
    simp only [updated, Bool.false_eq_true, if_false] at weight node penalty ⊢
    have turn : loaded.files.turnWeightPenalties edge.turnId = files.turnWeightPenalties edge.turnId := by
      rw [penalty, penaltyAfter_of_not_updated mem updated]
      split <;> rfl
    constructor
    · intro agrees valid
      exact weight ▸ (agrees.valid (segments ▸ valid)).2
    · intro positive
      refine ⟨fun valid => ⟨?_, weight ▸ positive (segments ▸ valid)⟩, fun updated' => ?_, fun _ => weight⟩
      · rw [weight, node, turn]
        exact consistent edge mem
      · rw [updated] at updated'
        cases updated'
  | true =>
    simp only [updated, true_and, if_true] at weight node penalty ⊢
    by_cases invalid : invalidSegmentWeight ∈ files.weightsAfter config (files.geometryId edge.source)
    · have sum : files.sumAfter config edge = invalidEdgeWeight := by
        rw [Files.sumAfter, sumWeights_eq _ _ (by decide), if_pos invalid]
      rw [if_pos sum] at weight
      refine ⟨fun _ valid => absurd invalid valid, fun _ => ⟨fun valid => absurd (segments ▸ invalid) valid, fun _ _ => weight,
        fun kept => ?_⟩⟩
      rw [updated] at kept
      cases kept
    · obtain ⟨sum, mask, light⟩ := fits.sumAfter invalid
      rw [if_neg light] at weight
      rw [mask] at node
      simp only [light, ne_eq, not_false_eq_true, if_true] at penalty
      have whole : Agrees files config loaded edge edge' ↔
          edge'.weight = (loaded.nodeWeights edge.source).weight + loaded.files.turnWeightPenalties edge.turnId ∧
            1 ≤ edge'.weight := by
        refine ⟨fun agrees => agrees.valid (segments ▸ invalid), fun fine => ⟨fun _ => fine, fun _ bad => ?_, fun kept => ?_⟩⟩
        · exact absurd (segments ▸ bad) invalid
        · rw [updated] at kept
          cases kept
      have stored (notWritten : config.writesPenalties = false) :
          files.turnWeightPenalties edge.turnId = files.penaltyAfter config edge.turnId :=
        (penaltyAfter_of_not_written notWritten _).symm
      rw [whole, weight, node, penalty]
      simp only [invalid, not_false_eq_true, true_implies]
      have two : (2 : ℤ) ≤ (files.segmentData (files.geometryId edge.source).id).nodes.length := by
        exact_mod_cast (files.segmentData (files.geometryId edge.source).id).two
      rw [← clampWeight_agrees_iff two _ (fitsPenalty_penaltyAfter typed edge.turnId) (Int.natCast_nonneg _)
        (by exact_mod_cast fits.1) (by exact_mod_cast fits.2), Files.clamped, sum]
      cases written : config.writesPenalties with
      | true => rfl
      | false => rw [stored written]

/-- **The contractor and the customizer see the same weights** after an update exactly when every edge is settled, as long as
the sums are in range. -/
theorem agrees_all_iff (consistent : files.Consistent) (typed : ∀ turn, FitsPenalty (files.turnWeightPenalties turn))
    (fits : ∀ edge ∈ files.edges, files.SumsFit config edge) {loaded : Loaded}
    (done : files.loadAndUpdateEdgeExpandedGraph config = .ok loaded) :
    (∀ (i : ℕ) (edge edge' : EdgeBasedEdge), files.edges[i]? = some edge → loaded.edges[i]? = some edge' →
        Agrees files config loaded edge edge') ↔
      ∀ edge ∈ files.edges, files.Settled config edge := by
  have outcome := Files.outcome_of_ok done
  constructor
  · intro agrees edge mem
    obtain ⟨i, found⟩ := List.mem_iff_getElem?.1 mem
    obtain ⟨edge', found', -⟩ := outcome.each i edge found
    exact (agrees_iff_settled consistent typed outcome (fits edge mem) found found').1 (agrees i edge edge' found found')
  · intro settled i edge edge' found found'
    have mem := List.mem_of_getElem? found
    exact (agrees_iff_settled consistent typed outcome (fits edge mem) found found').2 (settled edge mem)

end Consistency

/-- A dataset with one turn, from a node of one segment. -/
def oneTurn (weight : ℕ) : Files where
  nodeWeights _ := ⟨false, weight⟩
  nodeDurations _ := 10
  edges := [⟨0, 1, 0, weight, 10⟩]
  geometryId _ := ⟨0, true⟩
  numberOfGeometries := 1
  segmentData _ := oneSegment weight
  turnWeightPenalties _ := 0
  turnDurationPenalties _ := 0
  turnIndex _ := ⟨0, 1, 1⟩
  conditionals := []
  osmNodeIds := id
  segmentLength _ _ := 10
  weightMultiplier := 1
  turnIds i inside := by
    obtain rfl : i = 0 := Nat.lt_one_iff.1 inside
    rfl

/-- One file of speeds, with a speed for the segment. -/
def speedFile (speed : ℚ) : UpdaterConfig where
  segmentSpeedLookupPaths := 1
  turnPenaltyLookupPaths := 0
  segmentSpeeds _ _ := some ⟨speed, none, 1⟩
  turnPenalties _ _ _ := none
  hasRestrictions := false
  validNow := 0
  calendar := .gregorian 1400 9999
  numericCast := .checked
  timezoner _ _ := none

theorem oneTurn_consistent (weight : ℕ) : (oneTurn weight).Consistent := by
  intro edge mem
  rw [List.mem_singleton.1 mem]
  exact (add_zero _).symm

/-- At 9 km/h the segment weighs 4, more than its two nodes. -/
theorem agrees_all_slow : ∃ loaded, (oneTurn 5).loadAndUpdateEdgeExpandedGraph (speedFile 9) = .ok loaded ∧
    ∀ (i : ℕ) (edge edge' : EdgeBasedEdge), (oneTurn 5).edges[i]? = some edge → loaded.edges[i]? = some edge' →
      Agrees (oneTurn 5) (speedFile 9) loaded edge edge' := by
  have runs : ((oneTurn 5).loadAndUpdateEdgeExpandedGraph (speedFile 9)).toBool = true := by decide +kernel
  have weights : (oneTurn 5).weightsAfter (speedFile 9) ⟨0, true⟩ = [4] := by decide +kernel
  have penalty : FitsPenalty 0 := ⟨by decide, by decide⟩
  have geometry : (oneTurn 5).geometryId 0 = ⟨0, true⟩ := rfl
  have fits : ∀ edge ∈ (oneTurn 5).edges, (oneTurn 5).SumsFit (speedFile 9) edge := by
    intro edge mem
    rw [List.mem_singleton.1 mem, Files.SumsFit, geometry, weights]
    exact ⟨by decide, by decide⟩
  cases done : (oneTurn 5).loadAndUpdateEdgeExpandedGraph (speedFile 9) with
  | error _ =>
    rw [done] at runs
    cases runs
  | ok loaded =>
    refine ⟨loaded, rfl, (agrees_all_iff (oneTurn_consistent 5) (fun _ => penalty) fits done).2 fun edge mem => ?_⟩
    rw [List.mem_singleton.1 mem]
    simp only [Files.Settled, geometry, weights]
    intro _ low
    exact absurd low (by decide)

/-- At 36 km/h the segment weighs 1: the edge is clamped to 2, its source is not. -/
theorem load_clamped_fast : (oneTurn 1).Consistent ∧
    ∃ loaded, (oneTurn 1).loadAndUpdateEdgeExpandedGraph (speedFile 36) = .ok loaded ∧
      loaded.edges.map EdgeBasedEdge.weight = [2] ∧ (loaded.nodeWeights 0).weight = 1 ∧
      loaded.files.turnWeightPenalties 0 = 0 ∧ (loaded.files.segmentData 0).weights true = [1] := by
  have result : ((oneTurn 1).loadAndUpdateEdgeExpandedGraph (speedFile 36)).toOption.map (fun loaded =>
      (loaded.edges.map EdgeBasedEdge.weight, (loaded.nodeWeights 0).weight, loaded.files.turnWeightPenalties 0,
        (loaded.files.segmentData 0).weights true)) = some ([2], 1, 0, [1]) := by decide +kernel
  refine ⟨oneTurn_consistent 1, ?_⟩
  cases done : (oneTurn 1).loadAndUpdateEdgeExpandedGraph (speedFile 36) with
  | error _ =>
    rw [done] at result
    cases result
  | ok loaded =>
    rw [done] at result
    simpa [Except.toOption] using result

end Osrm.Updater
