import Osrm.Updater.Outcome

/-!
# Conditional turns over several runs

A run of the updater gives every turn with an active conditional restriction the penalty
`INVALID_TURN_PENALTY`, which is a number like any other: the edge gets a large weight but stays in
the graph, unlike an edge of `INVALID_EDGE_WEIGHT`, which `toContractorGraph` leaves out. The penalty
is also written back over the one of the profile, so a later run reads it again, and uses it as soon
as some turn from the same geometry is active.
-/

namespace Osrm.Updater

open List

open Extractor OpeningHours

/-- The configuration for a run at a time, without files of speeds and penalties. -/
def UpdaterConfig.atTime (config : UpdaterConfig) (time : ℤ) : UpdaterConfig :=
  { config with segmentSpeedLookupPaths := 0, turnPenaltyLookupPaths := 0, validNow := time }

namespace Files

/-- Runs of the updater one after the other on a dataset: its files after them. -/
def runAll (config : UpdaterConfig) : List ℤ → Files → Except Exception Files
  | [], files => .ok files
  | time :: times, files => do
    let loaded ← files.loadAndUpdateEdgeExpandedGraph (config.atTime time)
    runAll config times loaded.files

/-- What a run loads after some earlier ones. -/
def runAfter (files : Files) (config : UpdaterConfig) (earlier : List ℤ) (time : ℤ) : Except Exception Loaded := do
  let files ← files.runAll config earlier
  files.loadAndUpdateEdgeExpandedGraph (config.atTime time)

variable (files : Files) (config : UpdaterConfig) (edge : EdgeBasedEdge)

def IsConditional (turn : ℕ) : Prop :=
  config.hasRestrictions = true ∧ ∃ penalty ∈ files.conditionalTurns, penalty.turnOffset = turn

/-- The turn has a conditional restriction that is active at a time, in its local time. -/
def ActiveAt (time : ℤ) (turn : ℕ) : Prop :=
  config.hasRestrictions = true ∧ ∃ penalty ∈ files.conditionalTurns,
    penalty.turnOffset = turn ∧ isRestrictionValid (config.atTime time) penalty = .ok true

/-- What is to hold of an edge after a run: with an active restriction it is left out of the graph, with restrictions none
of which is active it weighs what it did. -/
structure Follows (time : ℤ) (edge edge' : EdgeBasedEdge) : Prop where
  active : files.ActiveAt config time edge.turnId → edge'.weight = invalidEdgeWeight
  inactive : files.IsConditional config edge.turnId → ¬files.ActiveAt config time edge.turnId → edge'.weight = edge.weight

/-- The weights of the segments that an edge starts with. -/
def sourceWeights : List ℕ :=
  (files.segmentData (files.geometryId edge.source).id).weights (files.geometryId edge.source).forward

/-- The sum of the segments that an edge starts with and a penalty, clamped to the number of nodes. -/
def clampedAt (penalty : ℤ) : ℤ × ℤ :=
  clampWeight (sumWeights 0 (files.sourceWeights edge)) penalty (files.segmentData (files.geometryId edge.source).id).nodes.length

/-- The weight of an edge made anew of its segments and a penalty. -/
def rebuiltWeight (penalty : ℤ) : ℤ :=
  if sumWeights 0 (files.sourceWeights edge) = invalidEdgeWeight then invalidEdgeWeight
  else add32 (files.clampedAt edge penalty).1 (files.clampedAt edge penalty).2

/-- The penalty that runs at some times leave in the file: once the turn was active it is the invalid one, and once
another turn from its geometry was active it is clamped. -/
def stalePenalty (times : List ℤ) (edge : EdgeBasedEdge) : ℤ :=
  if times.any fun time => files.isActive (config.atTime time) edge.turnId then invalidTurnPenalty
  else if times.any fun time => files.geometryUpdated (config.atTime time) (files.geometryId edge.source) then
    if sumWeights 0 (files.sourceWeights edge) = invalidEdgeWeight then files.turnWeightPenalties edge.turnId
    else (files.clampedAt edge (files.turnWeightPenalties edge.turnId)).2
  else files.turnWeightPenalties edge.turnId

/-- An edge with an active restriction starts with segments that make it invalid anyway, and one with restrictions none of
which is active, but with an active turn from the same geometry, weighs with its stale penalty what it did. (At time 0, which
stands for no time, nothing is updated.) -/
structure Unaffected (earlier : List ℤ) (time : ℤ) (edge : EdgeBasedEdge) : Prop where
  active : files.ActiveAt config time edge.turnId →
    (if time = 0 then edge.weight else files.rebuiltWeight edge invalidTurnPenalty) = invalidEdgeWeight
  inactive : files.IsConditional config edge.turnId → ¬files.ActiveAt config time edge.turnId → time ≠ 0 →
    (∃ other ∈ files.edges, files.geometryId other.source = files.geometryId edge.source ∧
      files.ActiveAt config time other.turnId) →
    files.rebuiltWeight edge (files.stalePenalty config earlier edge) = edge.weight

end Files

/-! ### One run -/

section OneRun

variable {files : Files} {config : UpdaterConfig} {time : ℤ} (edge : EdgeBasedEdge)

theorem updatesConditionalTurns_atTime :
    (config.atTime time).updatesConditionalTurns = true ↔ config.hasRestrictions = true ∧ time ≠ 0 := by
  rw [UpdaterConfig.updatesConditionalTurns, Bool.and_eq_true, decide_eq_true_eq]
  rfl

theorem isActive_atTime {turn : ℕ} :
    files.isActive (config.atTime time) turn = true ↔ time ≠ 0 ∧ files.ActiveAt config time turn := by
  rw [Files.isActive_iff, updatesConditionalTurns_atTime, Files.ActiveAt]
  tauto

theorem geometryUpdated_atTime {g : GeometryID} : files.geometryUpdated (config.atTime time) g = true ↔
    time ≠ 0 ∧ ∃ edge ∈ files.edges, files.geometryId edge.source = g ∧ files.ActiveAt config time edge.turnId := by
  have noSpeeds : (config.atTime time).updatesEdgeWeights = false := rfl
  have noPenalties (turn : ℕ) : files.isListed (config.atTime time) turn = false := rfl
  simp only [Files.geometryUpdated, noSpeeds, noPenalties, Bool.false_and, Bool.false_or, any_eq_true, Bool.and_eq_true,
    decide_eq_true_eq, isActive_atTime]
  constructor
  · rintro ⟨edge, mem, same, some, active⟩
    exact ⟨some, edge, mem, same, active⟩
  · rintro ⟨some, edge, mem, same, active⟩
    exact ⟨edge, mem, same, some, active⟩

theorem sumAfter_atTime : files.sumAfter (config.atTime time) edge = sumWeights 0 (files.sourceWeights edge) := rfl

theorem penaltyAfter_atTime (turn : ℕ) : files.penaltyAfter (config.atTime time) turn =
    if files.isActive (config.atTime time) turn then invalidTurnPenalty else files.turnWeightPenalties turn := rfl

theorem clamped_atTime : files.clamped (config.atTime time) edge =
    files.clampedAt edge (files.penaltyAfter (config.atTime time) edge.turnId) := rfl

variable {loaded : Loaded}

/-- A run without files of speeds and penalties changes nothing but the penalties. -/
theorem files_atTime (done : files.loadAndUpdateEdgeExpandedGraph (config.atTime time) = .ok loaded) :
    loaded.files = { files with turnWeightPenalties := loaded.files.turnWeightPenalties } := by
  rw [Files.loadAndUpdateEdgeExpandedGraph] at done
  split at done
  · cases done
    rfl
  · split at done
    · cases done
    · obtain ⟨updated, first, done⟩ := Lib.bind_eq_ok done
      obtain ⟨penalties, second, done⟩ := Lib.bind_eq_ok done
      obtain ⟨active, -, done⟩ := Lib.bind_eq_ok done
      cases first
      cases second
      cases done
      simp [Files.write]

/-- A penalty that is not negative is not clamped. -/
theorem clampedAt_invalidTurnPenalty :
    (files.clampedAt edge invalidTurnPenalty).2 = invalidTurnPenalty := by
  rw [Files.clampedAt, clampWeight]
  split
  · rw [if_neg (by decide)]
  · rfl

/-- A clamped penalty stays as it is. -/
theorem clampedAt_clampedAt (penalty : ℤ) :
    (files.clampedAt edge (files.clampedAt edge penalty).2).2 = (files.clampedAt edge penalty).2 := by
  have twice (sum least p : ℤ) : (clampWeight sum (clampWeight sum p least).2 least).2 = (clampWeight sum p least).2 := by
    simp only [clampWeight]
    split_ifs <;> simp_all
  exact twice _ _ _

variable {edge : EdgeBasedEdge}

/-- The penalties after a run. -/
theorem penalty_atTime (done : files.loadAndUpdateEdgeExpandedGraph (config.atTime time) = .ok loaded)
    (mem : edge ∈ files.edges) :
    loaded.files.turnWeightPenalties edge.turnId = files.stalePenalty config [time] edge := by
  have penalty := (Files.outcome_of_ok done).penalties edge mem
  rw [clamped_atTime, sumAfter_atTime, penaltyAfter_atTime] at penalty
  rw [penalty, Files.stalePenalty]
  simp only [any_cons, any_nil, Bool.or_false]
  cases active : files.isActive (config.atTime time) edge.turnId with
  | true =>
    have writes : (config.atTime time).writesPenalties = true := by
      rw [UpdaterConfig.writesPenalties, (Files.isActive_iff.1 active).1, Bool.or_true]
    simp [writes, clampedAt_invalidTurnPenalty]
  | false =>
    cases updated : files.geometryUpdated (config.atTime time) (files.geometryId edge.source) with
    | true =>
      obtain ⟨some, other, -, -, restrictions, -⟩ := geometryUpdated_atTime.1 updated
      have writes : (config.atTime time).writesPenalties = true := by
        rw [UpdaterConfig.writesPenalties, updatesConditionalTurns_atTime.2 ⟨restrictions, some⟩, Bool.or_true]
      simp [writes]
    | false => simp

end OneRun

/-! ### Several runs -/

section Runs

variable {files : Files} {config : UpdaterConfig} {earlier times : List ℤ} {time : ℤ} {loaded : Loaded}

/-- The files differ from those before some runs by the penalties that these leave. -/
structure Since (files : Files) (config : UpdaterConfig) (times : List ℤ) (later : Files) : Prop where
  same : later = { files with turnWeightPenalties := later.turnWeightPenalties }
  penalties : ∀ edge ∈ files.edges, later.turnWeightPenalties edge.turnId = files.stalePenalty config times edge

/-- One more run leaves the stale penalties of one more time. -/
theorem stalePenalty_append {penalties : ℕ → ℤ} (time : ℤ)
    (before : penalties edge.turnId = files.stalePenalty config times edge) :
    { files with turnWeightPenalties := penalties }.stalePenalty config [time] edge =
      files.stalePenalty config (times ++ [time]) edge := by
  have same : { files with turnWeightPenalties := penalties }.stalePenalty config [time] edge =
      if files.isActive (config.atTime time) edge.turnId then invalidTurnPenalty
      else if files.geometryUpdated (config.atTime time) (files.geometryId edge.source) then
        if sumWeights 0 (files.sourceWeights edge) = invalidEdgeWeight then penalties edge.turnId
        else (files.clampedAt edge (penalties edge.turnId)).2
      else penalties edge.turnId := by
    simp only [Files.stalePenalty, any_cons, any_nil, Bool.or_false]
    rfl
  rw [same, before]
  simp only [Files.stalePenalty, any_append, any_cons]
  generalize times.any (fun time => files.isActive (config.atTime time) edge.turnId) = wasActive
  generalize times.any (fun time => files.geometryUpdated (config.atTime time) (files.geometryId edge.source)) = wasUpdated
  by_cases invalid : sumWeights 0 (files.sourceWeights edge) = invalidEdgeWeight
  · cases files.isActive (config.atTime time) edge.turnId <;> cases wasActive <;> simp [invalid]
  · cases files.isActive (config.atTime time) edge.turnId <;> cases wasActive <;> cases wasUpdated <;>
      simp [invalid, clampedAt_invalidTurnPenalty, clampedAt_clampedAt]

/-- A run keeps what holds since the first. -/
theorem Since.run {later : Files} (since : Since files config times later) {time : ℤ}
    (done : later.loadAndUpdateEdgeExpandedGraph (config.atTime time) = .ok loaded) :
    Since files config (times ++ [time]) loaded.files := by
  obtain ⟨same, penalties⟩ := since
  have edges : later.edges = files.edges := by rw [same]
  refine ⟨?_, fun edge mem => ?_⟩
  · have run := files_atTime done
    rw [same] at run
    exact run
  · rw [penalty_atTime done (edges ▸ mem), same]
    exact stalePenalty_append time (penalties edge mem)

theorem Since.runAll : ∀ {times earlier : List ℤ} {later last : Files}, Since files config earlier later →
    later.runAll config times = .ok last → Since files config (earlier ++ times) last
  | [], earlier, later, last, since, done => by
    cases done
    rwa [append_nil]
  | time :: times, earlier, later, last, since, done => by
    obtain ⟨loaded, run, done⟩ := Lib.bind_eq_ok done
    have whole := Since.runAll (since.run run) done
    rwa [append_assoc, singleton_append] at whole

/-- The edges that a run loads after some earlier ones. -/
theorem weight_runAfter (done : files.runAfter config earlier time = .ok loaded) (i : ℕ) (found : files.edges[i]? = some edge) :
    ∃ edge', loaded.edges[i]? = some edge' ∧ edge'.weight =
      if files.geometryUpdated (config.atTime time) (files.geometryId edge.source) then
        files.rebuiltWeight edge (if files.isActive (config.atTime time) edge.turnId then invalidTurnPenalty
          else files.stalePenalty config earlier edge)
      else edge.weight := by
  obtain ⟨later, runs, last⟩ := Lib.bind_eq_ok done
  have start : Since files config [] files := ⟨rfl, fun _ _ => rfl⟩
  obtain ⟨same, penalties⟩ := start.runAll runs
  have edges : later.edges = files.edges := by rw [same]
  obtain ⟨edge', found', -, -, weight⟩ := (Files.outcome_of_ok last).each i edge (edges ▸ found)
  refine ⟨edge', found', weight.trans ?_⟩
  rw [clamped_atTime, penaltyAfter_atTime, penalties edge (mem_of_getElem? found), same]
  rfl

/-- One edge after a run. -/
theorem follows_iff_unaffected {edge' : EdgeBasedEdge} (mem : edge ∈ files.edges)
    (weight : edge'.weight = if files.geometryUpdated (config.atTime time) (files.geometryId edge.source) then
      files.rebuiltWeight edge (if files.isActive (config.atTime time) edge.turnId then invalidTurnPenalty
        else files.stalePenalty config earlier edge) else edge.weight) :
    files.Follows config time edge edge' ↔ files.Unaffected config earlier time edge := by
  have active (on : files.ActiveAt config time edge.turnId) :
      edge'.weight = if time = 0 then edge.weight else files.rebuiltWeight edge invalidTurnPenalty := by
    rw [weight]
    by_cases zero : time = 0
    · rw [if_neg fun updated => (geometryUpdated_atTime.1 updated).1 zero, if_pos zero]
    · rw [if_pos (geometryUpdated_atTime.2 ⟨zero, edge, mem, rfl, on⟩), if_pos (isActive_atTime.2 ⟨zero, on⟩), if_neg zero]
  have inactive (off : ¬files.ActiveAt config time edge.turnId) :
      edge'.weight = if files.geometryUpdated (config.atTime time) (files.geometryId edge.source) then
        files.rebuiltWeight edge (files.stalePenalty config earlier edge) else edge.weight := by
    rw [weight, if_neg fun on => off (isActive_atTime.1 on).2]
  constructor
  · intro follows
    refine ⟨fun on => ?_, fun conditional off some shares => ?_⟩
    · rw [← active on]
      exact follows.active on
    · have kept := follows.inactive conditional off
      rwa [inactive off, if_pos (geometryUpdated_atTime.2 ⟨some, shares⟩)] at kept
  · intro unaffected
    refine ⟨fun on => ?_, fun conditional off => ?_⟩
    · rw [active on]
      exact unaffected.active on
    · rw [inactive off]
      split_ifs with updated
      · obtain ⟨some, shares⟩ := geometryUpdated_atTime.1 updated
        exact unaffected.inactive conditional off some shares
      · rfl

/-- **Conditional turns follow the clock** exactly where the restrictions do not matter: an edge with an active one is left
out only if it starts with invalid segments, and it has the other edges from there rebuilt. -/
theorem follows_all_iff (done : files.runAfter config earlier time = .ok loaded) :
    (∀ (i : ℕ) (edge edge' : EdgeBasedEdge), files.edges[i]? = some edge → loaded.edges[i]? = some edge' →
        files.Follows config time edge edge') ↔
      ∀ edge ∈ files.edges, files.Unaffected config earlier time edge := by
  constructor
  · intro follows edge mem
    obtain ⟨i, found⟩ := mem_iff_getElem?.1 mem
    obtain ⟨edge', found', weight⟩ := weight_runAfter done i found
    exact (follows_iff_unaffected mem weight).1 (follows i edge edge' found found')
  · intro unaffected i edge edge' found found'
    have mem := mem_of_getElem? found
    obtain ⟨same, here, weight⟩ := weight_runAfter done i found
    cases found'.symm.trans here
    exact (follows_iff_unaffected mem weight).2 (unaffected edge mem)

end Runs

/-- A condition that is met between two hours. -/
def between (first last : ℕ) : List Rule := [⟨[.make (.clock first 0) (.clock last 0)], [], [], .open⟩]

/-- A dataset with two turns from a street: one is forbidden from 7 to 9, the other from 16 to 18, and a long way round it. -/
def rushHours : Files where
  nodeWeights node := ⟨false, if node = 1 then 40000 else 5⟩
  nodeDurations _ := 10
  edges := [⟨0, 1, 0, 5, 10⟩, ⟨0, 2, 1, 5, 10⟩, ⟨1, 2, 2, 40000, 10⟩]
  geometryId node := ⟨node, true⟩
  numberOfGeometries := 3
  segmentData id := oneSegment (if id = 1 then 40000 else 5)
  turnWeightPenalties _ := 0
  turnDurationPenalties _ := 0
  turnIndex _ := ⟨0, 1, 1⟩
  conditionals := [⟨0, 1, ⟨0, ⟨0, 0⟩, between 7 9⟩⟩, ⟨0, 2, ⟨0, ⟨0, 0⟩, between 16 18⟩⟩]
  osmNodeIds := id
  segmentLength _ _ := 10
  weightMultiplier := 1
  turnIds i inside := by
    match i, inside with
    | 0, _ => rfl
    | 1, _ => rfl
    | 2, _ => rfl

/-- Times on one day, all of them local. -/
def oneDay : UpdaterConfig where
  segmentSpeedLookupPaths := 0
  turnPenaltyLookupPaths := 0
  segmentSpeeds _ _ := none
  turnPenalties _ _ _ := none
  hasRestrictions := true
  validNow := 0
  calendar := .gregorian 1400 9999
  numericCast := .checked
  timezoner time _ := some ⟨(time / 60 % 60).toNat, (time / 3600 % 24).toNat, 1, 0, 70, 4⟩

/-- Noon, after a run in the morning: no restriction is active. -/
theorem follows_all_noon : ∃ loaded, rushHours.runAfter oneDay [8 * 3600] (12 * 3600) = .ok loaded ∧
    ∀ (i : ℕ) (edge edge' : EdgeBasedEdge), rushHours.edges[i]? = some edge → loaded.edges[i]? = some edge' →
      rushHours.Follows oneDay (12 * 3600) edge edge' := by
  have runs : (rushHours.runAfter oneDay [8 * 3600] (12 * 3600)).toBool = true := by decide
  have off : ∀ edge ∈ rushHours.edges, rushHours.isActive (oneDay.atTime (12 * 3600)) edge.turnId = false := by decide
  have none : ∀ edge ∈ rushHours.edges, ¬rushHours.ActiveAt oneDay (12 * 3600) edge.turnId := fun edge mem on =>
    Bool.false_ne_true ((off edge mem).symm.trans (isActive_atTime.2 ⟨by decide, on⟩))
  cases done : rushHours.runAfter oneDay [8 * 3600] (12 * 3600) with
  | error _ =>
    rw [done] at runs
    cases runs
  | ok loaded =>
    refine ⟨loaded, rfl, (follows_all_iff done).2 fun edge mem => ⟨fun on => absurd on (none edge mem), fun _ _ _ shares => ?_⟩⟩
    obtain ⟨other, mem', -, on⟩ := shares
    exact absurd on (none other mem')

/-- In the evening, after a run in the morning: the forbidden turn is still the shortest way from 0 to 2, and the turn
that was forbidden in the morning keeps its weight of then. -/
theorem runAfter_evening : rushHours.ActiveAt oneDay (17 * 3600) 1 ∧
    rushHours.IsConditional oneDay 0 ∧ ¬rushHours.ActiveAt oneDay (17 * 3600) 0 ∧
    rushHours.edges.map EdgeBasedEdge.weight = [5, 5, 40000] ∧
    ∃ loaded, rushHours.runAfter oneDay [8 * 3600] (17 * 3600) = .ok loaded ∧
      loaded.edges.map EdgeBasedEdge.weight = [32772, 32772, 40000] := by
  have active : rushHours.isActive (oneDay.atTime (17 * 3600)) 1 = true := by decide
  have inactive : rushHours.isActive (oneDay.atTime (17 * 3600)) 0 = false := by decide
  have result : (rushHours.runAfter oneDay [8 * 3600] (17 * 3600)).toOption.map (fun loaded =>
      loaded.edges.map EdgeBasedEdge.weight) = some [32772, 32772, 40000] := by decide
  refine ⟨(isActive_atTime.1 active).2, ⟨rfl, ⟨0, ⟨0, 0⟩, between 7 9⟩, ?_, rfl⟩, fun on => ?_, rfl, ?_⟩
  · exact mem_cons_self
  · exact Bool.false_ne_true (inactive.symm.trans (isActive_atTime.2 ⟨by decide, on⟩))
  · cases done : rushHours.runAfter oneDay [8 * 3600] (17 * 3600) with
    | error _ =>
      rw [done] at result
      cases result
    | ok loaded =>
      rw [done] at result
      exact ⟨loaded, rfl, Option.some.inj result⟩

end Osrm.Updater
