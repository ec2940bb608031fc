import Mathlib.Algebra.BigOperators.Intervals
import Mathlib.Data.List.GetD
import Osrm.Engine.Hint

/-!
# Tidying the parameters of a match request

`tidy` drops coordinates that are too near to the last kept one, in distance or in time. The first
and the last coordinate are kept. What is said of the coordinates one by one is filtered, and a
waypoint that is dropped is represented by the last coordinate kept before it. `keepAll` has the
same result for a request that is not to be tidied.

Which coordinates are kept depends on the outcomes of the two tests only (`Kept`); `overThresholds`
is the outcome at a coordinate, counted from the last kept one.
-/

namespace Osrm

open Function List

/-- `MatchParameters`, as far as a match request uses it. -/
structure MatchParameters where
  coordinates : List Coordinate := []
  waypoints : List ℕ := []
  hints : List (Option (List SegmentHint)) := []
  radiuses : List (Option ℚ) := []
  bearings : List (Option (ℤ × ℤ)) := []
  timestamps : List UInt32 := []
  /-- `gaps == GapsType::Split` -/
  splitGaps : Bool := true
  tidy : Bool := false
  skipWaypoints : Bool := false

namespace Tidy

variable (params out : MatchParameters)

structure Thresholds where
  distanceInMeters : ℚ
  durationInSeconds : Int32

/-- `Result`; the masks are functions of the index. -/
structure Result where
  parameters : MatchParameters
  canBeRemoved : ℕ → Bool
  tidiedToOriginal : List ℕ
  wasWaypoint : ℕ → Bool

def wasWaypoint (i : ℕ) : Bool := params.waypoints.isEmpty || params.waypoints.contains i

def pushItem (i : ℕ) : MatchParameters :=
  { out with
    coordinates := out.coordinates ++ [params.coordinates.getD i ⟨0, 0⟩]
    hints := if params.hints.isEmpty then out.hints else out.hints ++ [params.hints.getD i none]
    radiuses := if params.radiuses.isEmpty then out.radiuses else out.radiuses ++ [params.radiuses.getD i none]
    bearings := if params.bearings.isEmpty then out.bearings else out.bearings ++ [params.bearings.getD i none]
    timestamps := if params.timestamps.isEmpty then out.timestamps else out.timestamps ++ [params.timestamps.getD i 0] }

/-- A coordinate that is kept, with its waypoint. -/
def keepItem (i : ℕ) : MatchParameters :=
  let out := pushItem params out i
  if wasWaypoint params i then { out with waypoints := out.waypoints ++ [out.coordinates.length - 1] } else out

/-- The body of the second loop of `tidy`; `none` if `back` is called on an empty vector. -/
def tidyItem (canBeRemoved : ℕ → Bool) (out : MatchParameters) (i : ℕ) : Option MatchParameters :=
  if !canBeRemoved i then some (keepItem params out i)
  else if wasWaypoint params i then
    let lastIdx := out.coordinates.length - 1
    match out.waypoints.getLast? with
    | none => none
    | some back => if back ≠ lastIdx then some { out with waypoints := out.waypoints ++ [lastIdx] } else some out
  else some out

def keepAll : Result :=
  let out := (range params.coordinates.length).foldl (keepItem params) {}
  { parameters := if params.waypoints.isEmpty then { out with waypoints := [] } else out
    canBeRemoved := fun _ => false
    tidiedToOriginal := range params.coordinates.length
    wasWaypoint := wasWaypoint params }

/-- The variables of the first loop of `tidy`. -/
structure Scan where
  running : Thresholds
  tidiedToOriginal : List ℕ
  canBeRemoved : ℕ → Bool

variable (greatCircleDistance : Coordinate → Coordinate → ℚ) (params : MatchParameters) (cfg : Thresholds)

/-- `distance_delta` up to coordinate `next` -/
def distanceDelta (next : ℕ) : ℚ :=
  greatCircleDistance (params.coordinates.getD (next - 1) ⟨0, 0⟩) (params.coordinates.getD next ⟨0, 0⟩)

/-- The body of the first loop of `tidy`. -/
def scanStep (scan : Scan) (next : ℕ) : Scan :=
  let distance := scan.running.distanceInMeters + distanceDelta greatCircleDistance params next
  let overDistance : Bool := distance ≥ cfg.distanceInMeters
  let duration := if params.timestamps.isEmpty then scan.running.durationInSeconds
    else scan.running.durationInSeconds + (params.timestamps.getD next 0 - params.timestamps.getD (next - 1) 0).toInt32
  let overDuration : Bool := params.timestamps.isEmpty || duration ≥ cfg.durationInSeconds
  if overDistance && overDuration then
    { scan with running := ⟨0, 0⟩, tidiedToOriginal := scan.tidiedToOriginal ++ [next] }
  else { scan with running := ⟨distance, duration⟩, canBeRemoved := update scan.canBeRemoved next true }

/-- The first loop of `tidy`, over the coordinates between the first and the last. -/
def scan : Scan :=
  (range' 1 (params.coordinates.length - 2)).foldl (scanStep greatCircleDistance params cfg) ⟨⟨0, 0⟩, [0], fun _ => false⟩

def tidy : Option Result := do
  let scan := scan greatCircleDistance params cfg
  let out ← (range params.coordinates.length).foldlM (tidyItem params scan.canBeRemoved) {}
  some {
    parameters := out
    canBeRemoved := scan.canBeRemoved
    tidiedToOriginal :=
      if params.coordinates.length > 1 then scan.tidiedToOriginal ++ [params.coordinates.length - 1] else scan.tidiedToOriginal
    wasWaypoint := wasWaypoint params }

/-! ### The coordinates that are kept -/

/-- The outcome of the tests at coordinate `i`, counted from coordinate `a`. -/
def overThresholds (a i : ℕ) : Bool :=
  (∑ j ∈ Finset.Ico a i, distanceDelta greatCircleDistance params (j + 1)) ≥ cfg.distanceInMeters &&
    (params.timestamps.isEmpty ||
      (params.timestamps.getD i 0 - params.timestamps.getD a 0).toInt32 ≥ cfg.durationInSeconds)

/-- The coordinates that pass the tests, counted from the last one that does. -/
inductive Passed (passes : ℕ → ℕ → Bool) : ℕ → Prop
  | first : Passed passes 0
  | next {a i : ℕ} : Passed passes a → a < i → (∀ j, a < j → j < i → passes a j = false) → passes a i = true → Passed passes i

/-- Coordinate `a` is the last one up to `w` that passes the tests. -/
def Represents (passes : ℕ → ℕ → Bool) (a w : ℕ) : Prop := Passed passes a ∧ a ≤ w ∧ ∀ j, a < j → j ≤ w → passes a j = false

/-- The last coordinate up to the given one that passes the tests. -/
def lastPassed (passes : ℕ → ℕ → Bool) : ℕ → ℕ
  | 0 => 0
  | i + 1 => if passes (lastPassed passes i) (i + 1) then i + 1 else lastPassed passes i

variable {passes : ℕ → ℕ → Bool} {a w count k : ℕ}

theorem represents_lastPassed (passes : ℕ → ℕ → Bool) (w : ℕ) : Represents passes (lastPassed passes w) w := by
  induction w with
  | zero => exact ⟨.first, le_rfl, fun j _ _ => by omega⟩
  | succ w ih =>
    obtain ⟨passed, le, none⟩ := ih
    rw [lastPassed]
    split_ifs with here
    · exact ⟨.next passed (by omega) (fun j after before => none j after (by omega)) here, le_rfl, fun j _ _ => by omega⟩
    · refine ⟨passed, by omega, ?_⟩
      intro j after before
      rcases Nat.of_le_succ before with before | rfl
      · exact none j after before
      · exact Bool.eq_false_of_not_eq_true here

theorem lastPassed_of_none (start : lastPassed passes a = a) (none : ∀ j, a < j → j ≤ a + k → passes a j = false) :
    lastPassed passes (a + k) = a := by
  induction k with
  | zero => exact start
  | succ k ih =>
    rw [← Nat.add_assoc, lastPassed, ih fun j after before => none j after (by omega), none (a + k + 1) (by omega) (by omega)]
    rfl

theorem Passed.lastPassed_eq (passed : Passed passes a) : lastPassed passes a = a := by
  induction passed with
  | first => rfl
  | @next a i _ lt none here ih =>
    obtain ⟨k, rfl⟩ : ∃ k, i = a + k + 1 := ⟨i - a - 1, by omega⟩
    have before := lastPassed_of_none (k := k) ih fun j after before => none j after (by omega)
    rw [lastPassed, before, if_pos here]

theorem represents_iff : Represents passes a w ↔ lastPassed passes w = a := by
  constructor
  · intro ⟨passed, le, quiet⟩
    obtain ⟨k, rfl⟩ : ∃ k, w = a + k := ⟨w - a, by omega⟩
    exact lastPassed_of_none passed.lastPassed_eq quiet
  · rintro rfl
    exact represents_lastPassed passes w

/-- The coordinates that `tidy` keeps: those that pass the tests, and the last one. -/
def kept (passes : ℕ → ℕ → Bool) (count i : ℕ) : Bool := i + 1 = count || lastPassed passes i = i

theorem kept_of_lt {i : ℕ} (before : i + 1 < count) : kept passes count i = decide (lastPassed passes i = i) := by
  rw [kept, decide_eq_false before.ne, Bool.false_or]

section Scan

variable {greatCircleDistance params cfg} {scan : Scan} {m : ℕ}

variable (greatCircleDistance params cfg m) in
structure Scanned (scan : Scan) : Prop where
  distance : scan.running.distanceInMeters =
    ∑ j ∈ Finset.Ico (lastPassed (overThresholds greatCircleDistance params cfg) m) m, distanceDelta greatCircleDistance params (j + 1)
  duration : params.timestamps.isEmpty = false → scan.running.durationInSeconds =
    (params.timestamps.getD m 0 - params.timestamps.getD (lastPassed (overThresholds greatCircleDistance params cfg) m) 0).toInt32
  tidied : scan.tidiedToOriginal =
    (range (m + 1)).filter fun i => lastPassed (overThresholds greatCircleDistance params cfg) i = i
  removed : ∀ i, scan.canBeRemoved i = decide (i ≤ m ∧ lastPassed (overThresholds greatCircleDistance params cfg) i ≠ i)

theorem Scanned.first : Scanned greatCircleDistance params cfg 0 ⟨⟨0, 0⟩, [0], fun _ => false⟩ where
  distance := by simp
  duration _ := by simp [lastPassed]
  tidied := by simp [lastPassed]
  removed i := by
    symm
    rw [decide_eq_false_iff_not]
    rintro ⟨le, ne⟩
    obtain rfl : i = 0 := by omega
    exact ne rfl

/-- The running thresholds are those that `overThresholds` counts from the last kept coordinate. -/
theorem Scanned.over_iff (scanned : Scanned greatCircleDistance params cfg m scan) :
    let distance := scan.running.distanceInMeters + distanceDelta greatCircleDistance params (m + 1)
    let duration := if params.timestamps.isEmpty then scan.running.durationInSeconds
      else scan.running.durationInSeconds + (params.timestamps.getD (m + 1) 0 - params.timestamps.getD m 0).toInt32
    let last := lastPassed (overThresholds greatCircleDistance params cfg) m
    distance = ∑ j ∈ Finset.Ico last (m + 1), distanceDelta greatCircleDistance params (j + 1) ∧
      (params.timestamps.isEmpty = false → duration = (params.timestamps.getD (m + 1) 0 - params.timestamps.getD last 0).toInt32) ∧
      (decide (distance ≥ cfg.distanceInMeters) && (params.timestamps.isEmpty || decide (duration ≥ cfg.durationInSeconds))) =
        overThresholds greatCircleDistance params cfg last (m + 1) := by
  intro distance duration last
  have le : last ≤ m := (represents_lastPassed _ m).2.1
  have distance_eq : distance = ∑ j ∈ Finset.Ico last (m + 1), distanceDelta greatCircleDistance params (j + 1) := by
    rw [Finset.sum_Ico_succ_top le, ← scanned.distance]
  have duration_eq : params.timestamps.isEmpty = false →
      duration = (params.timestamps.getD (m + 1) 0 - params.timestamps.getD last 0).toInt32 := by
    intro timed
    simp only [duration, scanned.duration timed]
    rw [← UInt32.toInt32_add]
    grind
  refine ⟨distance_eq, duration_eq, ?_⟩
  rw [overThresholds, ← distance_eq]
  cases timed : params.timestamps.isEmpty with
  | true => rw [Bool.true_or, Bool.true_or]
  | false => rw [duration_eq timed]

theorem Scanned.step (scanned : Scanned greatCircleDistance params cfg m scan) :
    Scanned greatCircleDistance params cfg (m + 1) (scanStep greatCircleDistance params cfg scan (m + 1)) := by
  obtain ⟨distance, duration, test⟩ := scanned.over_iff
  obtain ⟨-, -, tidied, removed⟩ := scanned
  have last : lastPassed (overThresholds greatCircleDistance params cfg) (m + 1) =
    if overThresholds greatCircleDistance params cfg (lastPassed (overThresholds greatCircleDistance params cfg) m) (m + 1)
      then m + 1 else lastPassed (overThresholds greatCircleDistance params cfg) m := rfl
  have le := (represents_lastPassed (overThresholds greatCircleDistance params cfg) m).2.1
  simp only [scanStep, Nat.add_sub_cancel, test]
  split
  · rename_i here
    rw [if_pos here] at last
    refine ⟨by simp [last], fun _ => by simp [last], ?_, ?_⟩
    · rw [range_succ, filter_append, ← tidied]
      simp [last]
    · intro i
      simp only [removed, decide_eq_decide]
      constructor
      · intro ⟨le, ne⟩
        exact ⟨by omega, ne⟩
      · intro ⟨le, ne⟩
        have other : i ≠ m + 1 := by
          rintro rfl
          exact ne last
        exact ⟨by omega, ne⟩
  · rename_i here
    rw [if_neg here] at last
    refine ⟨by rw [last]; exact distance, fun timed => by rw [last]; exact duration timed, ?_, ?_⟩
    · rw [range_succ, filter_append, ← tidied]
      simp [last]
      omega
    · intro i
      simp only [update_apply, removed]
      by_cases same : i = m + 1
      · subst same
        simp [last]
        omega
      · rw [if_neg same, decide_eq_decide]
        constructor
        · intro ⟨le, ne⟩
          exact ⟨by omega, ne⟩
        · intro ⟨le, ne⟩
          exact ⟨by omega, ne⟩

variable (greatCircleDistance params cfg m) in
theorem scanned_foldl :
    Scanned greatCircleDistance params cfg m
    ((range' 1 m).foldl (scanStep greatCircleDistance params cfg) ⟨⟨0, 0⟩, [0], fun _ => false⟩) := by
  induction m with
  | zero => exact .first
  | succ m ih =>
    rw [range'_1_concat, foldl_append, Nat.add_comm 1 m]
    exact ih.step

end Scan

/-! ### What is left of the parameters -/

/-- How many of the first coordinates are kept. -/
def rank (keep : ℕ → Bool) (m : ℕ) : ℕ := (range m).countP keep

variable {params} {keep : ℕ → Bool} {m i j : ℕ} {out : MatchParameters}

theorem wasWaypoint_iff (given : params.waypoints.isEmpty = false) : wasWaypoint params i = true ↔ i ∈ params.waypoints := by
  rw [wasWaypoint, given, Bool.false_or, contains_iff_mem]

theorem rank_succ (keep : ℕ → Bool) (m : ℕ) : rank keep (m + 1) = rank keep m + if keep m then 1 else 0 := by
  simp [rank, range_succ]

theorem rank_of_kept (here : keep i = true) : rank keep (i + 1) = rank keep i + 1 := by
  rw [rank_succ, if_pos here]

theorem rank_mono (keep : ℕ → Bool) (le : i ≤ j) : rank keep i ≤ rank keep j :=
  Sublist.countP_le (range_sublist.2 le)

variable (params keep m out) in
/-- The parameters after the first coordinates: waypoint `w` is represented by the last coordinate kept up to it. -/
structure Filtered : Prop where
  size : out.coordinates.length = rank keep m
  increasing : out.waypoints.Pairwise (· < ·)
  mem : ∀ j, j ∈ out.waypoints ↔ ∃ w < m, wasWaypoint params w = true ∧ rank keep (w + 1) = j + 1

theorem Filtered.lt (filtered : Filtered params keep m out) (here : j ∈ out.waypoints) : j < rank keep m := by
  obtain ⟨w, before, -, place⟩ := (filtered.mem j).1 here
  have := rank_mono keep (show w + 1 ≤ m by omega)
  omega

theorem le_getLast {l : List ℕ} {back : ℕ} (increasing : l.Pairwise (· < ·)) (last : l.getLast? = some back) (here : k ∈ l) :
    k ≤ back := by
  obtain ⟨front, rfl⟩ := getLast?_eq_some_iff.1 last
  grind

section

variable {out' : MatchParameters} (filtered : Filtered params keep m out) (size : out'.coordinates.length = rank keep (m + 1))

include filtered size

/-- A coordinate that adds no waypoint. -/
theorem Filtered.same (waypoints : out'.waypoints = out.waypoints)
    (already : wasWaypoint params m = true → ∀ j, rank keep (m + 1) = j + 1 → j ∈ out.waypoints) :
    Filtered params keep (m + 1) out' where
  size := size
  increasing := by
    rw [waypoints]
    exact filtered.increasing
  mem j := by
    rw [waypoints, Nat.exists_lt_succ_right, ← filtered.mem]
    constructor
    · exact .inl
    · rintro (here | ⟨was, place⟩)
      · exact here
      · exact already was j place

/-- A coordinate that adds a waypoint. -/
theorem Filtered.push (waypoints : out'.waypoints = out.waypoints ++ [j])
    (was : wasWaypoint params m = true) (place : rank keep (m + 1) = j + 1) (new : ∀ k ∈ out.waypoints, k < j) :
    Filtered params keep (m + 1) out' where
  size := size
  increasing := by
    rw [waypoints, pairwise_append]
    refine ⟨filtered.increasing, pairwise_singleton .., ?_⟩
    intro k here j' last
    rw [mem_singleton.1 last]
    exact new k here
  mem k := by
    rw [waypoints, Nat.exists_lt_succ_right, ← filtered.mem, mem_append, mem_singleton, place]
    simp only [was, true_and, Nat.add_right_cancel_iff, eq_comm]

end

theorem Filtered.keepItem (filtered : Filtered params keep m out) (here : keep m = true) :
    Filtered params keep (m + 1) (keepItem params out m) := by
  have next := rank_of_kept here
  have size : (pushItem params out m).coordinates.length = rank keep (m + 1) := by
    simp [pushItem, filtered.size, next]
  unfold Tidy.keepItem
  by_cases was : wasWaypoint params m = true
  · simp only [was]
    refine filtered.push ?_ ?_ was next fun k => filtered.lt
    · exact size
    · rw [size, next]
      rfl
  · simp only [was]
    exact filtered.same size rfl fun is => absurd is was

theorem Filtered.tidyItem {canBeRemoved : ℕ → Bool} (filtered : Filtered params keep m out) (same : canBeRemoved m = !keep m)
    (first : keep 0 = true) (start : wasWaypoint params 0 = true) :
    ∃ out', tidyItem params canBeRemoved out m = some out' ∧ Filtered params keep (m + 1) out' := by
  unfold Tidy.tidyItem
  by_cases here : keep m = true
  · simp only [same, here]
    exact ⟨_, rfl, filtered.keepItem here⟩
  · have next : rank keep (m + 1) = rank keep m := by rw [rank_succ, if_neg here, Nat.add_zero]
    have size := filtered.size.trans next.symm
    have positive : 0 < m := by
      apply Nat.pos_of_ne_zero
      rintro rfl
      exact here first
    have some_kept : 1 ≤ rank keep m := by
      have := rank_mono keep (show 1 ≤ m from positive)
      rw [rank_of_kept first] at this
      omega
    have zero := (filtered.mem 0).2 ⟨0, positive, start, rank_of_kept first⟩
    obtain ⟨back, last⟩ : ∃ back, out.waypoints.getLast? = some back :=
      ⟨_, getLast?_eq_some_getLast (ne_nil_of_mem zero)⟩
    simp only [same, here, last, Bool.not_false, Bool.not_true, Bool.false_eq_true, if_false]
    by_cases was : wasWaypoint params m = true
    · have place : rank keep (m + 1) = out.coordinates.length - 1 + 1 := by omega
      simp only [was, if_true]
      split
      · refine ⟨_, rfl, filtered.push ?_ ?_ was place ?_⟩
        · exact size
        · rfl
        · intro k member
          have le := le_getLast filtered.increasing last member
          have := filtered.lt (mem_of_getLast? last)
          omega
      · refine ⟨_, rfl, filtered.same size rfl ?_⟩
        intro _ j place'
        obtain rfl : j = back := by omega
        exact mem_of_getLast? last
    · simp only [was]
      exact ⟨_, rfl, filtered.same size rfl fun is => absurd is was⟩

theorem Filtered.empty : Filtered params keep 0 {} := ⟨rfl, .nil, by simp⟩

/-- What `tidy` and `keepAll` leave when `keep` is kept. -/
structure Tidied (params : MatchParameters) (keep : ℕ → Bool) (result : Result) : Prop where
  removed : ∀ i < params.coordinates.length, result.canBeRemoved i = !keep i
  tidied : result.tidiedToOriginal = (range params.coordinates.length).filter keep
  was : result.wasWaypoint = wasWaypoint params
  parameters : Filtered params keep params.coordinates.length result.parameters

theorem keepAll_tidied (given : params.waypoints.isEmpty = false) : Tidied params (fun _ => true) (keepAll params) where
  removed _ _ := rfl
  tidied := (filter_true _).symm
  was := rfl
  parameters := by
    simp only [keepAll, given]
    induction params.coordinates.length with
    | zero => exact .empty
    | succ m ih =>
      rw [range_succ, foldl_append]
      exact ih.keepItem rfl

theorem tidied_foldlM {canBeRemoved : ℕ → Bool} (first : keep 0 = true) (start : wasWaypoint params 0 = true) (m : ℕ)
    (same : ∀ i < m, canBeRemoved i = !keep i) :
    ∃ out, (range m).foldlM (Tidy.tidyItem params canBeRemoved) {} = some out ∧ Filtered params keep m out := by
  induction m with
  | zero => exact ⟨{}, rfl, .empty⟩
  | succ m ih =>
    obtain ⟨out, result, filtered⟩ := ih fun i lt => same i (by omega)
    obtain ⟨out', step, next⟩ := filtered.tidyItem (same m (Nat.lt_succ_self m)) first start
    refine ⟨out', ?_, next⟩
    rw [range_succ, foldlM_append, result]
    simpa using step

/-- **Tidying.** `tidy` keeps the coordinates that pass the tests, and the last one. -/
theorem tidy_tidied (start : wasWaypoint params 0 = true) (nonempty : 0 < params.coordinates.length) :
    ∃ result, tidy greatCircleDistance params cfg = some result ∧
      Tidied params (kept (overThresholds greatCircleDistance params cfg) params.coordinates.length) result := by
  have scanned : Scanned _ _ _ _ (scan greatCircleDistance params cfg) := scanned_foldl greatCircleDistance params cfg _
  have marked := scanned.removed
  have tidied := scanned.tidied
  generalize overThresholds greatCircleDistance params cfg = passes at marked tidied ⊢
  have removed : ∀ i < params.coordinates.length, (scan greatCircleDistance params cfg).canBeRemoved i =
      !kept passes params.coordinates.length i := by
    intro i inside
    have zero : lastPassed passes 0 = 0 := rfl
    rw [marked, kept, Bool.not_or, ← decide_not, ← decide_not, ← Bool.decide_and, decide_eq_decide]
    constructor
    · intro ⟨le, other⟩
      refine ⟨?_, other⟩
      rintro last
      obtain rfl : i = 0 := by omega
      exact other zero
    · intro ⟨last, other⟩
      exact ⟨by omega, other⟩
  have first : kept passes params.coordinates.length 0 = true := by
    simp [kept, lastPassed]
  obtain ⟨out, result, filtered⟩ := tidied_foldlM first start _ removed
  simp only [tidy, result]
  refine ⟨_, rfl, removed, ?_, rfl, filtered⟩
  have last : ∀ count, [count].filter (kept passes (count + 1)) = [count] := by
    intro count
    simp [kept]
  rcases size : params.coordinates.length with _ | _ | count
  · omega
  · rw [size] at tidied
    rw [tidied]
    simp [kept, lastPassed]
  · rw [size] at tidied
    rw [range_succ (n := count + 1), filter_append, last, filter_congr fun i here => kept_of_lt (Nat.succ_lt_succ (mem_range.1 here))]
    simp only [tidied]
    rfl

/-! ### The waypoints that are left -/

/-- Coordinates that are not kept do not count. -/
theorem rank_of_none (here : keep i = true) (none : ∀ j, i < j → j ≤ i + k → keep j = false) :
    rank keep (i + k + 1) = rank keep i + 1 := by
  induction k with
  | zero => exact rank_of_kept here
  | succ k ih =>
    rw [rank_succ, none (i + (k + 1)) (by omega) le_rfl]
    exact ih fun j after before => none j after (by omega)

theorem getD_rank (inside : i < count) (here : keep i = true) :
    ((range count).filter keep).getD (rank keep i) 0 = i := by
  have length : ∀ m, ((range m).filter keep).length = rank keep m := fun m => countP_eq_length_filter.symm
  induction count with
  | zero => omega
  | succ count ih =>
    rw [range_succ, filter_append]
    by_cases last : i = count
    · subst last
      rw [getD_append_right _ _ _ _ (length i).le, length, Nat.sub_self, filter_cons_of_pos here]
      rfl
    · have before := rank_mono keep (show i + 1 ≤ count by omega)
      rw [rank_of_kept here] at before
      rw [getD_append _ _ _ _ (by rw [length]; omega)]
      exact ih (by omega)

/-- The last coordinate kept up to `w`. -/
theorem exists_kept {w : ℕ} (place : rank keep (w + 1) = j + 1) :
    ∃ a ≤ w, keep a = true ∧ rank keep a = j ∧ ∀ i, a < i → i ≤ w → keep i = false := by
  by_cases here : keep w = true
  · rw [rank_of_kept here] at place
    exact ⟨w, le_rfl, here, by omega, fun i _ _ => by omega⟩
  · rw [rank_succ, if_neg here] at place
    cases w with
    | zero => cases place
    | succ w =>
      obtain ⟨a, le, kept, rank, none⟩ := exists_kept place
      refine ⟨a, by omega, kept, rank, ?_⟩
      intro i after before
      rcases Nat.of_le_succ before with before | rfl
      · exact none i after before
      · exact Bool.eq_false_of_not_eq_true here

def keptWaypoints (params : MatchParameters) (keep : ℕ → Bool) : List ℕ :=
  (range params.coordinates.length).filter fun i => keep i && wasWaypoint params i

/-- The coordinates of the request that stand for its waypoints after tidying. -/
def representatives (result : Result) : List ℕ := result.parameters.waypoints.map fun j => result.tidiedToOriginal.getD j 0

variable {result : Result}

section Representatives

variable (tidied : Tidied params keep result)

include tidied

theorem Tidied.mem_representatives : a ∈ representatives result ↔
    keep a = true ∧ ∃ w < params.coordinates.length, wasWaypoint params w = true ∧ a ≤ w ∧ ∀ i, a < i → i ≤ w → keep i = false := by
  rw [representatives, mem_map, tidied.tidied]
  constructor
  · intro ⟨j, here, original⟩
    obtain ⟨w, inside, was, place⟩ := (tidied.parameters.mem j).1 here
    obtain ⟨b, le, kept, rank, none⟩ := exists_kept place
    rw [← rank, getD_rank (by omega) kept] at original
    subst original
    exact ⟨kept, w, inside, was, le, none⟩
  · intro ⟨kept, w, inside, was, le, quiet⟩
    obtain ⟨k, rfl⟩ : ∃ k, w = a + k := ⟨w - a, by omega⟩
    refine ⟨rank keep a, ?_, getD_rank (by omega) kept⟩
    exact (tidied.parameters.mem _).2 ⟨_, inside, was, rank_of_none kept quiet⟩

theorem Tidied.representatives_increasing : (representatives result).Pairwise (· < ·) := by
  rw [representatives, pairwise_map]
  apply tidied.parameters.increasing.imp_of_mem
  intro j j' here here' lt
  obtain ⟨w, inside, -, place⟩ := (tidied.parameters.mem j).1 here
  obtain ⟨w', inside', -, place'⟩ := (tidied.parameters.mem j').1 here'
  obtain ⟨a, le, kept, rank, -⟩ := exists_kept place
  obtain ⟨a', le', kept', rank', -⟩ := exists_kept place'
  rw [tidied.tidied, ← rank, ← rank', getD_rank (by omega) kept, getD_rank (by omega) kept']
  by_contra order
  have := rank_mono keep (Nat.le_of_not_lt order)
  omega

omit tidied in
theorem keptWaypoints_increasing (params : MatchParameters) (keep : ℕ → Bool) : (keptWaypoints params keep).Pairwise (· < ·) :=
  pairwise_lt_range.filter _

theorem Tidied.keptWaypoints_subset : keptWaypoints params keep ⊆ representatives result := by
  intro i here
  obtain ⟨inside, both⟩ := mem_filter.1 here
  obtain ⟨kept, was⟩ := Bool.and_eq_true_iff.1 both
  exact tidied.mem_representatives.2 ⟨kept, i, mem_range.1 inside, was, le_rfl, fun j _ _ => by omega⟩

/-- If they are as many, the waypoints that are kept are the representatives. -/
theorem Tidied.eq_of_length (length : (keptWaypoints params keep).length = (representatives result).length) :
    keptWaypoints params keep = representatives result := by
  have increasing := keptWaypoints_increasing params keep
  have perm := subperm_of_subset increasing.nodup tidied.keptWaypoints_subset
  exact (sublist_of_subperm_of_pairwise perm increasing tidied.representatives_increasing).eq_of_length length

/-- Each representative is a waypoint of the request. -/
theorem Tidied.eq_representatives_iff : keptWaypoints params keep = representatives result ↔
    ∀ w < params.coordinates.length, wasWaypoint params w = true → ∀ a, keep a = true → a ≤ w →
      (∀ i, a < i → i ≤ w → keep i = false) → wasWaypoint params a = true := by
  constructor
  · intro same w inside was a kept le none
    have here := tidied.mem_representatives.2 ⟨kept, w, inside, was, le, none⟩
    rw [← same] at here
    exact (Bool.and_eq_true_iff.1 (mem_filter.1 here).2).2
  · intro all
    apply Subset.antisymm_of_pairwise (keptWaypoints_increasing params keep) tidied.representatives_increasing
      tidied.keptWaypoints_subset
    intro a here
    obtain ⟨kept, w, inside, was, le, none⟩ := tidied.mem_representatives.1 here
    apply mem_filter.2
    exact ⟨mem_range.2 (by omega), Bool.and_eq_true_iff.2 ⟨kept, all w inside was a kept le none⟩⟩

end Representatives

/-- In terms of the tests: the last coordinate is kept, and before it the last one that passes the tests is. -/
theorem kept_iff_represents (inside : w + 1 < count) :
    (kept passes count a = true ∧ a ≤ w ∧ ∀ i, a < i → i ≤ w → kept passes count i = false) ↔ Represents passes a w := by
  have same : ∀ i ≤ w, kept passes count i = decide (lastPassed passes i = i) := fun i le => kept_of_lt (by omega)
  constructor
  · intro ⟨here, le, quiet⟩
    rw [same a le, decide_eq_true_iff] at here
    obtain ⟨passed, before, none⟩ := represents_lastPassed passes w
    have between : lastPassed passes w ≤ a := by
      by_contra after
      have := quiet (lastPassed passes w) (by omega) before
      rw [same _ before, decide_eq_false_iff_not] at this
      exact this passed.lastPassed_eq
    have earlier : Represents passes (lastPassed passes w) a := ⟨passed, between, fun j after before => none j after (by omega)⟩
    exact represents_iff.2 ((represents_iff.1 earlier).symm.trans here)
  · intro represents
    obtain ⟨passed, le, none⟩ := represents
    refine ⟨?_, le, ?_⟩
    · rw [same a le, passed.lastPassed_eq, decide_eq_true rfl]
    · intro i after before
      have earlier : Represents passes a i := ⟨passed, after.le, fun j after before' => none j after (by omega)⟩
      rw [same i before, represents_iff.1 earlier, decide_eq_false after.ne]

end Tidy

end Osrm
