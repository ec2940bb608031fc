import Mathlib.Data.List.Range
import Osrm.Lib.Viterbi
import Osrm.Util.Coordinate

/-!
# The hidden Markov model of a trace

The candidates of a trace are the states, with the timestamp as their time. The source keeps one
matrix for each kind of entry; here the entries of one timestamp are a `Column`. Log-probabilities
are rationals, and `⊥` is `IMPOSSIBLE_LOG_PROB`.

`nextColumn` is the inner double loop of `mapMatching`: it fills the column of `t` from the column
of the last unbroken timestamp. It skips a transition when the value before the transition term is
already worse than the entry, which is harmless because that term is not positive.
-/

namespace Osrm.MapMatching

open Function List

open Lib (ScoredStates)

/-- What `mapMatching` asks of the road network and of its closures. -/
structure Facade (P : Type*) where
  greatCircleDistance : Coordinate → Coordinate → ℚ
  getNetworkDistance : P → P → ℤ → ℚ
  transitionLogProbability : ℚ → ℚ
  confidence : ℚ → ℚ → ℚ
  mapMatchingMaxSpeed : ℚ
  weightMultiplier : ℚ

/-- The arguments of `mapMatching`, with phantom nodes of type `P`. The emissions are computed from the candidates and
from the precisions of the trace; they are arbitrary here. -/
structure Trace (P : Type*) extends Facade P where
  candidatesList : List (List P)
  emissionLogProbabilities : ℕ → ℕ → WithBot ℚ
  traceCoordinates : List Coordinate
  traceTimestamps : List UInt32
  allowSplitting : Bool

/-- The entries of `HiddenMarkovModel` at one timestamp. -/
structure Column where
  viterbi : ℕ → WithBot ℚ
  parents : ℕ → ℕ × ℕ
  pathDistances : ℕ → ℚ
  pruned : ℕ → Bool
  breakage : Bool

def Column.cleared : Column where
  viterbi _ := ⊥
  parents _ := (0, 0)
  pathDistances _ := 0
  pruned _ := true
  breakage := true

namespace Column

variable (column : Column) (s : ℕ) (value : WithBot ℚ) (parent : ℕ × ℕ) (distance : ℚ) (r : ℕ)

def put : Column where
  viterbi := update column.viterbi s value
  parents := update column.parents s parent
  pathDistances := update column.pathDistances s distance
  pruned := update column.pruned s false
  breakage := false

theorem put_viterbi : (column.put s value parent distance).viterbi r = if r = s then value else column.viterbi r :=
  update_apply ..

theorem put_parents : (column.put s value parent distance).parents r = if r = s then parent else column.parents r :=
  update_apply ..

theorem put_pruned : (column.put s value parent distance).pruned r = if r = s then false else column.pruned r :=
  update_apply ..

end Column

/-- `HiddenMarkovModel`, without `viterbi_reachable`, which is only written after the search. -/
abbrev HiddenMarkovModel := ℕ → Column

def HiddenMarkovModel.clear (m : HiddenMarkovModel) (initialTimestamp : ℕ) : HiddenMarkovModel :=
  fun t => if t < initialTimestamp then m t else .cleared

namespace Trace

variable {P : Type*} (x : Trace P)

def numPoints : ℕ := x.candidatesList.length

def numCandidates (t : ℕ) : ℕ := (x.candidatesList.getD t []).length

def initializeColumn (t : ℕ) (column : Column) : Column :=
  let pruned := fun s => if s < x.numCandidates t then decide (x.emissionLogProbabilities t s = ⊥) else column.pruned s
  { column with
    viterbi := fun s => if s < x.numCandidates t then x.emissionLogProbabilities t s else column.viterbi s
    parents := fun s => if s < x.numCandidates t then (t, s) else column.parents s
    pruned := pruned
    breakage := column.breakage && (range (x.numCandidates t)).all pruned }

/-- `initialize`, at most as many columns as the first argument says; `none` is `INVALID_STATE`. -/
def initializeFrom : ℕ → ℕ → HiddenMarkovModel → Option ℕ × HiddenMarkovModel
  | 0, _, m => (none, m)
  | fuel + 1, t, m =>
    let m := update m t (x.initializeColumn t (m t))
    if t + 1 < x.numPoints && (m t).breakage then initializeFrom fuel (t + 1) m
    else if t + 1 ≥ x.numPoints then (none, m)
    else (some t, m)

def initializeModel (m : HiddenMarkovModel) (initialTimestamp : ℕ) : Option ℕ × HiddenMarkovModel :=
  x.initializeFrom (x.numPoints - initialTimestamp) initialTimestamp m

/-! ### The columns that `initialize` leaves -/

/-- The column of a timestamp at which a matching starts. -/
def startColumn (t : ℕ) : Column := x.initializeColumn t .cleared

theorem startColumn_breakage (t : ℕ) :
    (x.startColumn t).breakage = true ↔ ∀ s < x.numCandidates t, x.emissionLogProbabilities t s = ⊥ := by
  simp only [startColumn, initializeColumn, Column.cleared, Bool.true_and, all_eq_true, mem_range]
  apply forall₂_congr
  intro s valid
  simp [valid]

/-- What `initialize` does to a model that is cleared from the timestamp on. -/
structure Initialized (t : ℕ) (m m' : HiddenMarkovModel) (start : Option ℕ) : Prop where
  kept : ∀ c < t, m' c = m c
  found : ∀ c, start = some c → t ≤ c ∧ c + 1 < x.numPoints ∧ (∀ d, t ≤ d → d < c → (m' d).breakage = true) ∧
    m' c = x.startColumn c ∧ (m' c).breakage = false ∧ ∀ d, c < d → m' d = .cleared
  missing : start = none → ∀ c, t ≤ c → c + 1 < x.numPoints → ∀ s < x.numCandidates c, x.emissionLogProbabilities c s = ⊥

theorem initializeFrom_spec (fuel t : ℕ) (m : HiddenMarkovModel) (cleared : ∀ c, t ≤ c → m c = .cleared)
    (enough : x.numPoints ≤ t + fuel) :
    x.Initialized t m (x.initializeFrom fuel t m).2 (x.initializeFrom fuel t m).1 := by
  induction fuel generalizing t m with
  | zero => exact ⟨fun _ _ => rfl, by simp [initializeFrom], fun _ c _ _ => by omega⟩
  | succ fuel ih =>
    have here : x.initializeColumn t (m t) = x.startColumn t := by rw [cleared t le_rfl, startColumn]
    simp only [initializeFrom, here, update_self]
    split
    · rename_i more
      obtain ⟨inside, broken⟩ := Bool.and_eq_true_iff.1 more
      have later : ∀ c, t + 1 ≤ c → update m t (x.startColumn t) c = .cleared := by
        intro c le
        rw [update_of_ne (by omega), cleared c (by omega)]
      obtain ⟨kept, found, missing⟩ := ih (t + 1) _ later (by omega)
      have there := (kept t (by omega)).trans (update_self ..)
      refine ⟨?_, ?_, ?_⟩
      · intro c before
        rw [kept c (by omega), update_of_ne (by omega)]
      · intro c start
        obtain ⟨after, bound, skipped, rest⟩ := found c start
        refine ⟨by omega, bound, ?_, rest⟩
        intro d le before
        by_cases first : d = t
        · rw [first, there, broken]
        · exact skipped d (by omega) before
      · intro none c le bound s valid
        by_cases first : c = t
        · subst first
          exact (x.startColumn_breakage c).1 broken s valid
        · exact missing none c (by omega) bound s valid
    · rename_i stop
      split_ifs with inside
      · exact ⟨fun c before => update_of_ne (by omega) .., by simp, fun _ c _ _ => by omega⟩
      · have unbroken : (x.startColumn t).breakage = false := by
          simpa [Nat.lt_of_not_ge inside] using stop
        refine ⟨fun c before => update_of_ne (by omega) .., ?_, by simp⟩
        intro c start
        obtain rfl : t = c := Option.some.inj start
        have there : update m t (x.startColumn t) t = x.startColumn t := update_self ..
        refine ⟨le_rfl, by omega, fun d _ _ => by omega, there, (congrArg _ there).trans unbroken, ?_⟩
        intro d after
        exact (update_of_ne (by omega) ..).trans (cleared d (by omega))

/-- `Clear`, then `initialize`. -/
theorem initializeModel_spec (t : ℕ) (m : HiddenMarkovModel) :
    x.Initialized t m (x.initializeModel (m.clear t) t).2 (x.initializeModel (m.clear t) t).1 := by
  have cleared : ∀ c, t ≤ c → m.clear t c = .cleared := fun c le => if_neg (by omega)
  obtain ⟨kept, found, missing⟩ := x.initializeFrom_spec (x.numPoints - t) t (m.clear t) cleared (by omega)
  refine ⟨fun c before => (kept c before).trans (if_pos before), found, missing⟩

/-! ### Transitions -/

def useTimestamps : Bool := x.traceTimestamps.length > 1

/-- `getMedianSampleTime`; the differences wrap around as unsigned numbers. -/
def getMedianSampleTime (timestamps : List UInt32) : UInt32 :=
  let sampleTimes := (zipWith (fun before after => after - before) timestamps timestamps.tail).mergeSort
  sampleTimes.getD (sampleTimes.length / 2) 0

/-- `max_broken_time`, with `MAX_BROKEN_STATES = 10` -/
def maxBrokenTime : UInt32 := (if x.useTimestamps then max 1 (getMedianSampleTime x.traceTimestamps) else 1) * 10

def stepTime (prev t : ℕ) : UInt32 :=
  if x.useTimestamps then x.traceTimestamps.getD t 0 - x.traceTimestamps.getD prev 0 else 1

def maxDistanceDelta (prev t : ℕ) : ℚ :=
  if x.useTimestamps then (x.stepTime prev t).toNat * x.mapMatchingMaxSpeed else 2000

def gapInTrace (prev t : ℕ) : Bool :=
  if x.useTimestamps && x.allowSplitting then x.stepTime prev t > x.maxBrokenTime else t - prev > 10

def haversineDistance (prev t : ℕ) : ℚ :=
  x.greatCircleDistance (x.traceCoordinates.getD prev ⟨0, 0⟩) (x.traceCoordinates.getD t ⟨0, 0⟩)

def weightUpperBound (prev t : ℕ) : ℤ :=
  truncate ((x.haversineDistance prev t + x.maxDistanceDelta prev t) / 4 * x.weightMultiplier)

variable [Inhabited P]

/-- `candidates_list[t][s].phantom_node` -/
def phantomNode (c : ℕ × ℕ) : P := (x.candidatesList.getD c.1 []).getD c.2 default

def networkDistance (c d : ℕ × ℕ) : ℚ := x.getNetworkDistance (x.phantomNode c) (x.phantomNode d) (x.weightUpperBound c.1 d.1)

/-- The difference `d_t` of the two distances of a transition. -/
def distanceDelta (c d : ℕ × ℕ) : ℚ := |x.networkDistance c d - x.haversineDistance c.1 d.1|

/-- Candidates as states: a transition is possible if its distances differ by less than the limit. -/
def states : ScoredStates (ℕ × ℕ) ℕ ℚ where
  time c := c.1
  Valid c := c.2 < x.numCandidates c.1
  Possible c d := x.distanceDelta c d < x.maxDistanceDelta c.1 d.1
  emission c := x.emissionLogProbabilities c.1 c.2
  transition c d := x.transitionLogProbability (x.distanceDelta c d)

/-- The body of the double loop: the transition from candidate `s` of `prev` to `s'` of `t`. -/
def relax (prev : ℕ) (before : Column) (t s s' : ℕ) (current : Column) : Column :=
  let newValue := before.viterbi s + x.emissionLogProbabilities t s'
  if current.viterbi s' > newValue then current
  else if x.distanceDelta (prev, s) (t, s') ≥ x.maxDistanceDelta prev t then current
  else
    let newValue := newValue + x.transitionLogProbability (x.distanceDelta (prev, s) (t, s'))
    if newValue > current.viterbi s' then
      current.put s' newValue (prev, s) (x.networkDistance (prev, s) (t, s'))
    else current

/-- The transitions from candidate `s` of `prev`. -/
def relaxAll (prev : ℕ) (before : Column) (t s : ℕ) (current : Column) : Column :=
  (range (x.numCandidates t)).foldl (fun current s' => x.relax prev before t s s' current) current

def nextColumn (prev : ℕ) (before : Column) (t : ℕ) (current : Column) : Column :=
  (range (x.numCandidates prev)).foldl
    (fun current s => if before.pruned s then current else x.relaxAll prev before t s current) current

/-- Transitions are not more probable than certain. -/
def Nonpositive : Prop := ∀ d, 0 ≤ d → x.transitionLogProbability d ≤ 0

/-- The value that a transition gives. -/
def offer (prev : ℕ) (before : Column) (t s s' : ℕ) : WithBot ℚ :=
  before.viterbi s + (x.states.emission (t, s') + x.states.transition (prev, s) (t, s'))

/-- Column `t` after the transitions of the list. -/
structure Offered (prev : ℕ) (before : Column) (t : ℕ) (offers : List (ℕ × ℕ)) (current : Column) : Prop where
  bound : x.Nonpositive → ∀ s s', (s, s') ∈ offers → x.states.Possible (prev, s) (t, s') → x.offer prev before t s s' ≤ current.viterbi s'
  attained : ∀ s', current.viterbi s' ≠ ⊥ → ∃ s, (s, s') ∈ offers ∧ x.states.Possible (prev, s) (t, s') ∧
    current.parents s' = (prev, s) ∧ current.viterbi s' = x.offer prev before t s s'
  pruned : ∀ s', current.pruned s' = true ↔ current.viterbi s' = ⊥
  breakage : current.breakage = true ↔ ∀ s', current.viterbi s' = ⊥

variable {x} {prev t s s' : ℕ} {before current : Column} {offers : List (ℕ × ℕ)}

theorem Offered.cleared : x.Offered prev before t [] .cleared where
  bound _ _ _ here := absurd here not_mem_nil
  attained _ found := absurd rfl found
  pruned _ := ⟨fun _ => rfl, fun _ => rfl⟩
  breakage := ⟨fun _ _ => rfl, fun _ => rfl⟩

section Offers

variable (offered : x.Offered prev before t offers current)

include offered

/-- A transition that changes nothing gives no better value. -/
theorem Offered.skip (low : x.Nonpositive → x.states.Possible (prev, s) (t, s') → x.offer prev before t s s' ≤ current.viterbi s') :
    x.Offered prev before t (offers ++ [(s, s')]) current where
  bound nonpositive r r' here possible := by
    rcases mem_append.1 here with here | here
    · exact offered.bound nonpositive r r' here possible
    · cases mem_singleton.1 here
      exact low nonpositive possible
  attained r' found := by
    obtain ⟨r, here, rest⟩ := offered.attained r' found
    exact ⟨r, mem_append_left _ here, rest⟩
  pruned := offered.pruned
  breakage := offered.breakage

theorem Offered.relax (s s' : ℕ) :
    x.Offered prev before t (offers ++ [(s, s')]) (x.relax prev before t s s' current) := by
  have offer_eq : x.offer prev before t s s' = before.viterbi s + x.emissionLogProbabilities t s' +
      (x.transitionLogProbability (x.distanceDelta (prev, s) (t, s')) : WithBot ℚ) := (add_assoc ..).symm
  simp only [Trace.relax]
  split_ifs with worse far better
  · apply offered.skip
    intro nonpositive _
    have step : (x.transitionLogProbability (x.distanceDelta (prev, s) (t, s')) : WithBot ℚ) ≤ 0 := by
      exact_mod_cast nonpositive _ (abs_nonneg _)
    rw [offer_eq]
    exact (add_le_of_nonpos_right step).trans worse.le
  · apply offered.skip
    intro _ possible
    exact absurd possible far.not_gt
  · have possible : x.states.Possible (prev, s) (t, s') := lt_of_not_ge far
    have found : x.offer prev before t s s' ≠ ⊥ := by
      rw [offer_eq]
      exact (bot_le.trans_lt better).ne'
    rw [← offer_eq] at better ⊢
    refine ⟨?_, ?_, ?_, ?_⟩
    · intro nonpositive r r' here possible'
      rw [Column.put_viterbi]
      rcases mem_append.1 here with here | here
      · have earlier := offered.bound nonpositive r r' here possible'
        split
        · subst r'
          exact earlier.trans better.le
        · exact earlier
      · cases mem_singleton.1 here
        rw [if_pos rfl]
    · intro r' found'
      rw [Column.put_viterbi] at found' ⊢
      rw [Column.put_parents]
      by_cases same : r' = s'
      · subst same
        exact ⟨s, by simp, possible, if_pos rfl, if_pos rfl⟩
      · rw [if_neg same] at found' ⊢
        obtain ⟨r, here, rest⟩ := offered.attained r' found'
        refine ⟨r, mem_append_left _ here, ?_⟩
        rwa [if_neg same]
    · intro r'
      rw [Column.put_pruned, Column.put_viterbi]
      split
      · simp [found]
      · exact offered.pruned r'
    · refine ⟨fun broken => absurd broken Bool.false_ne_true, fun none => absurd (none s') ?_⟩
      rwa [Column.put_viterbi, if_pos rfl]
  · apply offered.skip
    intro _ _
    rw [offer_eq]
    exact le_of_not_gt better

theorem Offered.foldl_relax (targets : List ℕ) :
    x.Offered prev before t (offers ++ targets.map (s, ·))
      (targets.foldl (fun current s' => x.relax prev before t s s' current) current) := by
  induction targets generalizing offers current with
  | nil => simpa using offered
  | cons s' targets ih =>
    have rest := ih (offered.relax s s')
    rwa [append_assoc] at rest

/-- Candidates without a value offer nothing. -/
theorem Offered.foldl_skip (none : before.viterbi s = ⊥) (targets : List ℕ) :
    x.Offered prev before t (offers ++ targets.map (s, ·)) current := by
  induction targets generalizing offers with
  | nil => simpa using offered
  | cons s' targets ih =>
    have low : x.offer prev before t s s' ≤ current.viterbi s' := by
      rw [offer, none]
      exact bot_le
    have rest := ih (offered.skip fun _ _ => low)
    rwa [append_assoc] at rest

end Offers

theorem Offered.foldl_relaxAll (pruned : ∀ s, before.pruned s = true ↔ before.viterbi s = ⊥)
    (offered : x.Offered prev before t offers current) (sources : List ℕ) :
    x.Offered prev before t (offers ++ sources.flatMap fun s => (range (x.numCandidates t)).map (s, ·))
      (sources.foldl (fun current s => if before.pruned s then current else x.relaxAll prev before t s current) current) := by
  induction sources generalizing offers current with
  | nil => simpa using offered
  | cons s sources ih =>
    rw [foldl_cons, flatMap_cons, ← append_assoc]
    apply ih
    split
    · exact offered.foldl_skip ((pruned s).1 ‹_›) _
    · exact offered.foldl_relax _

/-! ### Settled columns -/

/-- Column `c` of a matching that starts at `start`: its values are scores over some list of times, and best ones. -/
structure SettledColumn (x : Trace P) (m : HiddenMarkovModel) (start c : ℕ) : Prop where
  pruned : ∀ s, (m c).pruned s = true ↔ (m c).viterbi s = ⊥
  alive : ∃ s < x.numCandidates c, (m c).viterbi s ≠ ⊥
  settled : ∃ times : List ℕ, (times ++ [c]).head? = some start ∧ (times ++ [c]).Pairwise (· < ·) ∧
    (∀ s < x.numCandidates c, x.states.Reached (fun d => (m d.1).viterbi d.2) (fun d => (m d.1).parents d.2) (times ++ [c]) (c, s)) ∧
    (x.Nonpositive → ∀ s < x.numCandidates c, x.states.Bounded (fun d => (m d.1).viterbi d.2) (times ++ [c]) (c, s))

variable {m m' : HiddenMarkovModel} {start c : ℕ}

theorem SettledColumn.congr (column : x.SettledColumn m start c) (same : ∀ d ≤ c, m' d = m d) : x.SettledColumn m' start c := by
  obtain ⟨pruned, alive, times, first, increasing, reached, bounded⟩ := column
  have before : ∀ d ∈ times ++ [c], d ≤ c := by
    intro d here
    rcases mem_append.1 here with here | here
    · exact ((pairwise_append.1 increasing).2.2 d here c (by simp)).le
    · rw [mem_singleton.1 here]
  have value : ∀ s, (m' c).viterbi s = (m c).viterbi s := fun s => by rw [same c le_rfl]
  refine ⟨by rwa [same c le_rfl], by rwa [same c le_rfl], times, first, increasing, ?_, ?_⟩
  · intro s valid
    apply (reached s valid).congr (value s)
    intro a here
    rw [same a.1 (before a.1 here)]
  · intro nonpositive s valid
    exact (bounded nonpositive s valid).congr (value s)

theorem SettledColumn.first (column : m start = x.startColumn start) (unbroken : (m start).breakage = false) :
    x.SettledColumn m start start := by
  have value : ∀ s < x.numCandidates start, (m start).viterbi s = x.states.emission (start, s) := by
    intro s valid
    rw [column]
    exact if_pos valid
  refine ⟨?_, ?_, [], rfl, pairwise_singleton .., ?_, ?_⟩
  · intro s
    simp only [column, startColumn, initializeColumn, Column.cleared]
    split <;> simp
  · rw [column] at unbroken
    by_contra none
    push Not at none
    have broken := (x.startColumn_breakage start).2 fun s valid => (value s valid).symm.trans (none s valid)
    exact absurd (broken.symm.trans unbroken) Bool.false_ne_true.symm
  · intro s valid
    exact ScoredStates.reached_first (M := x.states) (b := (start, s)) valid (value s valid)
  · intro _ s valid
    exact ScoredStates.bounded_first (M := x.states) (b := (start, s)) (value s valid)

/-- An unbroken column after a settled one is settled. -/
theorem SettledColumn.next (column : x.SettledColumn m start prev) (later : prev < t)
    (filled : m t = x.nextColumn prev (m prev) t .cleared) (unbroken : (m t).breakage = false) :
    x.SettledColumn m start t := by
  obtain ⟨pruned, -, times, first, increasing, reached, bounded⟩ := column
  have offered : x.Offered prev _ t _ (x.nextColumn prev (m prev) t .cleared) := Offered.cleared.foldl_relaxAll pruned _
  rw [← filled] at offered
  have valid_iff : ∀ s s', (s, s') ∈ ((range (x.numCandidates prev)).flatMap fun s =>
      (range (x.numCandidates t)).map (s, ·)) ↔ s < x.numCandidates prev ∧ s' < x.numCandidates t := by
    simp [mem_flatMap]
  refine ⟨offered.pruned, ?_, times ++ [prev], ?_, ?_, ?_, ?_⟩
  · by_contra none
    push Not at none
    have broken := offered.breakage.2 fun s' => by
      by_contra found
      obtain ⟨s, here, -⟩ := offered.attained s' found
      exact found (none s' ((valid_iff s s').1 here).2)
    exact absurd (broken.symm.trans unbroken) Bool.false_ne_true.symm
  · rw [head?_append, first]
    rfl
  · rw [pairwise_append]
    refine ⟨increasing, pairwise_singleton .., ?_⟩
    intro d here e last
    rw [mem_singleton.1 last]
    rcases mem_append.1 here with here | here
    · exact ((pairwise_append.1 increasing).2.2 d here prev (by simp)).trans later
    · rwa [mem_singleton.1 here]
  · intro s' valid
    apply ScoredStates.Reached.next (b := (t, s')) _ valid
    · intro found
      obtain ⟨s, here, possible, parent, value⟩ := offered.attained s' found
      exact ⟨(prev, s), ((valid_iff s s').1 here).1, rfl, possible, parent, value⟩
    · intro (_, s) valid' (rfl : _ = prev)
      exact reached s valid'
  · intro nonpositive s' valid
    apply ScoredStates.Bounded.next (b := (t, s'))
    · intro (_, s) valid' (rfl : _ = prev)
      exact bounded nonpositive s valid'
    · intro (_, s) valid' (rfl : _ = prev) possible
      exact offered.bound nonpositive s s' ((valid_iff s s').2 ⟨valid', valid⟩) possible

/-- A settled column has a candidate with an emission. -/
theorem SettledColumn.emission (column : x.SettledColumn m start c) :
    ∃ s < x.numCandidates c, x.emissionLogProbabilities c s ≠ ⊥ := by
  obtain ⟨-, ⟨s, valid, value⟩, times, -, -, reached, -⟩ := column
  obtain ⟨cs, -, -, score⟩ := reached s valid value
  have scored : x.states.score (cs ++ [(c, s)]) ≠ ⊥ := by rwa [score]
  exact ⟨s, valid, x.states.emission_ne_bot scored⟩

end Trace

end Osrm.MapMatching
