import Mathlib.Data.List.MinMax
import Osrm.Engine.HiddenMarkovModel

/-!
# Map matching

`mapMatching` walks along the trace, filling one column of the model after the other. A column that
no transition reaches is a breakage: then the last unbroken timestamp is given up, too. When none is
left, or when the gap to the last one is too large, the trace is split, the model is cleared from the
split on and the walk starts again there, which may be earlier than where it was.

The parts of the trace between the split points are `Segment`s of the model; each keeps its settled
columns while later parts are cleared. The matchings are read off them at the end, by going back
through the parents from the best candidate of the last unbroken column.
-/

namespace Osrm.MapMatching

open Function List HiddenMarkovModel

open Lib (ScoredStates)

structure SubMatching (P : Type) where
  nodes : List P
  indices : List ℕ
  alternativesCount : List ℕ
  confidence : ℚ
deriving DecidableEq

/-- The variables of the main loop of `mapMatching`. -/
structure Search where
  t : ℕ
  /-- `none` is `INVALID_STATE`. -/
  breakageBegin : Option ℕ
  splitPoints : List ℕ
  /-- The last one is the first of the list. -/
  prevUnbrokenTimestamps : List ℕ
  model : HiddenMarkovModel

/-- The split points after the main loop. -/
def Search.allSplitPoints (st : Search) : List ℕ :=
  match st.prevUnbrokenTimestamps with
  | [] => st.splitPoints
  | last :: _ => st.splitPoints ++ [last + 1]

/-- `viterbi_reachable` -/
abbrev Reachable := ℕ × ℕ → Bool

namespace HiddenMarkovModel

/-- The last unbroken timestamp before `e`, not searched for before `b`; `none` if the index would wrap around. -/
def lastUnbroken (m : HiddenMarkovModel) (b : ℕ) : ℕ → Option ℕ
  | 0 => none
  | e + 1 => if b ≤ e && (m e).breakage then lastUnbroken m b e else some e

/-- The first unbroken one of so many timestamps from `b` on, or the one after them. -/
def firstUnbroken (m : HiddenMarkovModel) : ℕ → ℕ → ℕ
  | 0, b => b
  | count + 1, b => if (m b).breakage then firstUnbroken m count (b + 1) else b

/-- The loop over `reconstructed_indices`, which goes back from candidate `c` to the timestamp `b`. -/
def reconstruct (m : HiddenMarkovModel) (b : ℕ) : ℕ → ℕ × ℕ → List (ℕ × ℕ) → Option (List (ℕ × ℕ))
  | 0, _, _ => none
  | fuel + 1, c, found =>
    if c.1 > b then
      let next := (m c.1).parents c.2
      if c.1 = next.1 then some (c :: c :: found) else reconstruct m b fuel next (c :: found)
    else some (c :: found)

/-- The loop that marks the candidates on the way back from candidate `c`. -/
def fillReachable (m : HiddenMarkovModel) (b : ℕ) : ℕ → ℕ × ℕ → Reachable → Option Reachable
  | 0, _, _ => none
  | fuel + 1, c, reachable =>
    if c.1 > b && !(reachable c || (m c.1).pruned c.2) then
      fillReachable m b fuel ((m c.1).parents c.2) (update reachable c true)
    else some (update reachable c true)

end HiddenMarkovModel

namespace Trace

variable {P : Type} [Inhabited P] (x : Trace P) (st : Search) (m : HiddenMarkovModel)

/-- What an iteration does where there is no gap in the trace. -/
def advance (prev : ℕ) (rest : List ℕ) (st : Search) : Search :=
  let column := x.nextColumn prev (st.model prev) st.t (st.model st.t)
  let model := update st.model st.t column
  if column.breakage then
    let breakageBegin := match st.breakageBegin with
      | some b => if st.t < b then st.t else b
      | none => st.t
    { st with model := model, breakageBegin := some breakageBegin, prevUnbrokenTimestamps := rest }
  else { st with model := model, prevUnbrokenTimestamps := st.t :: prev :: rest }

/-- What an iteration does where the trace is split, and whether the loop goes on. -/
def split : Bool × Search :=
  let splitIndex := st.breakageBegin.getD st.t
  let splitPoints := st.splitPoints ++ [splitIndex]
  match x.initializeModel (st.model.clear splitIndex) splitIndex with
  | (none, model) => (false, { st with breakageBegin := none, splitPoints := splitPoints, model := model })
  | (some newStart, model) => (true, ⟨newStart, none, splitPoints, [newStart], model⟩)

/-- One iteration of the main loop; `none` if `prev_unbroken_timestamps` is read while it is empty. -/
def iterate : Option (Bool × Search) :=
  match st.prevUnbrokenTimestamps with
  | [] => none
  | prev :: rest =>
    let gapInTrace := x.gapInTrace prev st.t
    let st := if gapInTrace then st else x.advance prev rest st
    if st.prevUnbrokenTimestamps.isEmpty || gapInTrace then some (x.split st) else some (true, st)

/-- The main loop; `none` if it takes more iterations than the first argument says. -/
def loop : ℕ → Search → Option Search
  | 0, _ => none
  | fuel + 1, st =>
    if st.t < x.numPoints then
      match x.iterate st with
      | none => none
      | some (true, st) => loop fuel { st with t := st.t + 1 }
      | some (false, st) => some st
    else some st

/-- `parent_timestamp_index - sub_matching_begin + 1`, which is computed with unsigned numbers. -/
def unsignedCount (last b : ℕ) : ℤ := ((last : ℤ) - b + 1) % 2 ^ 64

/-- The index of the maximal entry of a column. -/
def maxElement (column : Column) (t : ℕ) : ℕ := ((range (x.numCandidates t)).argmax column.viterbi).getD 0

/-- The sub-matching of the candidates `path`. -/
def toSubMatching (reachable : Reachable) (path : List (ℕ × ℕ)) : SubMatching P where
  nodes := path.map x.phantomNode
  indices := path.map Prod.fst
  alternativesCount := path.map fun c => (range (x.numCandidates c.1)).countP (fun s => reachable (c.1, s)) - 1
  confidence := x.confidence (zipWith (fun prev curr => x.haversineDistance prev.1 curr.1) path path.tail).sum
    (path.map fun c => (m c.1).pathDistances c.2).sum

/-- The body of the loop over `split_points`, for the part of the trace from `b` to `e`. -/
def subMatching (b e : ℕ) (reachable : Reachable) : Option (Option (SubMatching P) × Reachable) := do
  let last ← m.lastUnbroken b e
  let b := m.firstUnbroken (e - b) b
  if unsignedCount last b < 2 then some (none, reachable)
  else
    let path ← m.reconstruct b (last + 1) (last, x.maxElement (m last) last) []
    let reachable := path.foldl (fun reachable c => update reachable c true) reachable
    if path.length < 2 then some (none, reachable)
    else
      let reachable ← (range (x.numCandidates last)).foldlM
        (fun reachable s => m.fillReachable b (last + 1) (last, s) reachable) reachable
      some (some (x.toSubMatching m reachable path), reachable)

def subMatchings (m : HiddenMarkovModel) : List ℕ → ℕ → Reachable → Option (List (SubMatching P))
  | [], _, _ => some []
  | e :: rest, b, reachable => do
    let (found, reachable) ← x.subMatching m b e reachable
    let others ← subMatchings m rest e reachable
    some (found.toList ++ others)

def mapMatching (fuel : ℕ) : Option (List (SubMatching P)) :=
  match x.initializeModel (clear (fun _ => .cleared) 0) 0 with
  | (none, _) => some []
  | (some initialTimestamp, model) => do
    let st ← x.loop fuel ⟨initialTimestamp + 1, none, [], [initialTimestamp], model⟩
    x.subMatchings st.model st.allSplitPoints initialTimestamp fun _ => false

/-! ### The parts of the model -/

/-- The columns from `b` to `e` are those of a matching that starts at `start`, the first unbroken timestamp. -/
structure Segment (m : HiddenMarkovModel) (b e start : ℕ) : Prop where
  le : b ≤ start
  lt : start < e
  skipped : ∀ c, b ≤ c → c < start → (m c).breakage = true
  unbroken : (m start).breakage = false
  settled : ∀ c, start ≤ c → c < e → (m c).breakage = false → x.SettledColumn m start c

/-- The points split the columns from `b` to `e` into segments. -/
def Segments (m : HiddenMarkovModel) : ℕ → List ℕ → ℕ → Prop
  | b, [], e => b = e
  | b, p :: rest, e => (∃ start, x.Segment m b p start) ∧ Segments m p rest e

variable {x} {m m' : HiddenMarkovModel} {b e e' start c p : ℕ} {points : List ℕ}

/-- A segment with the same columns as far as it went, and settled ones behind. -/
theorem Segment.resize (segment : x.Segment m b e start) (lt : start < e') (same : ∀ c < e, c < e' → m' c = m c)
    (new : ∀ c, e ≤ c → c < e' → (m' c).breakage = false → x.SettledColumn m' start c) : x.Segment m' b e' start where
  le := segment.le
  lt := lt
  skipped c after before := by
    rw [same c (before.trans segment.lt) (before.trans lt)]
    exact segment.skipped c after before
  unbroken := by
    rw [same start segment.lt lt]
    exact segment.unbroken
  settled c after before unbroken := by
    by_cases old : c < e
    · rw [same c old before] at unbroken
      exact (segment.settled c after old unbroken).congr fun d le => same d (by omega) (by omega)
    · exact new c (by omega) before unbroken

theorem Segment.shrink (segment : x.Segment m b e start) (lt : start < e') (le : e' ≤ e) : x.Segment m b e' start :=
  segment.resize lt (fun _ _ _ => rfl) fun c _ _ => by omega

section

variable (segments : x.Segments m b points e)

include segments

theorem Segments.le : b ≤ e := by
  induction points generalizing b with
  | nil => exact segments.le
  | cons p rest ih =>
    obtain ⟨⟨start, segment⟩, others⟩ := segments
    have bound := ih others
    have := segment.le
    have := segment.lt
    omega

theorem Segments.congr (same : ∀ c < e, m' c = m c) : x.Segments m' b points e := by
  induction points generalizing b with
  | nil => exact segments
  | cons p rest ih =>
    obtain ⟨⟨start, segment⟩, others⟩ := segments
    have bound := others.le
    exact ⟨⟨start, segment.resize segment.lt (fun c before _ => same c (by omega)) fun c _ _ => by omega⟩, ih others⟩

theorem Segments.snoc (last : x.Segment m e e' start) :
    x.Segments m b (points ++ [e']) e' := by
  induction points generalizing b with
  | nil =>
    obtain rfl : b = e := segments
    exact ⟨⟨start, last⟩, rfl⟩
  | cons p rest ih => exact ⟨segments.1, ih segments.2⟩

end

/-! ### The main loop -/

/-- The columns before `t` are filled: `b` is the last split point and `start` where the walk started again. -/
structure Walking (x : Trace P) (initial b start t : ℕ) (st : Search) : Prop where
  closed : x.Segments st.model initial st.splitPoints b
  segment : x.Segment st.model b t start
  cleared : ∀ c, t ≤ c → st.model c = .cleared
  unbroken : ∀ p ∈ st.prevUnbrokenTimestamps, start ≤ p ∧ p < t ∧ (st.model p).breakage = false
  breakage : ∀ b, st.breakageBegin = some b → start < b ∧ b < t

structure Running (x : Trace P) (initial b start : ℕ) (st : Search) : Prop extends x.Walking initial b start st.t st where
  nonempty : st.prevUnbrokenTimestamps ≠ []
  inside : st.t ≤ x.numPoints

/-- What holds after the loop: the split points make segments, but for a last one that may be left over. -/
def Finished (x : Trace P) (initial : ℕ) (st : Search) : Prop :=
  ∃ points stale e, st.allSplitPoints = points ++ stale ∧ x.Segments st.model initial points e ∧
    (stale = [] ∨ ∃ p < e, stale = [p + 1])

/-- How many iterations are left, at most: either `start` grows or `t` does. -/
def remaining (x : Trace P) (start : ℕ) (st : Search) : ℕ := (x.numPoints - start) * (x.numPoints + 1) + (x.numPoints - st.t)

variable {initial t s : ℕ} {st st' : Search} {matching : SubMatching P}

omit [Inhabited P] in
theorem remaining_restart {start' : ℕ} (later : start < start') (inside : start' + 1 ≤ x.numPoints) (place : st'.t = start' + 1) :
    x.remaining start' st' < x.remaining start st := by
  have factor : (x.numPoints - start') * (x.numPoints + 1) + (x.numPoints + 1) ≤ (x.numPoints - start) * (x.numPoints + 1) := by
    rw [← Nat.succ_mul]
    exact Nat.mul_le_mul_right _ (by omega)
  unfold remaining
  omega

/-- The walk starts at the column that `initialize` found. -/
theorem Initialized.running (found : x.Initialized t m m' (some start)) (closed : x.Segments m' initial points b)
    (after : t ≤ b) (before : b ≤ start) : x.Running initial b start ⟨start + 1, none, points, [start], m'⟩ := by
  obtain ⟨-, inside, skipped, column, unbroken, later⟩ := found.found start rfl
  refine ⟨⟨closed, ?_, later, ?_, fun _ none => nomatch none⟩, cons_ne_nil start [], inside.le⟩
  · refine ⟨before, Nat.lt_succ_self _, fun c le => skipped c (after.trans le), unbroken, ?_⟩
    intro c le (lt : c < start + 1) _
    obtain rfl : start = c := by omega
    exact .first column unbroken
  · intro p here
    obtain rfl := mem_singleton.1 here
    exact ⟨le_rfl, Nat.lt_succ_self _, unbroken⟩

/-- A split closes the segment before it. The walk starts again behind the old start, or no candidate is left. -/
theorem Walking.split {splitIndex : ℕ} (walking : x.Walking initial b start t st)
    (index : st.breakageBegin.getD st.t = splitIndex) (behind : start < splitIndex) (before : splitIndex ≤ t) :
    (∃ newStart model, x.split st = (true, ⟨newStart, none, st.splitPoints ++ [splitIndex], [newStart], model⟩) ∧ start < newStart ∧
      x.Running initial splitIndex newStart ⟨newStart + 1, none, st.splitPoints ++ [splitIndex], [newStart], model⟩) ∨
    ∃ model, x.split st = (false, { st with breakageBegin := none, splitPoints := st.splitPoints ++ [splitIndex], model := model }) ∧
      x.Segments model initial (st.splitPoints ++ [splitIndex]) splitIndex ∧
      ∀ c, splitIndex ≤ c → c + 1 < x.numPoints → ∀ s < x.numCandidates c, x.emissionLogProbabilities c s = ⊥ := by
  have segment := walking.segment.shrink behind before
  have spec := x.initializeModel_spec splitIndex st.model
  simp only [Trace.split, index]
  rcases init : x.initializeModel (st.model.clear splitIndex) splitIndex with ⟨newStart, model⟩
  rw [init] at spec
  have segments := (walking.closed.snoc segment).congr spec.kept
  cases newStart with
  | none => exact .inr ⟨model, rfl, segments, spec.missing rfl⟩
  | some newStart =>
    have after := (spec.found newStart rfl).1
    exact .inl ⟨newStart, model, rfl, segment.lt.trans_le after, spec.running segments le_rfl after⟩

section

variable (running : x.Running initial b start st)

include running

/-- The column that `advance` fills is broken or settled. -/
theorem Running.advance
    {prev : ℕ} {rest : List ℕ} (stack : st.prevUnbrokenTimestamps = prev :: rest) :
    x.Walking initial b start (st.t + 1) (x.advance prev rest st) ∧ (x.advance prev rest st).t = st.t ∧
      ((x.advance prev rest st).prevUnbrokenTimestamps = [] → (x.advance prev rest st).breakageBegin ≠ none) := by
  obtain ⟨⟨closed, segment, cleared, unbroken, breakage⟩, -, inside⟩ := running
  obtain ⟨after, before, whole⟩ := unbroken prev (by simp [stack])
  have column := cleared st.t le_rfl
  simp only [Trace.advance, column]
  generalize filled : x.nextColumn prev (st.model prev) st.t .cleared = column'
  have kept : ∀ c < st.t, update st.model st.t column' c = st.model c := fun c lt => update_of_ne lt.ne ..
  have here : update st.model st.t column' st.t = column' := update_self ..
  have closed' := closed.congr fun c lt => kept c (lt.trans_le (segment.le.trans segment.lt.le))
  have cleared' : ∀ c, st.t + 1 ≤ c → update st.model st.t column' c = .cleared := by
    intro c le
    rw [update_of_ne (by omega), cleared c (by omega)]
  have segment' : x.Segment (update st.model st.t column') b (st.t + 1) start := by
    apply segment.resize (Nat.lt_succ_of_lt segment.lt) fun c lt _ => kept c lt
    intro c le lt
    obtain rfl : c = st.t := by omega
    apply SettledColumn.next ((segment.settled prev after before whole).congr fun d le => kept d (by omega)) before
    rw [here, kept prev before, filled]
  have unbroken' : ∀ p ∈ st.prevUnbrokenTimestamps, start ≤ p ∧ p < st.t + 1 ∧
      (update st.model st.t column' p).breakage = false := by
    intro p member
    obtain ⟨after, before, whole⟩ := unbroken p member
    rw [kept p before]
    exact ⟨after, by omega, whole⟩
  rw [stack] at unbroken'
  have lt := segment.lt
  split_ifs with ok
  · refine ⟨⟨closed', segment', cleared', fun p member => unbroken' p (mem_cons_of_mem _ member), ?_⟩, rfl, by simp⟩
    rintro _ ⟨⟩
    split
    · rename_i b' recorded
      obtain ⟨behind, before⟩ := breakage b' recorded
      split <;> omega
    · omega
  · refine ⟨⟨closed', segment', cleared', ?_, ?_⟩, rfl, by simp⟩
    · intro p member
      rcases mem_cons.1 member with rfl | member
      · exact ⟨lt.le, Nat.lt_succ_self _, (congrArg Column.breakage here).trans (Bool.eq_false_of_not_eq_true ok)⟩
      · exact unbroken' p member
    · intro b' recorded
      obtain ⟨behind, before⟩ := breakage b' recorded
      omega

/-- **One iteration.** The loop goes on in a state of the same kind with fewer iterations left, or it is finished. -/
theorem Running.iterate (more : st.t < x.numPoints) :
    (∃ b' start' st', x.iterate st = some (true, st') ∧ x.Running initial b' start' { st' with t := st'.t + 1 } ∧
      x.remaining start' { st' with t := st'.t + 1 } < x.remaining start st) ∨
    ∃ st', x.iterate st = some (false, st') ∧ x.Finished initial st' := by
  obtain ⟨prev, rest, stack⟩ := exists_cons_of_ne_nil running.nonempty
  simp only [Trace.iterate, stack]
  by_cases gap : x.gapInTrace prev st.t = true
  · simp only [gap, Bool.or_true, if_true]
    have place : start < st.breakageBegin.getD st.t ∧ st.breakageBegin.getD st.t ≤ st.t := by
      cases recorded : st.breakageBegin with
      | none => exact ⟨running.segment.lt, le_rfl⟩
      | some b' => exact ⟨(running.breakage b' recorded).1, (running.breakage b' recorded).2.le⟩
    rcases running.split rfl place.1 place.2 with ⟨newStart, model, result, later, again⟩ | ⟨model, result, segments, missing⟩
    · exact .inl ⟨_, newStart, _, by rw [result], again, remaining_restart later again.inside rfl⟩
    · refine .inr ⟨_, by rw [result], _, [prev + 1], _, ?_, segments, .inr ⟨prev, ?_, rfl⟩⟩
      · simp only [Search.allSplitPoints, stack]
      · -- the last unbroken column has a candidate, so the search for a new start would have found it
        by_contra behind
        obtain ⟨after, before, whole⟩ := running.unbroken prev (by simp [stack])
        obtain ⟨s, valid, value⟩ := (running.segment.settled prev after before whole).emission
        exact value (missing prev (by omega) (by omega) s valid)
  · obtain ⟨walking, same, broken⟩ := running.advance stack
    simp only [gap, Bool.or_false, Bool.false_eq_true, if_false]
    split
    · rename_i empty
      have none := isEmpty_iff.1 empty
      obtain ⟨b', recorded⟩ := Option.ne_none_iff_exists'.1 (broken none)
      have index : (x.advance prev rest st).breakageBegin.getD (x.advance prev rest st).t = b' := by rw [recorded, Option.getD_some]
      obtain ⟨behind, before⟩ := walking.breakage b' recorded
      rcases walking.split index behind before.le with ⟨newStart, model, result, later, again⟩ | ⟨model, result, segments, -⟩
      · exact .inl ⟨_, newStart, _, by rw [result], again, remaining_restart later again.inside rfl⟩
      · refine .inr ⟨_, by rw [result], _, [], _, ?_, segments, .inl rfl⟩
        simp [Search.allSplitPoints, none]
    · rename_i unbroken
      refine .inl ⟨b, start, _, rfl, ⟨?_, ?_, ?_⟩, ?_⟩
      · rw [← same] at walking
        exact ⟨walking.closed, walking.segment, walking.cleared, walking.unbroken, walking.breakage⟩
      · simpa using unbroken
      · change (x.advance prev rest st).t + 1 ≤ x.numPoints
        rw [same]
        exact more
      · simp only [remaining]
        omega

/-- **All iterations.** The loop ends after the iterations that `remaining` counts, and is finished then. -/
theorem Running.loop :
    ∃ result, (∀ fuel, x.remaining start st < fuel → x.loop fuel st = some result) ∧ x.Finished initial result := by
  induction count : x.remaining start st using Nat.strong_induction_on generalizing b start st with
  | _ count ih =>
    by_cases more : st.t < x.numPoints
    · rcases running.iterate more with ⟨b', start', st', step, again, fewer⟩ | ⟨st', step, finished⟩
      · obtain ⟨result, runs, finished⟩ := ih _ (count ▸ fewer) again rfl
        refine ⟨result, ?_, finished⟩
        intro fuel enough
        obtain ⟨fuel, rfl⟩ : ∃ k, fuel = k + 1 := ⟨fuel - 1, by omega⟩
        simp only [Trace.loop, more, step]
        exact runs fuel (by omega)
      · refine ⟨st', ?_, finished⟩
        intro fuel enough
        obtain ⟨fuel, rfl⟩ : ∃ k, fuel = k + 1 := ⟨fuel - 1, by omega⟩
        simp [Trace.loop, more, step]
    · refine ⟨st, ?_, ?_⟩
      · intro fuel enough
        obtain ⟨fuel, rfl⟩ : ∃ k, fuel = k + 1 := ⟨fuel - 1, by omega⟩
        simp [Trace.loop, more]
      · obtain ⟨last, rest, stack⟩ := exists_cons_of_ne_nil running.nonempty
        obtain ⟨after, before, -⟩ := running.unbroken last (by simp [stack])
        have final := running.closed.snoc (running.segment.shrink (Nat.lt_succ_of_le after) before)
        refine ⟨_, [], _, ?_, final, .inl rfl⟩
        simp [Search.allSplitPoints, stack]

end

/-! ### Reading off the matchings -/

/-- The sub-matching is a sequence of candidates, and no sequence over the same timestamps scores more. -/
def IsOptimal (x : Trace P) (matching : SubMatching P) : Prop :=
  ∃ path, x.states.Path matching.indices path ∧ matching.nodes = path.map x.phantomNode ∧
    ∀ other, x.states.Path matching.indices other → x.states.score other ≤ x.states.score path

structure Matched (x : Trace P) (matching : SubMatching P) : Prop where
  increasing : matching.indices.Pairwise (· < ·)
  several : 2 ≤ matching.indices.length
  candidates : ∃ path, x.states.Path matching.indices path ∧ matching.nodes = path.map x.phantomNode ∧
    (x.Nonpositive → ∀ other, x.states.Path matching.indices other → x.states.score other ≤ x.states.score path)

omit [Inhabited P] in
theorem lt_numPoints (valid : s < x.numCandidates t) : t < x.numPoints := by
  by_contra outside
  rw [numCandidates, getD_eq_getElem?_getD, getElem?_eq_none (Nat.le_of_not_lt outside)] at valid
  exact absurd valid (Nat.not_lt_zero s)

theorem Matched.inside (matched : x.Matched matching) {i : ℕ} (here : i ∈ matching.indices) :
    i < x.numPoints := by
  obtain ⟨path, candidates, -⟩ := matched.candidates
  rw [← candidates.times] at here
  obtain ⟨c, member, rfl⟩ := mem_map.1 here
  exact lt_numPoints (candidates.valid c member)

theorem Matched.length (matched : x.Matched matching) :
    matching.nodes.length = matching.indices.length := by
  obtain ⟨path, candidates, nodes, -⟩ := matched.candidates
  rw [nodes, ← candidates.times, length_map, length_map]

omit [Inhabited P] in
theorem maxElement_spec (x : Trace P) (column : Column) (t : ℕ) (some : 0 < x.numCandidates t) :
    x.maxElement column t < x.numCandidates t ∧ ∀ s < x.numCandidates t, column.viterbi s ≤ column.viterbi (x.maxElement column t) := by
  obtain ⟨best, found⟩ : ∃ best, (range (x.numCandidates t)).argmax column.viterbi = Option.some best := by
    apply Option.ne_none_iff_exists'.1
    rw [Ne, argmax_eq_none, range_eq_nil]
    exact some.ne'
  simp only [maxElement, found, Option.getD_some]
  refine ⟨mem_range.1 (argmax_mem found), ?_⟩
  intro s valid
  exact le_of_mem_argmax (mem_range.2 valid) found

/-- The parents lead back along the candidates to the timestamp `start`. -/
structure Traced (m : HiddenMarkovModel) (start : ℕ) (cs : List (ℕ × ℕ)) : Prop where
  links : cs.IsChain fun a b => (m b.1).parents b.2 = a
  increasing : (cs.map Prod.fst).Pairwise (· < ·)
  first : (cs.map Prod.fst).head? = some start

theorem Traced.of_path {times : List ℕ} {cs : List (ℕ × ℕ)} (path : x.states.Path times cs)
    (links : cs.IsChain fun a b => (m b.1).parents b.2 = a) (increasing : times.Pairwise (· < ·))
    (first : times.head? = some start) : Traced m start cs := by
  have times := path.times
  refine ⟨links, ?_, ?_⟩
  · rwa [← times] at increasing
  · rwa [← times] at first

section Traced

variable {cs found : List (ℕ × ℕ)} {a c : ℕ × ℕ} {fuel : ℕ}

theorem Traced.before (traced : Traced m start (cs ++ [a] ++ [c])) :
    Traced m start (cs ++ [a]) ∧ (m c.1).parents c.2 = a ∧ a.1 < c.1 := by
  obtain ⟨links, increasing, first⟩ := traced
  obtain ⟨links, parent⟩ := ScoredStates.isChain_snoc_iff.1 links
  rw [map_append] at increasing
  obtain ⟨increasing, -, last⟩ := pairwise_append.1 increasing
  refine ⟨⟨links, increasing, ?_⟩, parent, last a.1 (by simp) c.1 (by simp)⟩
  rw [← first]
  cases cs <;> rfl

variable (traced : Traced m start (cs ++ [c]))

include traced

theorem Traced.le : start ≤ c.1 := by
  induction cs using reverseRecOn generalizing c with
  | nil =>
    have first := traced.first
    simp at first
    exact first.ge
  | append_singleton cs a ih =>
    obtain ⟨before, -, lt⟩ := traced.before
    exact (ih before).trans lt.le

/-- Going back from the last candidate gives all of them. -/
theorem Traced.reconstruct (enough : c.1 < fuel) :
    m.reconstruct start fuel c found = some (cs ++ [c] ++ found) := by
  obtain ⟨fuel, rfl⟩ : ∃ k, fuel = k + 1 := ⟨fuel - 1, by omega⟩
  induction cs using reverseRecOn generalizing c found fuel with
  | nil =>
    obtain rfl : c.1 = start := by simpa using traced.first
    simp [reconstruct]
  | append_singleton cs a ih =>
    obtain ⟨before, parent, lt⟩ := traced.before
    have le := before.le
    obtain ⟨fuel, rfl⟩ : ∃ k, fuel = k + 1 := ⟨fuel - 1, by omega⟩
    rw [reconstruct, if_pos (by omega), parent]
    simp only [if_neg lt.ne']
    rw [ih before fuel (by omega)]
    simp

theorem Traced.fillReachable (enough : c.1 < fuel) (reachable : Reachable) :
    (m.fillReachable start fuel c reachable).isSome := by
  obtain ⟨fuel, rfl⟩ : ∃ k, fuel = k + 1 := ⟨fuel - 1, by omega⟩
  induction cs using reverseRecOn generalizing c reachable fuel with
  | nil =>
    obtain rfl : c.1 = start := by simpa using traced.first
    simp [fillReachable]
  | append_singleton cs a ih =>
    obtain ⟨before, parent, lt⟩ := traced.before
    obtain ⟨fuel, rfl⟩ : ∃ k, fuel = k + 1 := ⟨fuel - 1, by omega⟩
    rw [fillReachable, parent]
    split
    · exact ih before _ fuel (by omega)
    · rfl

end Traced

theorem SettledColumn.traced (column : x.SettledColumn m start c) (valid : s < x.numCandidates c)
    (value : (m c).viterbi s ≠ ⊥) : ∃ cs, Traced m start (cs ++ [(c, s)]) := by
  obtain ⟨-, -, times, first, increasing, reached, -⟩ := column
  obtain ⟨cs, path, links, -⟩ := reached s valid value
  exact ⟨cs, .of_path path links increasing first⟩

/-- From the candidates of a settled column, the marking ends. -/
theorem SettledColumn.fillReachable (column : x.SettledColumn m start c) (states : List ℕ)
    (valid : ∀ s ∈ states, s < x.numCandidates c) (reachable : Reachable) :
    (states.foldlM (fun reachable s => m.fillReachable start (c + 1) (c, s) reachable) reachable).isSome := by
  induction states generalizing reachable with
  | nil => rfl
  | cons s states ih =>
    have one : (m.fillReachable start (c + 1) (c, s) reachable).isSome := by
      by_cases pruned : (m c).pruned s = true
      · simp [HiddenMarkovModel.fillReachable, pruned]
      · obtain ⟨cs, traced⟩ := column.traced (valid s (by simp)) (mt (column.pruned s).2 pruned)
        exact traced.fillReachable (Nat.lt_succ_self c) reachable
    obtain ⟨reachable', marked⟩ := Option.isSome_iff_exists.1 one
    rw [foldlM_cons, marked]
    exact ih (fun s here => valid s (mem_cons_of_mem _ here)) reachable'

theorem lastUnbroken_spec (le : b ≤ start) (lt : start < e) (unbroken : (m start).breakage = false) :
    ∃ last, m.lastUnbroken b e = some last ∧ start ≤ last ∧ last < e ∧ (m last).breakage = false := by
  induction e with
  | zero => omega
  | succ e ih =>
    rw [lastUnbroken]
    split
    · rename_i broken
      obtain ⟨-, broken⟩ := Bool.and_eq_true_iff.1 broken
      have other : start ≠ e := by
        rintro rfl
        exact absurd (broken.symm.trans unbroken) Bool.false_ne_true.symm
      obtain ⟨last, found, after, before, whole⟩ := ih (by omega)
      exact ⟨last, found, after, by omega, whole⟩
    · rename_i stop
      refine ⟨e, rfl, by omega, Nat.lt_succ_self e, ?_⟩
      have inside : b ≤ e := by omega
      simpa [inside] using stop

theorem firstUnbroken_spec {count : ℕ} (le : b ≤ start) (lt : start < b + count)
    (skipped : ∀ c, b ≤ c → c < start → (m c).breakage = true) (unbroken : (m start).breakage = false) :
    m.firstUnbroken count b = start := by
  induction count generalizing b with
  | zero => omega
  | succ count ih =>
    rw [firstUnbroken]
    by_cases here : b = start
    · rw [here, unbroken]
      rfl
    · rw [if_pos (skipped b le_rfl (by omega))]
      exact ih (by omega) (by omega) fun c after => skipped c (by omega)

/-- A segment gives a matching, or none if it has one unbroken timestamp only. -/
theorem Segment.subMatching (segment : x.Segment m b e start) (reachable : Reachable) :
    ∃ found reachable', x.subMatching m b e reachable = some (found, reachable') ∧ ∀ matching ∈ found, x.Matched matching := by
  obtain ⟨le, lt, skipped, unbroken, settled⟩ := segment
  obtain ⟨last, found, after, before, whole⟩ := lastUnbroken_spec le lt unbroken
  have column := settled last after before whole
  obtain ⟨pruned, ⟨s, valid, value⟩, times, first, increasing, reached, bounded⟩ := column
  obtain ⟨valid', most⟩ := x.maxElement_spec (m last) last (by omega)
  obtain ⟨cs, path, links, score⟩ := reached _ valid' (ne_bot_of_le_ne_bot value (most s valid))
  have traced := Traced.of_path path links increasing first
  have begins : m.firstUnbroken (e - b) b = start := firstUnbroken_spec le (by omega) skipped unbroken
  simp only [Trace.subMatching, found, begins, Option.bind_eq_bind, Option.bind_some,
    traced.reconstruct (Nat.lt_succ_self last), append_nil]
  split
  · exact ⟨none, _, rfl, by simp⟩
  · split
    · exact ⟨none, _, rfl, by simp⟩
    · obtain ⟨reachable', marked⟩ := Option.isSome_iff_exists.1 ((settled last after before whole).fillReachable
        (range (x.numCandidates last)) (fun s here => mem_range.1 here) _)
      rw [marked]
      refine ⟨_, _, rfl, ?_⟩
      intro matching here
      obtain rfl := Option.mem_some_iff.1 here
      have indices : (x.toSubMatching m reachable' (cs ++ [(last, x.maxElement (m last) last)])).indices = times ++ [last] := path.times
      refine ⟨?_, ?_, _, ?_, rfl, ?_⟩
      · rwa [indices]
      · rw [indices, ← path.times, length_map]
        omega
      · rwa [indices]
      · intro nonpositive other path'
        rw [indices] at path'
        have column' : ∀ a, x.states.Valid a → x.states.time a = last →
            x.states.Bounded (fun d => (m d.1).viterbi d.2) (times ++ [last]) a := by
          intro (last', s) inside time
          obtain rfl : last' = last := time
          exact bounded nonpositive s inside
        apply ScoredStates.Bounded.best column' _ score path'
        intro (last', s) inside time
        obtain rfl : last' = last := time
        exact most s inside

/-- A split point that is left over gives nothing. -/
theorem subMatching_stale (before : p < b) (reachable : Reachable) :
    ∃ reachable', x.subMatching m b (p + 1) reachable = some (none, reachable') := by
  have last : m.lastUnbroken b (p + 1) = some p := by
    rw [lastUnbroken, if_neg (by simp; omega)]
  have none : p + 1 - b = 0 := by omega
  simp only [subMatching, last, none, firstUnbroken, reconstruct, if_neg (Nat.not_lt.2 before.le),
    Option.bind_eq_bind, Option.bind_some]
  by_cases short : unsignedCount p b < 2
  · exact ⟨_, if_pos short⟩
  · exact ⟨_, if_neg short⟩

/-- The matchings of all segments. -/
theorem Segments.subMatchings {stale : List ℕ} (segments : x.Segments m b points e) (rest : stale = [] ∨ ∃ p < e, stale = [p + 1])
    (reachable : Reachable) :
    ∃ matchings, x.subMatchings m (points ++ stale) b reachable = some matchings ∧
      ∀ matching ∈ matchings, x.Matched matching := by
  induction points generalizing b reachable with
  | nil =>
    obtain rfl : b = e := segments
    rcases rest with rfl | ⟨p, before, rfl⟩
    · exact ⟨[], rfl, by simp⟩
    · obtain ⟨reachable', result⟩ := subMatching_stale (x := x) (m := m) before reachable
      refine ⟨[], ?_, by simp⟩
      simp [Trace.subMatchings, result]
  | cons p points ih =>
    obtain ⟨⟨start, segment⟩, others⟩ := segments
    obtain ⟨found, reachable', result, optimal⟩ := segment.subMatching reachable
    obtain ⟨matchings, results, all⟩ := ih others reachable'
    refine ⟨found.toList ++ matchings, ?_, ?_⟩
    · simp [Trace.subMatchings, result, results]
    · intro matching here
      rcases mem_append.1 here with here | here
      · exact optimal matching (Option.mem_toList.1 here)
      · exact all matching here

/-- `mapMatching` returns, after at most so many iterations. -/
theorem mapMatching_matched (x : Trace P) :
    ∃ matchings, (∀ fuel, (x.numPoints + 1) ^ 2 ≤ fuel → x.mapMatching fuel = some matchings) ∧
      ∀ matching ∈ matchings, x.Matched matching := by
  have spec := x.initializeModel_spec 0 fun _ => .cleared
  unfold mapMatching
  rcases init : x.initializeModel (clear (fun _ => .cleared) 0) 0 with ⟨start, model⟩
  rw [init] at spec
  cases start with
  | none => exact ⟨[], fun _ _ => rfl, by simp⟩
  | some start =>
    have running : x.Running start start start ⟨start + 1, none, [], [start], model⟩ :=
      spec.running rfl (Nat.zero_le start) le_rfl
    obtain ⟨st, runs, points, stale, e, all, segments, rest⟩ := running.loop
    obtain ⟨matchings, result, optimal⟩ := segments.subMatchings rest fun _ => false
    refine ⟨matchings, ?_, optimal⟩
    intro fuel enough
    have bound : x.remaining start ⟨start + 1, none, [], [start], model⟩ < fuel := by
      have factor : (x.numPoints - start) * (x.numPoints + 1) ≤ x.numPoints * (x.numPoints + 1) :=
        Nat.mul_le_mul_right _ (Nat.sub_le ..)
      have square : (x.numPoints + 1) ^ 2 = x.numPoints * (x.numPoints + 1) + (x.numPoints + 1) := by ring
      simp only [remaining]
      omega
    simp [runs fuel bound, all, result]

/-- **Viterbi.** With transitions that are not more probable than certain, each matching that `mapMatching` returns is an
increasing list of timestamps with candidates whose score no possible sequence over the same timestamps exceeds. -/
theorem mapMatching_optimal (x : Trace P) (nonpositive : x.Nonpositive) :
    ∃ matchings, (∀ fuel, (x.numPoints + 1) ^ 2 ≤ fuel → x.mapMatching fuel = some matchings) ∧ ∀ matching ∈ matchings,
      matching.indices.Pairwise (· < ·) ∧ x.IsOptimal matching := by
  obtain ⟨matchings, runs, matched⟩ := x.mapMatching_matched
  refine ⟨matchings, runs, ?_⟩
  intro matching here
  obtain ⟨increasing, -, path, candidates, nodes, best⟩ := matched matching here
  exact ⟨increasing, path, candidates, nodes, best nonpositive⟩

/-- Four points on a line, the third one without candidates. -/
def fourPoints : Trace ℚ where
  greatCircleDistance c d := |(c.lon : ℚ) - d.lon|
  getNetworkDistance a b _ := |a - b|
  transitionLogProbability d := -d
  confidence _ _ := 1
  mapMatchingMaxSpeed := 0
  weightMultiplier := 10
  candidatesList := [[0, 3], [10, 14], [], [30, 33]]
  emissionLogProbabilities _ s := if s = 0 then (-4 : ℚ) else (-5 : ℚ)
  traceCoordinates := [⟨0, 0⟩, ⟨10, 0⟩, ⟨20, 0⟩, ⟨30, 0⟩]
  traceTimestamps := []
  allowSplitting := false

/-- The breakage at the third point gives up the second one. -/
theorem mapMatching_optimal_fourPoints : ∃ matchings, (∀ fuel, 25 ≤ fuel → fourPoints.mapMatching fuel = some matchings) ∧
    matchings.map (fun matching => (matching.indices, matching.nodes)) = [([0, 3], [0, 30])] ∧
    ∀ matching ∈ matchings, fourPoints.IsOptimal matching := by
  obtain ⟨matchings, runs, optimal⟩ := mapMatching_optimal fourPoints fun d nonneg => neg_nonpos.2 nonneg
  refine ⟨matchings, runs, ?_, fun matching here => (optimal matching here).2⟩
  have evaluated : (fourPoints.mapMatching 25).map (map fun matching => (matching.indices, matching.nodes)) =
      some [([0, 3], [0, 30])] := by
    decide +kernel
  rw [runs 25 le_rfl] at evaluated
  exact Option.some.inj evaluated

end Trace

end Osrm.MapMatching
