import Mathlib.Data.Int.Notation
import Mathlib.Order.Basic

/-!
# Opening hours

The data of `util::OpeningHours` and its tests of a point in time: time spans, which may run into
the next day, ranges of weekdays as bit masks, and ranges of dates. The calendar of
`boost::gregorian::date` is a parameter; a date that does not exist is an exception.
-/

namespace Osrm.OpeningHours

open List

structure Tm where
  tmMin : ℕ
  tmHour : ℕ
  tmMday : ℕ
  tmMon : ℕ
  tmYear : ℤ
  tmWday : ℕ
  deriving DecidableEq, Repr

inductive Event
  | invalid
  | none
  | dawn
  | sunrise
  | sunset
  | dusk
  deriving DecidableEq, Repr

structure Time where
  event : Event
  minutes : ℤ
  deriving DecidableEq, Repr

def Time.clock (hour min : ℕ) : Time := ⟨.none, hour * 60 + min⟩

structure TimeSpan where
  fromTime : Time
  toTime : Time
  deriving DecidableEq, Repr

/-- The constructor of `TimeSpan`: a span that ends before it starts ends on the next day. -/
def TimeSpan.make (fromTime toTime : Time) : TimeSpan :=
  ⟨fromTime, if toTime.minutes < fromTime.minutes then ⟨toTime.event, toTime.minutes + 24 * 60⟩ else toTime⟩

/-- `use_curr_day` and `use_next_day` -/
structure DayFlags where
  useCurrDay : Bool
  useNextDay : Bool
  deriving DecidableEq, Repr

def Tm.minutes (time : Tm) : ℤ := time.tmHour * 60 + time.tmMin

/-- `TimeSpan::IsInRange`, with the flags it leaves. -/
def TimeSpan.isInRange (span : TimeSpan) (time : Tm) (flags : DayFlags) : Bool × DayFlags :=
  if span.fromTime.event ≠ .none ∨ span.toTime.event ≠ .none then (false, flags)
  else
    let flags : DayFlags :=
      if span.toTime.minutes > 24 * 60 then
        ⟨span.fromTime.minutes ≤ time.minutes, time.minutes < span.toTime.minutes - 24 * 60⟩
      else ⟨span.fromTime.minutes ≤ time.minutes && time.minutes < span.toTime.minutes, false⟩
    (flags.useCurrDay || flags.useNextDay, flags)

structure WeekdayRange where
  weekdays : BitVec 32
  overnightWeekdays : BitVec 32
  deriving DecidableEq

/-- The mask of the weekdays from one day to another, which may pass the end of the week. -/
def weekdayMask (first last : ℕ) : BitVec 32 :=
  (if first ≤ last then (((1 : BitVec 32) <<< (last - first + 1)) - 1) <<< first
    else ~~~((((1 : BitVec 32) <<< (first - last - 1)) - 1) <<< (last + 1))) &&& 0x7f

/-- The constructor of `WeekdayRange`. -/
def WeekdayRange.make (first last : ℕ) : WeekdayRange :=
  let weekdays := weekdayMask first last
  ⟨weekdays, (weekdays <<< 1) ||| (if weekdays &&& 0x40 ≠ 0 then 1 else 0)⟩

def WeekdayRange.isInRange (range : WeekdayRange) (time : Tm) (flags : DayFlags) : Bool :=
  (flags.useCurrDay && range.weekdays &&& ((1 : BitVec 32) <<< time.tmWday) ≠ 0) ||
    (flags.useNextDay && range.overnightWeekdays &&& ((1 : BitVec 32) <<< time.tmWday) ≠ 0)

/-! ### Dates -/

/-- A date, as a value of `boost::gregorian::date`. -/
structure Date where
  year : ℤ
  month : ℕ
  day : ℕ
  deriving DecidableEq, Repr

/-- The exceptions of the constructor of a date. -/
inductive DateError
  | badYear
  | badMonth
  | badDayOfMonth
  deriving DecidableEq, Repr

def Date.before (a b : Date) : Prop :=
  a.year < b.year ∨ a.year = b.year ∧ (a.month < b.month ∨ a.month = b.month ∧ a.day < b.day)

instance (a b : Date) : Decidable (a.before b) := by
  unfold Date.before
  infer_instance

/-- The date exists where months have that many days. -/
def Date.Exists (d : Date) (endOfMonthDay : ℤ → ℕ → ℕ) : Prop :=
  (0 < d.month ∧ d.month ≤ 12) ∧ 0 < d.day ∧ d.day ≤ endOfMonthDay d.year d.month

/-- `boost::gregorian`: the years that have dates, the number of days of a month, the constructor of a date and the date after
`date_duration(1)`. -/
structure Calendar where
  minYear : ℤ
  maxYear : ℤ
  endOfMonthDay : ℤ → ℕ → ℕ
  date : ℤ → ℕ → ℕ → Except DateError Date
  next : Date → Date
  endOfMonthDay_pos : ∀ year month, 0 < endOfMonthDay year month
  date_eq_ok_iff : ∀ year month day d, date year month day = .ok d ↔ (minYear ≤ year ∧ year ≤ maxYear) ∧ (0 < month ∧ month ≤ 12) ∧
    (0 < day ∧ day ≤ endOfMonthDay year month) ∧ d = ⟨year, month, day⟩
  next_iff : ∀ a b : Date, a.Exists endOfMonthDay → b.Exists endOfMonthDay → (a.before b ↔ ¬ b.before (next a))

def Calendar.endOfMonth (calendar : Calendar) (d : Date) : Date := ⟨d.year, d.month, calendar.endOfMonthDay d.year d.month⟩

/-- `Monthday`; 0 stands for a part that is missing. -/
structure Monthday where
  year : ℤ
  month : ℕ
  day : ℕ
  deriving DecidableEq, Repr

def Monthday.isValid (d : Monthday) : Bool := d.year > 0 || d.month ≠ 0 || d.day ≠ 0

structure MonthdayRange where
  fromDay : Monthday
  toDay : Monthday
  deriving DecidableEq, Repr

namespace MonthdayRange

variable (calendar : Calendar) (range : MonthdayRange)

/-- `date_from` in `MonthdayRange::IsInRange`, before an exchange. -/
def dateFrom (year : ℤ) (month : ℕ) : Except DateError Date :=
  if range.fromDay.isValid then
    calendar.date (if range.fromDay.year = 0 then year else range.fromDay.year)
      (if range.fromDay.month = 0 then month else range.fromDay.month) (if range.fromDay.day = 0 then 1 else range.fromDay.day)
  else .ok ⟨calendar.minYear, 1, 1⟩

/-- `date_to` in `MonthdayRange::IsInRange`, before an exchange. -/
def dateTo (year : ℤ) (month : ℕ) (dateFrom : Date) : Except DateError Date :=
  if range.toDay.isValid then
    match calendar.date
        (if range.toDay.year = 0 then if range.fromDay.year = 0 then year else range.fromDay.year else range.toDay.year)
        (if range.toDay.month = 0 then if range.fromDay.month = 0 then month else range.fromDay.month else range.toDay.month) 1 with
    | .error error => .error error
    | .ok first => if range.toDay.day = 0 then .ok (calendar.endOfMonth first) else calendar.date first.year first.month range.toDay.day
  else if range.toDay = ⟨0, 0, 0⟩ then .ok dateFrom
  else .ok ⟨calendar.maxYear, 12, 31⟩

/-- The test of the interval at the end of `MonthdayRange::IsInRange`. -/
def within (flags : DayFlags) (dateCurrent dateFrom dateTo : Date) : Bool :=
  let inverse := range.fromDay.year = 0 ∧ range.toDay.year = 0 ∧ dateTo.before dateFrom
  let first := if inverse then dateTo else dateFrom
  let last := if inverse then dateFrom else dateTo
  let first := if flags.useCurrDay then first else calendar.next first
  let last := if flags.useNextDay ∧ last ≠ ⟨calendar.maxYear, 12, 31⟩ then calendar.next last else last
  xor (decide (¬ dateCurrent.before first) && decide (¬ last.before dateCurrent)) (decide inverse)

def isInRange (time : Tm) (flags : DayFlags) : Except DateError Bool := do
  let year := time.tmYear + 1900
  let month := time.tmMon + 1
  let dateCurrent ← calendar.date year month time.tmMday
  let dateFrom ← range.dateFrom calendar year month
  let dateTo ← range.dateTo calendar year month dateFrom
  return range.within calendar flags dateCurrent dateFrom dateTo

end MonthdayRange

/-! ### Rules -/

inductive Modifier
  | unknown
  | open
  | closed
  | off
  | is247
  deriving DecidableEq, Repr

/-- `OpeningHours`: one rule. -/
structure Rule where
  times : List TimeSpan
  weekdays : List WeekdayRange
  monthdays : List MonthdayRange
  modifier : Modifier

/-- The search for a time span, with the flags as the spans change them. -/
def anyTime (time : Tm) : List TimeSpan → DayFlags → Bool × DayFlags
  | [], flags => (false, flags)
  | span :: spans, flags =>
    match span.isInRange time flags with
    | (true, flags) => (true, flags)
    | (false, flags) => anyTime time spans flags

/-- The search for a range of dates, which may raise an exception. -/
def anyMonthday (calendar : Calendar) (time : Tm) (flags : DayFlags) : List MonthdayRange → Except DateError Bool
  | [] => .ok false
  | range :: ranges =>
    match range.isInRange calendar time flags with
    | .ok false => anyMonthday calendar time flags ranges
    | result => result

def Rule.isInRange (calendar : Calendar) (rule : Rule) (time : Tm) : Except DateError Bool :=
  if rule.times.isEmpty && rule.weekdays.isEmpty && rule.monthdays.isEmpty then .ok false
  else
    let (inTimes, flags) := if rule.times.isEmpty then (true, ⟨true, false⟩) else anyTime time rule.times ⟨true, false⟩
    if inTimes && (rule.weekdays.isEmpty || rule.weekdays.any (·.isInRange time flags)) then
      if rule.monthdays.isEmpty then .ok true else anyMonthday calendar time flags rule.monthdays
    else .ok false

/-- The loop of `CheckOpeningHours` over the rules that are left. -/
def checkFrom (calendar : Calendar) (time : Tm) : List Rule → Bool → Except DateError Bool
  | [], isOpen => .ok isOpen
  | rule :: rules, isOpen =>
    if rule.modifier = .is247 then .ok true
    else
      match rule.isInRange calendar time with
      | .error error => .error error
      | .ok inRange => checkFrom calendar time rules (if inRange then decide (rule.modifier = .open) else isOpen)

def checkOpeningHours (calendar : Calendar) (input : List Rule) (time : Tm) : Except DateError Bool :=
  checkFrom calendar time input false

/-! ### Ranges of dates without a year -/

section Seasons

variable {calendar : Calendar} {year : ℤ} {month day : ℕ} {range : MonthdayRange}

/-- The first day of a range in a year; a missing day is the first of its month. -/
def firstDay (year : ℤ) (d : Monthday) : Date := ⟨year, d.month, if d.day = 0 then 1 else d.day⟩

/-- The last day of a range in a year; a missing day is the last of its month. -/
def lastDay (calendar : Calendar) (year : ℤ) (d : Monthday) : Date :=
  ⟨year, d.month, if d.day = 0 then calendar.endOfMonthDay year d.month else d.day⟩

/-- The day lies between the two others, or outside when these are the other way round; both belong to the range. -/
def InSeason (first last current : Date) : Prop :=
  if last.before first then ¬ current.before first ∨ ¬ last.before current
  else ¬ current.before first ∧ ¬ last.before current

instance (first last current : Date) : Decidable (InSeason first last current) := by
  unfold InSeason
  infer_instance

theorem Date.not_before_iff {a b : Date} : ¬ a.before b ↔ a = b ∨ b.before a := by
  obtain ⟨year, month, day⟩ := a
  obtain ⟨year', month', day'⟩ := b
  simp only [before, Date.mk.injEq]
  omega

theorem Date.not_before_of_before {a b : Date} (earlier : a.before b) : ¬ b.before a := by
  simp only [before] at *
  omega

/-- The exchange of the ends loses exactly the two end days. -/
theorem within_eq_iff (noYears : range.fromDay.year = 0 ∧ range.toDay.year = 0)
    (current first last : Date) :
    range.within calendar ⟨true, false⟩ current first last = decide (InSeason first last current) ↔
      (last.before first → current ≠ first ∧ current ≠ last) := by
  by_cases inverse : last.before first
  · have value : range.within calendar ⟨true, false⟩ current first last = decide (current.before last ∨ first.before current) := by
      simp [MonthdayRange.within, noYears.1, noYears.2, inverse]
    have season : InSeason first last current ↔
        (current = first ∨ first.before current) ∨ (last = current ∨ current.before last) := by
      simp only [InSeason, if_pos inverse, Date.not_before_iff]
    rw [value, decide_eq_decide, season]
    constructor
    · intro same _
      constructor
      · rintro rfl
        rcases same.2 (.inl (.inl rfl)) with late | late
        · exact Date.not_before_of_before inverse late
        · exact Date.not_before_of_before late late
      · rintro rfl
        rcases same.2 (.inr (.inl rfl)) with late | late
        · exact Date.not_before_of_before late late
        · exact Date.not_before_of_before inverse late
    · intro inner
      obtain ⟨notFirst, notLast⟩ := inner inverse
      rw [or_iff_right notFirst, or_iff_right (Ne.symm notLast), or_comm]
  · simp [MonthdayRange.within, inverse, InSeason]

theorem isInRange_eq_ok_iff {time : Tm} {flags : DayFlags} {result : Bool} :
    range.isInRange calendar time flags = .ok result ↔
      ∃ current first last, calendar.date (time.tmYear + 1900) (time.tmMon + 1) time.tmMday = .ok current ∧
        range.dateFrom calendar (time.tmYear + 1900) (time.tmMon + 1) = .ok first ∧
        range.dateTo calendar (time.tmYear + 1900) (time.tmMon + 1) first = .ok last ∧
        range.within calendar flags current first last = result := by
  rw [MonthdayRange.isInRange]
  cases current : calendar.date (time.tmYear + 1900) (time.tmMon + 1) time.tmMday with
  | error _ => simp [bind, Except.bind]
  | ok d =>
    cases first : range.dateFrom calendar (time.tmYear + 1900) (time.tmMon + 1) with
    | error _ => simp [bind, Except.bind]
    | ok f =>
      cases last : range.dateTo calendar (time.tmYear + 1900) (time.tmMon + 1) f with
      | error _ => simp [bind, Except.bind, last]
      | ok l => simp [bind, Except.bind, pure, Except.pure, last]

theorem dateFrom_eq_ok_iff (noYear : range.fromDay.year = 0)
    (real : 0 < range.fromDay.month ∧ range.fromDay.month ≤ 12) (years : calendar.minYear ≤ year ∧ year ≤ calendar.maxYear)
    (first : Date) :
    range.dateFrom calendar year month = .ok first ↔
      range.fromDay.day ≤ calendar.endOfMonthDay year range.fromDay.month ∧ first = firstDay year range.fromDay := by
  have pos := calendar.endOfMonthDay_pos year range.fromDay.month
  have valid : range.fromDay.isValid = true := by simp [Monthday.isValid, Nat.ne_of_gt real.1]
  rw [MonthdayRange.dateFrom, if_pos valid, if_pos noYear, if_neg (Nat.ne_of_gt real.1)]
  by_cases fits : range.fromDay.day ≤ calendar.endOfMonthDay year range.fromDay.month
  · rw [calendar.date_eq_ok_iff, and_iff_right years, and_iff_right real, and_iff_right (by split <;> omega), and_iff_right fits]
    rfl
  · refine iff_of_false (fun made => ?_) (fun both => fits both.1)
    have exists' := ((calendar.date_eq_ok_iff _ _ _ _).1 made).2.2.1.2
    rw [if_neg (by omega)] at exists'
    exact fits exists'

theorem dateTo_eq_ok_iff (noYears : range.fromDay.year = 0 ∧ range.toDay.year = 0)
    (real : 0 < range.toDay.month ∧ range.toDay.month ≤ 12) (years : calendar.minYear ≤ year ∧ year ≤ calendar.maxYear)
    (first last : Date) :
    range.dateTo calendar year month first = .ok last ↔
      range.toDay.day ≤ calendar.endOfMonthDay year range.toDay.month ∧ last = lastDay calendar year range.toDay := by
  have pos := calendar.endOfMonthDay_pos year range.toDay.month
  have valid : range.toDay.isValid = true := by simp [Monthday.isValid, Nat.ne_of_gt real.1]
  rw [MonthdayRange.dateTo, if_pos valid, if_pos noYears.2, if_pos noYears.1, if_neg (Nat.ne_of_gt real.1),
    (calendar.date_eq_ok_iff _ _ _ _).2 ⟨years, real, ⟨Nat.one_pos, pos⟩, rfl⟩]
  simp only [lastDay, Calendar.endOfMonth]
  by_cases missing : range.toDay.day = 0
  · rw [if_pos missing, if_pos missing, Except.ok.injEq, and_iff_right (by omega)]
    exact eq_comm
  · rw [if_neg missing, if_neg missing]
    by_cases fits : range.toDay.day ≤ calendar.endOfMonthDay year range.toDay.month
    · rw [calendar.date_eq_ok_iff, and_iff_right years, and_iff_right real, and_iff_right (by omega), and_iff_right fits]
    · exact iff_of_false (fun made => fits ((calendar.date_eq_ok_iff _ _ _ _).1 made).2.2.1.2) (fun both => fits both.1)

/-- **A range without years is inclusive, except for the end days of one that wraps at the new year**, and as far
as its dates exist in the year. -/
theorem isInRange_season_iff {fromDay toDay : Monthday} {time : Tm} (noYears : fromDay.year = 0 ∧ toDay.year = 0)
    (fromMonth : 0 < fromDay.month ∧ fromDay.month ≤ 12) (toMonth : 0 < toDay.month ∧ toDay.month ≤ 12)
    (real : time.tmMon < 12 ∧ 0 < time.tmMday ∧ time.tmMday ≤ calendar.endOfMonthDay (time.tmYear + 1900) (time.tmMon + 1)) :
    let year := time.tmYear + 1900
    let current : Date := ⟨year, time.tmMon + 1, time.tmMday⟩
    MonthdayRange.isInRange calendar ⟨fromDay, toDay⟩ time ⟨true, false⟩ =
        .ok (decide (InSeason (firstDay year fromDay) (lastDay calendar year toDay) current)) ↔
      (calendar.minYear ≤ year ∧ year ≤ calendar.maxYear) ∧
        fromDay.day ≤ calendar.endOfMonthDay year fromDay.month ∧ toDay.day ≤ calendar.endOfMonthDay year toDay.month ∧
        ((lastDay calendar year toDay).before (firstDay year fromDay) →
          current ≠ firstDay year fromDay ∧ current ≠ lastDay calendar year toDay) := by
  intro year current
  rw [isInRange_eq_ok_iff]
  by_cases years : calendar.minYear ≤ year ∧ year ≤ calendar.maxYear
  · have now := (calendar.date_eq_ok_iff _ (time.tmMon + 1) _ current).2 ⟨years, by omega, real.2, rfl⟩
    rw [and_iff_right years]
    constructor
    · rintro ⟨d, first, last, isNow, isFirst, isLast, same⟩
      obtain rfl : current = d := Except.ok.inj (now.symm.trans isNow)
      obtain ⟨fits, rfl⟩ := (dateFrom_eq_ok_iff noYears.1 fromMonth years first).1 isFirst
      obtain ⟨fits', rfl⟩ := (dateTo_eq_ok_iff noYears toMonth years _ last).1 isLast
      exact ⟨fits, fits', (within_eq_iff noYears _ _ _).1 same⟩
    · rintro ⟨fits, fits', inner⟩
      refine ⟨current, firstDay year fromDay, lastDay calendar year toDay, now, ?_, ?_, (within_eq_iff noYears _ _ _).2 inner⟩
      · exact (dateFrom_eq_ok_iff noYears.1 fromMonth years _).2 ⟨fits, rfl⟩
      · exact (dateTo_eq_ok_iff noYears toMonth years _ _).2 ⟨fits', rfl⟩
  · refine iff_of_false ?_ (fun both => years both.1)
    rintro ⟨d, _, _, isNow, _⟩
    exact years ((calendar.date_eq_ok_iff _ _ _ _).1 isNow).1

end Seasons

/-- The leap years of the Gregorian calendar. -/
def isLeapYear (year : ℤ) : Bool := year % 4 = 0 && (year % 100 ≠ 0 || year % 400 = 0)

/-- The days of a month in the Gregorian calendar. -/
def endOfMonthDay (year : ℤ) (month : ℕ) : ℕ :=
  match month with
  | 2 => if isLeapYear year then 29 else 28
  | 4 | 6 | 9 | 11 => 30
  | _ => 31

/-- The date after another one. -/
def Date.next (d : Date) : Date :=
  if d.day < endOfMonthDay d.year d.month then ⟨d.year, d.month, d.day + 1⟩
  else if d.month < 12 then ⟨d.year, d.month + 1, 1⟩
  else ⟨d.year + 1, 1, 1⟩

theorem Date.before_iff_next (a b : Date) (real : a.Exists endOfMonthDay) (real' : b.Exists endOfMonthDay) :
    a.before b ↔ ¬ b.before a.next := by
  obtain ⟨year, month, day⟩ := a
  obtain ⟨year', month', day'⟩ := b
  have same : year' = year → month' = month → endOfMonthDay year' month' = endOfMonthDay year month := by
    rintro rfl rfl
    rfl
  simp only [Exists, next] at *
  split_ifs <;> simp only [before] <;> omega

/-- The Gregorian calendar between two years. -/
def Calendar.gregorian (minYear maxYear : ℤ) : Calendar where
  minYear := minYear
  maxYear := maxYear
  endOfMonthDay := OpeningHours.endOfMonthDay
  date year month day :=
    if year < minYear ∨ maxYear < year then .error .badYear
    else if month = 0 ∨ 12 < month then .error .badMonth
    else if day = 0 ∨ OpeningHours.endOfMonthDay year month < day then .error .badDayOfMonth
    else .ok ⟨year, month, day⟩
  next := Date.next
  endOfMonthDay_pos year month := by
    unfold OpeningHours.endOfMonthDay
    split <;> try split
    all_goals omega
  date_eq_ok_iff year month day d := by
    split_ifs with outside noMonth noDay
    · exact iff_of_false nofun (by omega)
    · exact iff_of_false nofun (by omega)
    · exact iff_of_false nofun (by omega)
    · rw [Except.ok.injEq, and_iff_right (by omega), and_iff_right (by omega), and_iff_right (by omega), eq_comm]
  next_iff := Date.before_iff_next

/-- `Aug 15-Jun 15` on 15 June 2018. -/
theorem isInRange_wrapped_lastDay :
    MonthdayRange.isInRange (.gregorian 1400 9999) ⟨⟨0, 8, 15⟩, ⟨0, 6, 15⟩⟩ ⟨0, 9, 15, 5, 118, 5⟩ ⟨true, false⟩ = .ok false ∧
      InSeason (firstDay 2018 ⟨0, 8, 15⟩) (lastDay (.gregorian 1400 9999) 2018 ⟨0, 6, 15⟩) ⟨2018, 6, 15⟩ := by
  decide

theorem isInRange_season_wrapped :
    MonthdayRange.isInRange (.gregorian 1400 9999) ⟨⟨0, 8, 15⟩, ⟨0, 6, 0⟩⟩ ⟨0, 9, 29, 5, 118, 5⟩ ⟨true, false⟩ =
      .ok (decide (InSeason (firstDay 2018 ⟨0, 8, 15⟩) (lastDay (.gregorian 1400 9999) 2018 ⟨0, 6, 0⟩) ⟨2018, 6, 29⟩)) :=
  (isInRange_season_iff (by decide) (by decide) (by decide) (by decide)).2 (by decide)

/-! ### Time spans and weekdays -/

section Weeks

variable {calendar : Calendar} {times : List TimeSpan} {days : List (ℕ × ℕ)} {modifier : Modifier} {time : Tm}
  {span : TimeSpan}

/-- A time span between two times of the clock that ends by 48:00. -/
structure TimeSpan.Plain (span : TimeSpan) : Prop where
  fromClock : span.fromTime.event = .none
  toClock : span.toTime.event = .none
  start : 0 ≤ span.fromTime.minutes
  stop : span.toTime.minutes ≤ 48 * 60

/-- The time lies in the span placed `day` days after its own date. -/
def TimeSpan.On (span : TimeSpan) (time : Tm) (day : ℤ) : Prop :=
  span.fromTime.minutes + 24 * 60 * day ≤ time.minutes ∧ time.minutes < span.toTime.minutes + 24 * 60 * day

/-- The time is before the end of the span placed on the day before. -/
def TimeSpan.RunsOver (span : TimeSpan) (time : Tm) : Prop := time.minutes + 24 * 60 < span.toTime.minutes

instance (span : TimeSpan) (time : Tm) (day : ℤ) : Decidable (span.On time day) := by
  unfold TimeSpan.On
  infer_instance

instance (span : TimeSpan) (time : Tm) : Decidable (span.RunsOver time) := by
  unfold TimeSpan.RunsOver
  infer_instance

/-- The weekday is in the range from one weekday to another. -/
def InWeek (range : ℕ × ℕ) (wday : ℕ) : Prop :=
  if range.1 ≤ range.2 then range.1 ≤ wday ∧ wday ≤ range.2 else range.1 ≤ wday ∨ wday ≤ range.2

instance (range : ℕ × ℕ) (wday : ℕ) : Decidable (InWeek range wday) := by
  unfold InWeek
  infer_instance

/-- The weekday of the day that is `day` days after the date of the time. -/
def Tm.weekday (time : Tm) (day : ℤ) : ℕ := ((time.tmWday + day) % 7).toNat

/-- The day is listed, or no weekdays are. -/
def Listed (days : List (ℕ × ℕ)) (wday : ℕ) : Prop := days = [] ∨ ∃ range ∈ days, InWeek range wday

variable (times days time) in
/-- What a rule of time spans and weekdays says. -/
def Says : Prop :=
  ∃ span ∈ times, ∃ day, Listed days (time.weekday day) ∧ span.On time day

/-- A time of the clock, with a day of the week. -/
structure Tm.Clock (time : Tm) : Prop where
  minute : time.tmMin < 60
  hour : time.tmHour < 24
  weekday : time.tmWday < 7

theorem Tm.Clock.minutes_lt (clock : time.Clock) : 0 ≤ time.minutes ∧ time.minutes < 24 * 60 := by
  have minute := clock.minute
  have hour := clock.hour
  simp only [Tm.minutes]
  omega

theorem mask_iff : ∀ first < 7, ∀ last < 7, ∀ wday < 7,
    ((WeekdayRange.make first last).weekdays &&& ((1 : BitVec 32) <<< wday) ≠ 0 ↔ InWeek (first, last) wday) ∧
      ((WeekdayRange.make first last).overnightWeekdays &&& ((1 : BitVec 32) <<< wday) ≠ 0 ↔
        InWeek (first, last) ((wday + 6) % 7)) := by
  decide

theorem isInRange_weekday {first last : ℕ} (week : first < 7 ∧ last < 7) (clock : time.Clock) (flags : DayFlags) :
    (WeekdayRange.make first last).isInRange time flags = true ↔
      flags.useCurrDay = true ∧ InWeek (first, last) (time.weekday 0) ∨
        flags.useNextDay = true ∧ InWeek (first, last) (time.weekday (-1)) := by
  have today : time.weekday 0 = time.tmWday := by
    have := clock.weekday
    simp only [Tm.weekday]
    omega
  have yesterday : time.weekday (-1) = (time.tmWday + 6) % 7 := by
    simp only [Tm.weekday]
    omega
  obtain ⟨own, overnight⟩ := mask_iff first week.1 last week.2 time.tmWday clock.weekday
  rw [today, yesterday, WeekdayRange.isInRange, Bool.or_eq_true, Bool.and_eq_true, Bool.and_eq_true, decide_eq_true_iff,
    decide_eq_true_iff, own, overnight]

/-- The first span that the time falls into, on the day of the span or on the next. -/
def firstSpan (times : List TimeSpan) (time : Tm) : Option TimeSpan :=
  times.find? fun span => decide (span.On time 0) || decide (span.RunsOver time)

theorem TimeSpan.Plain.isInRange_eq (plain : span.Plain) (clock : time.Clock) (flags : DayFlags) :
    span.isInRange time flags =
      (decide (span.On time 0) || decide (span.RunsOver time), ⟨decide (span.On time 0), decide (span.RunsOver time)⟩) := by
  obtain ⟨low, high⟩ := clock.minutes_lt
  have clocks : ¬ (span.fromTime.event ≠ .none ∨ span.toTime.event ≠ .none) := by simp [plain.fromClock, plain.toClock]
  rw [TimeSpan.isInRange, if_neg clocks]
  by_cases late : span.toTime.minutes > 24 * 60
  · have own : span.On time 0 ↔ span.fromTime.minutes ≤ time.minutes := by
      simp only [TimeSpan.On]
      omega
    have overnight : span.RunsOver time ↔ time.minutes < span.toTime.minutes - 24 * 60 := by
      simp only [TimeSpan.RunsOver]
      omega
    simp only [if_pos late, own, overnight]
  · have own : span.On time 0 ↔ span.fromTime.minutes ≤ time.minutes ∧ time.minutes < span.toTime.minutes := by
      simp only [TimeSpan.On]
      omega
    have overnight : ¬ span.RunsOver time := by
      simp only [TimeSpan.RunsOver]
      omega
    simp only [if_neg late, own, overnight, Bool.decide_and, decide_false]

/-- The flags that are left are those of the first span that the time falls into. -/
theorem anyTime_eq (plain : ∀ span ∈ times, span.Plain) (clock : time.Clock) (flags : DayFlags) :
    match firstSpan times time with
    | some span => anyTime time times flags = (true, ⟨decide (span.On time 0), decide (span.RunsOver time)⟩)
    | none => (anyTime time times flags).1 = false := by
  induction times generalizing flags with
  | nil => rfl
  | cons span times ih =>
    have here := (plain span mem_cons_self).isInRange_eq clock flags
    have rest := ih fun s mem => plain s (mem_cons_of_mem _ mem)
    rw [anyTime, here, firstSpan, find?_cons]
    cases falls : decide (span.On time 0) || decide (span.RunsOver time) with
    | true => rfl
    | false => exact rest _

variable (times days time) in
/-- When the flags of the first span give the answer of the whole rule. -/
structure FirstSpanDecides : Prop where
  own : Listed days (time.weekday 0) → ¬ Listed days (time.weekday (-1)) →
    ∀ span, firstSpan times time = some span → (∃ other ∈ times, other.On time 0) → span.On time 0
  dayBefore : ¬ Listed days (time.weekday 0) → Listed days (time.weekday (-1)) →
    ∀ span, firstSpan times time = some span → (∃ other ∈ times, other.On time (-1)) → span.RunsOver time
  started : Listed days (time.weekday (-1)) →
    ∀ span, firstSpan times time = some span → span.RunsOver time → span.On time (-1) ∨ Says times days time
  spans : times = [] → days ≠ [] → ¬ Listed days (time.weekday 0)

theorem says_iff (plain : ∀ span ∈ times, span.Plain) (clock : time.Clock) :
    Says times days time ↔
      (∃ span ∈ times, span.On time 0) ∧ Listed days (time.weekday 0) ∨
        (∃ span ∈ times, span.On time (-1)) ∧ Listed days (time.weekday (-1)) := by
  obtain ⟨low, high⟩ := clock.minutes_lt
  constructor
  · rintro ⟨span, mem, day, listed, on⟩
    have start := (plain span mem).start
    have stop := (plain span mem).stop
    have near : day = 0 ∨ day = -1 := by
      simp only [TimeSpan.On] at on
      omega
    rcases near with rfl | rfl
    · exact .inl ⟨⟨span, mem, on⟩, listed⟩
    · exact .inr ⟨⟨span, mem, on⟩, listed⟩
  · rintro (⟨⟨span, mem, on⟩, listed⟩ | ⟨⟨span, mem, on⟩, listed⟩)
    · exact ⟨span, mem, 0, listed, on⟩
    · exact ⟨span, mem, -1, listed, on⟩

theorem any_weekdays_iff (week : ∀ range ∈ days, range.1 < 7 ∧ range.2 < 7) (clock : time.Clock) (flags : DayFlags) :
    (days.map fun range => WeekdayRange.make range.1 range.2).any (·.isInRange time flags) = true ↔
      flags.useCurrDay = true ∧ (∃ range ∈ days, InWeek range (time.weekday 0)) ∨
        flags.useNextDay = true ∧ (∃ range ∈ days, InWeek range (time.weekday (-1))) := by
  rw [any_map, any_eq_true]
  constructor
  · rintro ⟨range, mem, inRange⟩
    exact ((isInRange_weekday (week range mem) clock flags).1 inRange).imp
      (fun ⟨flag, here⟩ => ⟨flag, range, mem, here⟩) (fun ⟨flag, here⟩ => ⟨flag, range, mem, here⟩)
  · rintro (⟨flag, range, mem, here⟩ | ⟨flag, range, mem, here⟩)
    · exact ⟨range, mem, (isInRange_weekday (week range mem) clock flags).2 (.inl ⟨flag, here⟩)⟩
    · exact ⟨range, mem, (isInRange_weekday (week range mem) clock flags).2 (.inr ⟨flag, here⟩)⟩

variable (times days modifier) in
/-- The rule with the spans and the ranges of weekdays, and no ranges of dates. -/
def weekRule : Rule :=
  ⟨times, days.map fun range => WeekdayRange.make range.1 range.2, [], modifier⟩

theorem listed_iff_of_ne_nil (some : days ≠ []) (wday : ℕ) : Listed days wday ↔ ∃ range ∈ days, InWeek range wday :=
  or_iff_right some

theorem falls_of_firstSpan (first : firstSpan times time = some span) :
    span.On time 0 ∨ span.RunsOver time := by
  simpa [Bool.or_eq_true, decide_eq_true_iff] using find?_some first

theorem exists_firstSpan (mem : span ∈ times) (falls : span.On time 0 ∨ span.RunsOver time) :
    ∃ first, firstSpan times time = some first := by
  rw [← Option.isSome_iff_exists, firstSpan, find?_isSome]
  exact ⟨span, mem, by simpa [Bool.or_eq_true, decide_eq_true_iff] using falls⟩

/-- The weekdays are tested with the flags of one span only. -/
theorem isInRange_weekRule_iff (plain : ∀ span ∈ times, span.Plain) (week : ∀ range ∈ days, range.1 < 7 ∧ range.2 < 7)
    (clock : time.Clock) (nonempty : times ≠ []) :
    (weekRule times days modifier).isInRange calendar time = .ok true ↔
      ∃ span, firstSpan times time = some span ∧
        (span.On time 0 ∧ Listed days (time.weekday 0) ∨ span.RunsOver time ∧ Listed days (time.weekday (-1))) := by
  have flags := anyTime_eq plain clock ⟨true, false⟩
  have isEmpty : times.isEmpty = false := by simpa using nonempty
  cases first : firstSpan times time with
  | none =>
    rw [first] at flags
    simp [weekRule, Rule.isInRange, isEmpty, flags]
  | some span =>
    have falls := falls_of_firstSpan first
    rw [first] at flags
    have weekdays := any_weekdays_iff week clock ⟨decide (span.On time 0), decide (span.RunsOver time)⟩
    simp only [decide_eq_true_iff] at weekdays
    simp only [weekRule, Rule.isInRange, isEmpty, flags, Bool.false_and, Bool.false_eq_true, if_false, Bool.true_and,
      isEmpty_nil, if_true, Option.some_inj, exists_eq_left']
    by_cases free : days = []
    · subst free
      simpa [Listed] using falls
    · simp only [listed_iff_of_ne_nil free, ← weekdays, isEmpty_map, isEmpty_eq_false_iff.2 free, Bool.false_or]
      split
      · next holds => simp only [holds]
      · next fails => simp [fails]

theorem isInRange_daysOnly_iff (week : ∀ range ∈ days, range.1 < 7 ∧ range.2 < 7) (clock : time.Clock) :
    (weekRule [] days modifier).isInRange calendar time = .ok true ↔ days ≠ [] ∧ Listed days (time.weekday 0) := by
  by_cases free : days = []
  · subst free
    simp [weekRule, Rule.isInRange]
  · have weekdays := any_weekdays_iff week clock ⟨true, false⟩
    simp only [Bool.false_eq_true, false_and, or_false] at weekdays
    simp only [weekRule, Rule.isInRange, isEmpty_nil, isEmpty_map, isEmpty_eq_false_iff.2 free, Bool.true_and,
      Bool.false_and, Bool.false_eq_true, if_false, if_true, Bool.false_or, ne_eq, free, not_false_iff,
      listed_iff_of_ne_nil free, ← weekdays]
    split
    · next holds => simp [holds]
    · next fails => simp [fails]

/-- **A rule of time spans and weekdays means what it says exactly when the first span that the time falls into
gives the answer.** -/
theorem isInRange_iff_stated (plain : ∀ span ∈ times, span.Plain) (week : ∀ range ∈ days, range.1 < 7 ∧ range.2 < 7)
    (clock : time.Clock) :
    ((weekRule times days modifier).isInRange calendar time = .ok true ↔ Says times days time) ↔
      FirstSpanDecides times days time := by
  by_cases empty : times = []
  · subst empty
    rw [isInRange_daysOnly_iff week clock]
    have nothing : ¬ Says [] days time := fun ⟨span, mem, _⟩ => absurd mem not_mem_nil
    constructor
    · intro same
      exact ⟨nofun, nofun, nofun, fun _ free listed => nothing (same.1 ⟨free, listed⟩)⟩
    · intro decides
      exact iff_of_false (fun ⟨free, listed⟩ => decides.spans rfl free listed) nothing
  · rw [isInRange_weekRule_iff plain week clock empty]
    constructor
    · intro same
      constructor
      · intro today notBefore span first some
        obtain ⟨other, first', good⟩ := same.2 ((says_iff plain clock).2 (.inl ⟨some, today⟩))
        obtain rfl : span = other := Option.some_inj.1 (first.symm.trans first')
        exact good.elim And.left fun overnight => absurd overnight.2 notBefore
      · intro notToday before span first some
        obtain ⟨other, first', good⟩ := same.2 ((says_iff plain clock).2 (.inr ⟨some, before⟩))
        obtain rfl : span = other := Option.some_inj.1 (first.symm.trans first')
        exact good.elim (fun own => absurd own.2 notToday) And.left
      · intro before span first overnight
        exact .inr (same.1 ⟨span, first, .inr ⟨overnight, before⟩⟩)
      · exact fun none => absurd none empty
    · intro decides
      constructor
      · rintro ⟨span, first, ⟨on, today⟩ | ⟨overnight, before⟩⟩
        · exact (says_iff plain clock).2 (.inl ⟨⟨span, mem_of_find?_eq_some first, on⟩, today⟩)
        · rcases decides.started before span first overnight with on | stated
          · exact (says_iff plain clock).2 (.inr ⟨⟨span, mem_of_find?_eq_some first, on⟩, before⟩)
          · exact stated
      · intro stated
        have reach : ∃ span, firstSpan times time = some span := by
          rcases (says_iff plain clock).1 stated with ⟨⟨span, mem, on⟩, -⟩ | ⟨⟨span, mem, on⟩, -⟩
          · exact exists_firstSpan mem (.inl on)
          · apply exists_firstSpan mem (.inr _)
            simp only [TimeSpan.RunsOver, TimeSpan.On] at *
            omega
        obtain ⟨span, first⟩ := reach
        have falls := falls_of_firstSpan first
        refine ⟨span, first, ?_⟩
        rcases (says_iff plain clock).1 stated with ⟨some, today⟩ | ⟨some, before⟩
        · by_cases before : Listed days (time.weekday (-1))
          · exact falls.imp (⟨·, today⟩) (⟨·, before⟩)
          · exact .inl ⟨decides.own today before span first some, today⟩
        · by_cases today : Listed days (time.weekday 0)
          · exact falls.imp (⟨·, today⟩) (⟨·, before⟩)
          · exact .inr ⟨decides.dayBefore today before span first some, before⟩

/-- `Mo 20:00-03:00,01:00-05:00` on a Monday at 02:00: the night span has not come from a Monday, and the second
span is not asked. -/
theorem isInRange_nightSpanFirst :
    let times := [TimeSpan.make (.clock 20 0) (.clock 3 0), TimeSpan.make (.clock 1 0) (.clock 5 0)]
    let time : Tm := ⟨0, 2, 12, 11, 116, 1⟩
    (weekRule times [(1, 1)] .open).isInRange (.gregorian 1400 9999) time = .ok false ∧ Says times [(1, 1)] time := by
  refine ⟨by decide, TimeSpan.make (.clock 1 0) (.clock 5 0), by decide, 0, .inr ⟨(1, 1), by decide, by decide⟩, by decide⟩

/-- `Mo-Fr 20:00-03:00` on a Saturday at 02:00. -/
theorem isInRange_iff_stated_overnight :
    let times := [TimeSpan.make (.clock 20 0) (.clock 3 0)]
    let time : Tm := ⟨0, 2, 17, 11, 116, 6⟩
    (weekRule times [(1, 5)] .open).isInRange (.gregorian 1400 9999) time = .ok true ↔ Says times [(1, 5)] time := by
  intro times time
  have plain : ∀ span ∈ times, span.Plain := by
    intro span mem
    obtain rfl := mem_singleton.1 mem
    exact ⟨rfl, rfl, by decide, by decide⟩
  have first : ∀ span, firstSpan times time = some span → span = TimeSpan.make (.clock 20 0) (.clock 3 0) := by
    intro span found
    exact mem_singleton.1 (mem_of_find?_eq_some found)
  apply (isInRange_iff_stated plain (by decide) ⟨by decide, by decide, by decide⟩).2
  constructor
  · rintro (none | ⟨range, mem, today⟩)
    · cases none
    · obtain rfl := mem_singleton.1 mem
      exact absurd today (by decide)
  · intro _ _ span found _
    rw [first span found]
    decide
  · intro _ span found _
    rw [first span found]
    exact .inl (by decide)
  · exact fun none => absurd none (cons_ne_nil _ _)

end Weeks

end Osrm.OpeningHours
