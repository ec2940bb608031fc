import Osrm.Engine.TrafficAggregator

/-!
# Live traffic over time

The system of sample arrivals, the clock, and the requests that aggregate and then read live
segments: route queries, which scale the weights of the geometries of a path, and `/traffic`
requests, which list the live segments. Requests are answered one at a time, each at one
instant of the clock.

Two results are about whole runs. `aggregation_complete_iff` says for which streams of samples
the stored averages take all users into account: the last round that touches a geometry must
have samples of all users that ever reported on it, because a round overwrites what earlier
ones stored. `never_expired_iff` says in which runs no query uses an expired segment: a round
without pending samples returns before it purges. What the store holds is told from the events
alone (`History`).
-/

namespace Osrm.Live

open List

/-- `TrafficParameters`, as far as the choice of the segments reads them -/
structure TrafficParameters where
  southWest : Option Coordinate := none
  northEast : Option Coordinate := none
deriving DecidableEq, Repr

namespace TrafficAPI

variable (facade : LiveFacade) (parameters : TrafficParameters)

/-- A coordinate lies in the box with the given corners. -/
def inBox (southWest northEast c : Coordinate) : Bool :=
  c.lat ≥ southWest.lat && c.lat ≤ northEast.lat && c.lon ≥ southWest.lon && c.lon ≤ northEast.lon

def segmentInBBox (geometryId : ℕ) (data : TrafficEdgeData) : Bool :=
  match parameters.southWest, parameters.northEast with
  | some southWest, some northEast =>
    match facade.coordinates geometryId with
    | [] => inBox southWest northEast (toFixed data.longitude data.latitude)
    | coordinates => coordinates.any (inBox southWest northEast)
  | _, _ => true

/-- The entries of the store that the response lists. -/
def listedSegments (store : LiveDataStore) : List (ℕ × TrafficEdgeData) :=
  store.getAllSegments.filter fun entry =>
    entry.2.source = .live && segmentInBBox facade parameters entry.1 entry.2 && !(facade.coordinates entry.1).isEmpty

end TrafficAPI

structure LiveState where
  clock : ℤ
  store : LiveDataStore

inductive LiveEvent where
  | arrive (sample : TrafficSample)
  | advance (milliseconds : ℕ)
  | aggregate
  /-- A route query that reads the geometries of a path. -/
  | route (geometries : List ℕ)
  | traffic (parameters : TrafficParameters)

namespace LiveState

variable (facade : LiveFacade) (s : LiveState)

/-- The state after `AggregatePendingTrafficSamples`. -/
def aggregated : LiveState :=
  { s with store := aggregatePendingTrafficSamples facade s.clock s.store.staleSeconds s.store }

def step : LiveEvent → LiveState
  | .arrive sample => { s with store := s.store.addSample sample }
  | .advance milliseconds => { s with clock := s.clock + milliseconds }
  | .aggregate => s.aggregated facade
  | .route _ => s.aggregated facade
  | .traffic _ => s.aggregated facade

def run (events : List LiveEvent) : LiveState := events.foldl (step facade) s

/-- The live segments that a query would use if it read the store as it is. -/
def uses : LiveEvent → List (ℕ × TrafficEdgeData)
  | .route geometries => geometries.filterMap fun g => (s.store.liveSegment g).map (g, ·)
  | .traffic parameters => TrafficAPI.listedSegments facade parameters s.store
  | _ => []

/-- The live segments that a query reads: it aggregates first. -/
def reads (event : LiveEvent) : List (ℕ × TrafficEdgeData) :=
  (s.aggregated facade).uses facade event

/-- An entry has not expired by the clock of the state. -/
def Current (entry : ℕ × TrafficEdgeData) : Prop := ¬ entry.2.Expired s.clock s.store.staleSeconds

instance (s : LiveState) (entry : ℕ × TrafficEdgeData) : Decidable (s.Current entry) := inferInstanceAs (Decidable (¬ _))

end LiveState

/-! ## Expired segments -/

section Expiry

open LiveState

variable {facade : LiveFacade} {s : LiveState}

theorem run_concat (start : LiveState) (events : List LiveEvent) (event : LiveEvent) :
    start.run facade (events ++ [event]) = (start.run facade events).step facade event := by
  simp [run]

/-- The query asks for a geometry. -/
def LiveEvent.Asks (facade : LiveFacade) (g : ℕ) : LiveEvent → Prop
  | .route geometries => g ∈ geometries
  | .traffic parameters => TrafficAPI.segmentInBBox facade parameters g {} = true ∧ facade.coordinates g ≠ []
  | _ => False

/-- What is used is what the query asks for and the store has. -/
theorem mem_uses {event : LiveEvent} {g : ℕ} {data : TrafficEdgeData} :
    (g, data) ∈ s.uses facade event ↔ event.Asks facade g ∧ s.store.get g = some data ∧ data.source = .live := by
  cases event with
  | route geometries =>
    simp [uses, LiveEvent.Asks, LiveDataStore.liveSegment, Option.filter_eq_some_iff]
  | traffic parameters =>
    -- the box is tested by the coordinates of the geometry, of which there are some
    have box : facade.coordinates g ≠ [] →
        TrafficAPI.segmentInBBox facade parameters g data = TrafficAPI.segmentInBBox facade parameters g {} := by
      intro line
      unfold TrafficAPI.segmentInBBox
      split
      · split
        · next empty => exact absurd empty line
        · rfl
      · rfl
    by_cases line : facade.coordinates g = []
    · simp [uses, LiveEvent.Asks, TrafficAPI.listedSegments, line]
    · simp [uses, LiveEvent.Asks, TrafficAPI.listedSegments, LiveDataStore.mem_getAllSegments, line, box line]
      tauto
  | arrive sample => simp [uses, LiveEvent.Asks]
  | advance milliseconds => simp [uses, LiveEvent.Asks]
  | aggregate => simp [uses, LiveEvent.Asks]

/-- A query uses expired data exactly if no sample is pending and what it finds has expired. -/
theorem reads_current_iff (event : LiveEvent) :
    (∀ entry ∈ s.reads facade event, s.Current entry) ↔
      s.store.pendingSamples ≠ [] ∨ ∀ entry ∈ s.uses facade event, s.Current entry := by
  by_cases idle : s.store.pendingSamples = []
  · have same : s.reads facade event = s.uses facade event := by
      unfold reads aggregated
      rw [aggregate_idle _ idle]
    simp [same, idle]
  · constructor
    · exact fun _ => .inl idle
    · intro _ entry used
      -- a round with pending samples leaves no expired segment
      have stored := (mem_uses.1 used).2.1
      rw [aggregated, get_aggregate _ idle] at stored
      simpa [Current] using (Option.filter_eq_some_iff.1 stored).2

/-! What the store holds can be told from the events. -/

/-- What the events did with the samples: the rounds that had some, each with its time, the samples that wait, and the clock. -/
structure History where
  rounds : List (ℤ × List TrafficSample) := []
  pending : List TrafficSample := []
  clock : ℤ

def History.step (h : History) : LiveEvent → History
  | .arrive sample => { h with pending := h.pending ++ [sample] }
  | .advance milliseconds => { h with clock := h.clock + milliseconds }
  | _ => if h.pending = [] then h else { h with rounds := h.rounds ++ [(h.clock, h.pending)], pending := [] }

def history (clock : ℤ) (events : List LiveEvent) : History := events.foldl History.step { clock := clock }

variable (facade) (staleSeconds : ℤ) (g : ℕ)

/-- The newest stamp of the reports on a geometry that are fresh in a round. -/
def newestStamp (round : ℤ × List TrafficSample) : Option ℤ :=
  let reports := facade.reports g (freshSamples round.1 staleSeconds round.2)
  if reports = [] then none else some ((reports.map (·.timestampMs)).foldl max 0)

/-- The stamp of the last round with reports on a geometry, unless it was over by the time of the last round. -/
def History.heldStamp (h : History) : Option ℤ :=
  (h.rounds.filterMap (newestStamp facade staleSeconds g)).getLast?.filter fun stamp =>
    ∀ round ∈ h.rounds.getLast?, round.1 ≤ stamp + staleSeconds * 1000

/-- The state after some events holds what their history says. -/
structure Follows (h : History) (s : LiveState) : Prop where
  clock : s.clock = h.clock
  pending : s.store.pendingSamples = h.pending
  stale : s.store.staleSeconds = staleSeconds
  stamps : ∀ g, (s.store.get g).map (·.timestampMs) = h.heldStamp facade staleSeconds g
  live : ∀ g, ∀ data ∈ s.store.get g, data.source = .live
  past : ∀ round ∈ h.rounds.getLast?, round.1 ≤ h.clock

variable {facade staleSeconds g}

/-- The stamps after one more round. -/
theorem heldStamp_round (h : History) (round : ℤ × List TrafficSample) :
    History.heldStamp facade staleSeconds g { h with rounds := h.rounds ++ [round], pending := [] } =
      ((newestStamp facade staleSeconds g round).or (h.rounds.filterMap (newestStamp facade staleSeconds g)).getLast?).filter
        fun stamp => round.1 ≤ stamp + staleSeconds * 1000 := by
  cases newest : newestStamp facade staleSeconds g round <;> simp [History.heldStamp, newest]

/-- A round replaces what it has reports on and removes what is over. -/
theorem Follows.round {h : History} (follows : Follows facade staleSeconds h s) :
    Follows facade staleSeconds (h.step .aggregate) (s.aggregated facade) := by
  simp only [History.step]
  split_ifs with idle
  · rw [aggregated, aggregate_idle _ (follows.pending.trans idle)]
    exact follows
  · have stored := @get_aggregate facade s.clock s.store.staleSeconds s.store (follows.pending ▸ idle)
    refine ⟨follows.clock, pendingSamples_aggregate _, (staleSeconds_aggregate _).trans follows.stale, fun g => ?_, fun g data found => ?_,
      by simp⟩
    · have moved : ∀ o : Option TrafficEdgeData,
          (o.filter fun data => !decide (data.Expired s.clock s.store.staleSeconds)).map (·.timestampMs) =
            (o.map (·.timestampMs)).filter fun stamp => s.clock ≤ stamp + s.store.staleSeconds * 1000 := by
        intro o
        rw [Option.filter_map]
        congr 2
        funext data
        rw [← decide_not, Function.comp_apply, decide_eq_decide, TrafficEdgeData.Expired]
        omega
      rw [aggregated, stored, moved, heldStamp_round, newestStamp, follows.clock, follows.pending, follows.stale]
      split_ifs
      · rw [follows.stamps, Option.none_or, History.heldStamp, Option.filter_filter]
        congr 1
        funext stamp
        -- what is not over now was not at the round before
        rw [Bool.and_eq_right_iff_imp]
        intro now
        exact decide_eq_true fun round last => (follows.past round last).trans (of_decide_eq_true now)
      · rw [Option.map_some, averageData_timestamp_eq]
        rfl
    · rw [aggregated, stored] at found
      have held := (Option.filter_eq_some_iff.1 found).1
      split_ifs at held
      · exact follows.live g data held
      · cases held
        rfl

/-- The run lemma. -/
theorem run_follows (facade : LiveFacade) (clock staleSeconds : ℤ) (events : List LiveEvent) :
    Follows facade staleSeconds (history clock events) (LiveState.run facade ⟨clock, ⟨∅, [], staleSeconds⟩⟩ events) := by
  induction events using reverseRecOn with
  | nil =>
    have empty : ∀ g, (LiveState.run facade ⟨clock, ⟨∅, [], staleSeconds⟩⟩ []).store.get g = none := fun g => Std.TreeMap.getElem?_emptyc
    refine ⟨rfl, rfl, rfl, fun g => ?_, fun g data found => ?_, by simp [history]⟩
    · rw [empty]
      rfl
    · rw [empty] at found
      cases found
  | append_singleton events event ih =>
    have next : history clock (events ++ [event]) = (history clock events).step event := foldl_concat ..
    rw [run_concat, next]
    cases event with
    | arrive sample => exact { ih with pending := congrArg (· ++ [sample]) ih.pending }
    | advance milliseconds =>
      exact { ih with
        clock := congrArg (· + (milliseconds : ℤ)) ih.clock
        past := fun round last => (ih.past round last).trans (le_add_of_nonneg_right (Int.natCast_nonneg _)) }
    | aggregate => exact ih.round
    | route geometries => exact ih.round
    | traffic parameters => exact ih.round

/-- What a query uses is current where the stamps of what it asks for are. -/
theorem uses_current_iff {h : History} (follows : Follows facade staleSeconds h s) (event : LiveEvent) :
    (∀ entry ∈ s.uses facade event, s.Current entry) ↔
      ∀ g, event.Asks facade g → ∀ stamp ∈ h.heldStamp facade staleSeconds g, h.clock ≤ stamp + staleSeconds * 1000 := by
  have current (entry : ℕ × TrafficEdgeData) : s.Current entry ↔ h.clock ≤ entry.2.timestampMs + staleSeconds * 1000 := by
    rw [Current, TrafficEdgeData.Expired, follows.clock, follows.stale]
    omega
  constructor
  · intro all g asked stamp held
    rw [← follows.stamps] at held
    obtain ⟨data, found, rfl⟩ := Option.map_eq_some_iff.1 held
    exact (current (g, data)).1 (all _ (mem_uses.2 ⟨asked, found, follows.live g data found⟩))
  · rintro all ⟨g, data⟩ used
    obtain ⟨asked, found, -⟩ := mem_uses.1 used
    exact (current _).2 (all g asked _ (by rw [← follows.stamps, found]; rfl))

end Expiry

/-- One road, of geometry 7, to which every sample snaps. -/
def oneRoad : LiveFacade where
  nearestPhantomNodes _ := [⟨0, true⟩]
  getGeometryIndex _ := 7
  coordinates _ := [⟨13400000, 52500000⟩]

def sampleOf (userId : ℕ) (speedKmh : ℚ) (timestampMs : ℤ) : TrafficSample := ⟨userId, 105 / 2, 67 / 5, speedKmh, 0, timestampMs⟩

namespace LiveEvent

/-- The samples that arrive during the events. -/
def arrivals (events : List LiveEvent) : List TrafficSample :=
  events.filterMap fun event => match event with
    | .arrive sample => some sample
    | _ => none

/-- The samples of each round, in order, and those that arrived after the last one. -/
def rounds (events : List LiveEvent) : List (List TrafficSample) × List TrafficSample :=
  events.foldl (fun (done, current) event => match event with
    | .arrive sample => (done, current ++ [sample])
    | .advance _ => (done, current)
    | _ => (done ++ [current], [])) ([], [])

/-- The reports on a geometry of the last round that has some. -/
def lastReports (facade : LiveFacade) (g : ℕ) (done : List (List TrafficSample)) : List TrafficSample :=
  ((done.map (facade.reports g)).filter (· ≠ [])).getLast?.getD []

end LiveEvent

section Rounds

open LiveState LiveEvent

variable {facade : LiveFacade} {g : ℕ} {staleSeconds : ℤ} (events : List LiveEvent)

section Rounds

variable (done : List (List TrafficSample)) (current : List TrafficSample)

include done

theorem lastReports_concat :
    lastReports facade g (done ++ [current]) =
      if facade.reports g current = [] then lastReports facade g done else facade.reports g current := by
  unfold lastReports
  by_cases empty : facade.reports g current = []
  · simp [empty]
  · simp [empty]

theorem reports_concat :
    facade.reports g (done ++ [current]).flatten = facade.reports g done.flatten ++ facade.reports g current := by
  simp [LiveFacade.reports]

/-- Every report of the last round is one of the arrivals. -/
theorem lastReports_sublist :
    (lastReports facade g done).Sublist (facade.reports g done.flatten) := by
  induction done using reverseRecOn with
  | nil => exact Sublist.refl _
  | append_singleton done current ih =>
    rw [lastReports_concat, reports_concat]
    split_ifs
    · exact ih.trans (sublist_append_left _ _)
    · exact sublist_append_right _ _

/-- Some round has reports on every geometry that was reported on. -/
theorem lastReports_eq_nil :
    lastReports facade g done = [] ↔ facade.reports g done.flatten = [] := by
  induction done using reverseRecOn with
  | nil => simp [lastReports, LiveFacade.reports]
  | append_singleton done current ih =>
    rw [lastReports_concat, reports_concat, append_eq_nil_iff, ← ih]
    split_ifs with empty
    · simp [empty]
    · simp [empty]

end Rounds

theorem rounds_concat (event : LiveEvent) :
    rounds (events ++ [event]) = match event with
      | .arrive sample => ((rounds events).1, (rounds events).2 ++ [sample])
      | .advance _ => rounds events
      | _ => ((rounds events).1 ++ [(rounds events).2], []) := by
  unfold rounds
  rw [foldl_append, foldl_cons, foldl_nil]

/-- The rounds have all arrivals. -/
theorem rounds_flatten :
    (rounds events).1.flatten ++ (rounds events).2 = arrivals events := by
  induction events using reverseRecOn with
  | nil => rfl
  | append_singleton events event ih =>
    have split : arrivals (events ++ [event]) = arrivals events ++ arrivals [event] := filterMap_append ..
    rw [split, ← ih, rounds_concat]
    cases event <;> simp [arrivals]

/-- The clock never goes back. -/
theorem clock_le_step (s : LiveState) (event : LiveEvent) : s.clock ≤ (s.step facade event).clock := by
  cases event with
  | advance milliseconds =>
    change s.clock ≤ s.clock + milliseconds
    omega
  | arrive sample => exact le_rfl
  | aggregate => exact le_rfl
  | route geometries => exact le_rfl
  | traffic parameters => exact le_rfl

/-- What is stored for the reports of one round. -/
def stored (reports : List TrafficSample) : Option TrafficEdgeData :=
  if reports = [] then none else some (averageData (collect reports))

/-- Fresh samples keep what was stored for them. -/
theorem stored_unexpired {reports : List TrafficSample} {now : ℤ}
    (fresh : ∀ sample ∈ reports, now ≤ sample.timestampMs + staleSeconds * 1000) :
    (stored reports).filter (fun data => !decide (data.Expired now staleSeconds)) = stored reports := by
  unfold stored
  split_ifs with empty
  · rfl
  · obtain ⟨sample, member⟩ := exists_mem_of_ne_nil _ empty
    have low := fresh sample member
    have newer := le_averageData_timestamp member
    have current : ¬ (averageData (collect reports)).Expired now staleSeconds := by
      unfold TrafficEdgeData.Expired
      omega
    simp [current]

/-- The state after some events, as long as every sample is fresh: each geometry has the data of the last round with
reports on it. -/
structure Kept (facade : LiveFacade) (staleSeconds : ℤ) (events : List LiveEvent) (s : LiveState) : Prop where
  stale : s.store.staleSeconds = staleSeconds
  pending : s.store.pendingSamples = (rounds events).2
  segments : ∀ g, s.store.get g = stored (lastReports facade g (rounds events).1)

/-- A round on a state in which every sample is fresh. -/
theorem Kept.aggregated {events : List LiveEvent} {s : LiveState} (kept : Kept facade staleSeconds events s)
    (fresh : ∀ sample ∈ arrivals events, s.clock ≤ sample.timestampMs + staleSeconds * 1000) (g : ℕ) :
    (s.aggregated facade).store.get g = stored (lastReports facade g ((rounds events).1 ++ [(rounds events).2])) := by
  have inArrivals : ∀ sample, sample ∈ (rounds events).1.flatten ∨ sample ∈ (rounds events).2 → sample ∈ arrivals events := by
    intro sample member
    rw [← rounds_flatten]
    exact mem_append.2 member
  have early : ∀ sample ∈ lastReports facade g (rounds events).1, s.clock ≤ sample.timestampMs + staleSeconds * 1000 := by
    intro sample member
    apply fresh
    apply inArrivals
    exact .inl (mem_of_mem_filter ((lastReports_sublist _).subset member))
  unfold LiveState.aggregated
  by_cases idle : s.store.pendingSamples = []
  · rw [aggregate_idle _ idle, kept.segments, lastReports_concat, ← kept.pending, idle]
    rfl
  · have all : freshSamples s.clock staleSeconds s.store.pendingSamples = (rounds events).2 := by
      rw [kept.pending]
      apply filter_eq_self.2
      intro sample member
      have := fresh sample (inArrivals sample (.inr member))
      simpa using this
    rw [kept.stale, get_aggregate _ idle, all, lastReports_concat]
    split_ifs with empty
    · rw [kept.segments, stored_unexpired early]
    · have same : some (averageData (collect (facade.reports g (rounds events).2))) =
          stored (facade.reports g (rounds events).2) := by
        simp [stored, empty]
      rw [same, stored_unexpired]
      intro sample member
      exact fresh sample (inArrivals sample (.inr (mem_of_mem_filter member)))

/-- The run lemma. -/
theorem run_kept (facade : LiveFacade) (clock staleSeconds : ℤ) (events : List LiveEvent)
    (fresh : ∀ sample ∈ arrivals events,
      (LiveState.run facade ⟨clock, ⟨∅, [], staleSeconds⟩⟩ events).clock ≤ sample.timestampMs + staleSeconds * 1000) :
    Kept facade staleSeconds events (LiveState.run facade ⟨clock, ⟨∅, [], staleSeconds⟩⟩ events) := by
  induction events using reverseRecOn with
  | nil => exact ⟨rfl, rfl, fun g => Std.TreeMap.getElem?_emptyc⟩
  | append_singleton events event ih =>
    rw [run_concat] at fresh ⊢
    have split : arrivals (events ++ [event]) = arrivals events ++ arrivals [event] := filterMap_append ..
    have before : ∀ sample ∈ arrivals events,
        (LiveState.run facade ⟨clock, ⟨∅, [], staleSeconds⟩⟩ events).clock ≤ sample.timestampMs + staleSeconds * 1000 := by
      intro sample member
      apply (clock_le_step _ event).trans
      apply fresh
      rw [split]
      exact mem_append_left _ member
    have kept := ih before
    have round : rounds (events ++ [event]) = ((rounds events).1 ++ [(rounds events).2], []) →
        Kept facade staleSeconds (events ++ [event])
          ((LiveState.run facade ⟨clock, ⟨∅, [], staleSeconds⟩⟩ events).aggregated facade) := by
      intro last
      refine ⟨(staleSeconds_aggregate _).trans kept.stale, ?_, ?_⟩
      · rw [last]
        exact pendingSamples_aggregate _
      · intro g
        rw [last]
        exact kept.aggregated before g
    have next := rounds_concat events event
    cases event with
    | arrive sample =>
      refine ⟨kept.stale, ?_, ?_⟩
      · rw [next, ← kept.pending]
        rfl
      · intro g
        rw [next]
        exact kept.segments g
    | advance milliseconds =>
      refine ⟨kept.stale, ?_, ?_⟩
      · rw [next]
        exact kept.pending
      · intro g
        rw [next]
        exact kept.segments g
    | aggregate => exact round next
    | route geometries => exact round next
    | traffic parameters => exact round next

theorem users_mono {l l' : List TrafficSample} (sublist : l.Sublist l') : users l ⊆ users l' := by
  unfold users
  intro user member
  rw [mem_toFinset] at member ⊢
  exact (sublist.map _).subset member

/-- **Rounds and reports**: after a stream of fresh samples and a last round, the stored averages are those over the newest
samples of all users, exactly if for each geometry the last round with reports on it has all of its users and their
speeds add up to the same. Whatever the earlier rounds stored for the geometry is overwritten. -/
theorem aggregation_complete_iff (facade : LiveFacade) (clock staleSeconds : ℤ) (events : List LiveEvent)
    (fresh : ∀ sample ∈ arrivals events,
      (LiveState.run facade ⟨clock, ⟨∅, [], staleSeconds⟩⟩ events).clock ≤ sample.timestampMs + staleSeconds * 1000) :
    (∀ g, facade.reports g (arrivals events) ≠ [] → ∃ data,
      (LiveState.run facade ⟨clock, ⟨∅, [], staleSeconds⟩⟩ (events ++ [.aggregate])).store.get g = some data ∧
      data.speedKmh = speedSum (facade.reports g (arrivals events)) / (users (facade.reports g (arrivals events))).card ∧
      data.sampleCount = (users (facade.reports g (arrivals events))).card) ↔
    ∀ g, users (facade.reports g (arrivals events)) ⊆
          users (lastReports facade g (rounds (events ++ [.aggregate])).1) ∧
        speedSum (lastReports facade g (rounds (events ++ [.aggregate])).1) =
          speedSum (facade.reports g (arrivals events)) ∧
        (users (facade.reports g (arrivals events))).card < 2 ^ 32 := by
  have same : arrivals (events ++ [.aggregate]) = arrivals events := by simp [arrivals]
  have kept : Kept facade staleSeconds (events ++ [.aggregate])
      (LiveState.run facade ⟨clock, ⟨∅, [], staleSeconds⟩⟩ (events ++ [.aggregate])) := by
    apply run_kept
    rw [same, run_concat]
    exact fresh
  have flat : (rounds (events ++ [.aggregate])).1.flatten = arrivals events := by
    rw [← same, ← rounds_flatten, rounds_concat, append_nil]
  apply forall_congr'
  intro g
  rw [kept.segments, ← flat]
  generalize (rounds (events ++ [.aggregate])).1 = done
  have within : users (lastReports facade g done) ⊆ users (facade.reports g done.flatten) :=
    users_mono (lastReports_sublist done)
  by_cases empty : facade.reports g done.flatten = []
  · simp [empty, (lastReports_eq_nil done).2 empty, users]
  · have last : lastReports facade g done ≠ [] := mt (lastReports_eq_nil done).1 empty
    have some : (users (lastReports facade g done)).card ≠ 0 := by
      rw [users]
      simpa using last
    have speed : (averageData (collect (lastReports facade g done))).speedKmh =
        speedSum (lastReports facade g done) / (users (lastReports facade g done)).card := by
      rw [← collect_length]
      unfold speedSum
      rw [← collect_sum]
      rfl
    have count : (averageData (collect (lastReports facade g done))).sampleCount =
        (users (lastReports facade g done)).card % 2 ^ 32 := by
      rw [← collect_length]
      rfl
    simp only [stored, last, if_false, ne_eq, empty, not_false_eq_true, forall_const, Option.some.injEq, exists_eq_left',
      speed, count]
    constructor
    · rintro ⟨mean, number⟩
      have le := Finset.card_le_card within
      have equal : (users (lastReports facade g done)).card = (users (facade.reports g done.flatten)).card := by omega
      refine ⟨(Finset.eq_of_subset_of_card_le within equal.ge).ge, ?_, by omega⟩
      rw [equal] at mean some
      have nonzero : ((users (facade.reports g done.flatten)).card : ℚ) ≠ 0 := by exact_mod_cast some
      exact (div_left_inj' nonzero).1 mean
    · rintro ⟨all, sum, few⟩
      have equal := within.antisymm all
      rw [equal, sum]
      exact ⟨rfl, Nat.mod_eq_of_lt few⟩

/-- Two users report in one round. -/
theorem aggregation_complete_two : ∃ data,
    (LiveState.run oneRoad ⟨1000, ⟨∅, [], 120⟩⟩
      [.arrive (sampleOf 1 20 1000), .arrive (sampleOf 2 40 1000), .aggregate]).store.get 7 = some data ∧
    data.speedKmh = speedSum (oneRoad.reports 7 [sampleOf 1 20 1000, sampleOf 2 40 1000]) /
      (users (oneRoad.reports 7 [sampleOf 1 20 1000, sampleOf 2 40 1000])).card ∧
    data.sampleCount = (users (oneRoad.reports 7 [sampleOf 1 20 1000, sampleOf 2 40 1000])).card := by
  refine (aggregation_complete_iff oneRoad 1000 120 [.arrive (sampleOf 1 20 1000), .arrive (sampleOf 2 40 1000)]
    (by decide)).2 ?_ 7 (by decide)
  intro g
  by_cases here : g = 7
  · subst here
    decide +kernel
  · have snap : ∀ sample, oneRoad.snap sample ≠ some g := by
      intro sample
      change some 7 ≠ some g
      simpa using Ne.symm here
    simp [LiveFacade.reports, lastReports, rounds, snap, users]

/-- Two users report in a round each: the second round overwrites the first. -/
theorem aggregation_overwrites :
    ((LiveState.run oneRoad ⟨1000, ⟨∅, [], 120⟩⟩
      [.arrive (sampleOf 1 20 1000), .aggregate, .arrive (sampleOf 2 40 1000), .aggregate]).store.get 7).map
        (fun data => (data.speedKmh, data.sampleCount)) = some (40, 1) ∧
    speedSum (oneRoad.reports 7 [sampleOf 1 20 1000, sampleOf 2 40 1000]) /
      (users (oneRoad.reports 7 [sampleOf 1 20 1000, sampleOf 2 40 1000])).card = 30 ∧
    (users (oneRoad.reports 7 [sampleOf 1 20 1000, sampleOf 2 40 1000])).card = 2 := by
  decide +kernel

end Rounds

end Osrm.Live
