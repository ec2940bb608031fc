import Osrm.Engine.LiveTraffic

/-!
# Aggregation on several threads

Any number of request threads aggregate at the same time, and one thread adds samples. Only the
operations of the store are atomic, so a round is cut at each of them: taking the samples, each
update, the purge. Snapping a sample makes a phantom node, and `MakePhantomNode` aggregates in
turn, so the rounds of one thread form a stack.

Nothing in the source orders the writes. `timestamps_never_decrease` says what would have to hold
for the stored timestamps never to go back: the samples of a geometry arrive in the order of
their timestamps, and a geometry with data is written only by rounds that took their samples
after the round that wrote it last.
-/

namespace Osrm.Live

open Function List

inductive Phase where
  /-- It has taken its samples. -/
  | taken (samples : List TrafficSample)
  /-- It has read the clock and grouped the samples `done`. With `snapping`, it is inside of `NearestPhantomNodes` for
  the first sample of `rest`. -/
  | grouping (now : ℤ) (done rest : List TrafficSample) (snapping : Bool)
  /-- It still has to store these entries, in whichever order the map has them. -/
  | updating (entries : List (ℕ × TrafficEdgeData))
  /-- It has read the clock for the purge. -/
  | purging (now : ℤ)

/-- A round in progress. The ticket tells in which order the rounds took their samples. -/
structure Round where
  ticket : ℕ
  phase : Phase

/-- The shared store, the rounds of each thread, innermost first, and what the statements below need of the past:
all samples that arrived, and for each geometry the ticket of the round that wrote it last. -/
structure Threads where
  clock : ℤ
  store : LiveDataStore
  rounds : ℕ → List Round
  tickets : ℕ
  arrived : List TrafficSample
  writer : ℕ → ℕ

inductive ThreadAction where
  | arrive (sample : TrafficSample)
  | advance (milliseconds : ℕ)
  | clear
  /-- A thread calls `AggregatePendingTrafficSamples`. -/
  | call (thread : ℕ)
  /-- A thread goes on with its innermost round. -/
  | proceed (thread : ℕ)
  /-- A thread stores an entry of its innermost round. -/
  | write (thread geometryId : ℕ)

/-- What the loops over the grouped samples store. -/
def entries (facade : LiveFacade) (now staleSeconds : ℤ) (samples : List TrafficSample) : List (ℕ × TrafficEdgeData) :=
  (samples.foldl (groupSample facade now staleSeconds) ∅).toList.map fun entry => (entry.1, averageData entry.2)

namespace Threads

variable (facade : LiveFacade) (s : Threads)

def initial (clock staleSeconds : ℤ) : Threads := ⟨clock, ⟨∅, [], staleSeconds⟩, fun _ => [], 0, [], fun _ => 0⟩

/-- The rounds of one thread are replaced. -/
def setRounds (thread : ℕ) (stack : List Round) : Threads :=
  { s with rounds := update s.rounds thread stack }

/-- The start of a round: it takes the pending samples, and returns at once where there are none. -/
def enter (thread : ℕ) : Threads :=
  match s.store.takePendingSamples with
  | ([], _) => s
  | (samples, store) =>
    { s with store := store, tickets := s.tickets + 1 }.setRounds thread (⟨s.tickets + 1, .taken samples⟩ :: s.rounds thread)

/-- The next step of a thread that is inside of a round, its updates apart. -/
def proceed (thread ticket : ℕ) (outer : List Round) : Phase → Option Threads
  | .taken samples => some (s.setRounds thread (⟨ticket, .grouping s.clock [] samples false⟩ :: outer))
  | .grouping now done [] _ =>
    some (s.setRounds thread (⟨ticket, .updating (entries facade now s.store.staleSeconds done)⟩ :: outer))
  | .grouping now done (sample :: rest) snapping =>
    if sample.timestampMs + s.store.staleSeconds * 1000 < now ∨
        facade.nearestPhantomNodes (toFixed sample.longitude sample.latitude) = [] ∨ snapping then
      some (s.setRounds thread (⟨ticket, .grouping now (done ++ [sample]) rest false⟩ :: outer))
    else
      -- `MakePhantomNode` aggregates
      some ((s.setRounds thread (⟨ticket, .grouping now done (sample :: rest) true⟩ :: outer)).enter thread)
  | .updating [] => some (s.setRounds thread (⟨ticket, .purging s.clock⟩ :: outer))
  | .updating (_ :: _) => none
  | .purging now =>
    some ({ s with store := s.store.removeStaleSegments now s.store.staleSeconds }.setRounds thread outer)

/-- One atomic step, where the action is possible. -/
def step : ThreadAction → Option Threads
  | .arrive sample => some { s with store := s.store.addSample sample, arrived := sample :: s.arrived }
  | .advance milliseconds => some { s with clock := s.clock + milliseconds }
  | .clear => some { s with store := s.store.clear }
  | .call thread =>
    match s.rounds thread with
    | [] => some (s.enter thread)
    | _ :: _ => none
  | .proceed thread =>
    match s.rounds thread with
    | [] => none
    | round :: outer => proceed facade s thread round.ticket outer round.phase
  | .write thread geometryId =>
    match s.rounds thread with
    | ⟨ticket, .updating todo⟩ :: outer =>
      match todo.find? (·.1 = geometryId) with
      | none => none
      | some entry =>
        some ({ s with
          store := s.store.update entry.1 entry.2
          writer := update s.writer entry.1 ticket }.setRounds thread
            (⟨ticket, .updating (todo.eraseP (·.1 = geometryId))⟩ :: outer))
    | _ => none

/-- The steps of a run in which samples and writes come in order. -/
def InOrder : ThreadAction → Prop
  | .arrive sample => facade.snap sample ≠ none → ∀ earlier ∈ s.arrived, facade.snap earlier = facade.snap sample →
      earlier.timestampMs ≤ sample.timestampMs
  | .write thread geometryId => (s.store.get geometryId).isSome → ∀ round ∈ (s.rounds thread).head?,
      s.writer geometryId < round.ticket
  | _ => True

instance (facade : LiveFacade) (s : Threads) : ∀ action, Decidable (s.InOrder facade action)
  | .arrive _ => inferInstanceAs (Decidable (_ → ∀ _ ∈ _, _ → _))
  | .write _ _ => inferInstanceAs (Decidable (_ → ∀ _ ∈ _, _))
  | .advance _ | .clear | .call _ | .proceed _ => inferInstanceAs (Decidable True)

/-- A sequence of steps, where all of them are possible. -/
def run (actions : List ThreadAction) : Option Threads :=
  actions.foldlM (fun s action => s.step facade action) s

/-- A sequence of steps, where all of them are possible and in order. -/
def runInOrder (facade : LiveFacade) : Threads → List ThreadAction → Option Threads
  | s, [] => some s
  | s, action :: rest => if s.InOrder facade action then (s.step facade action).bind (runInOrder facade · rest) else none

inductive OrderedRun (facade : LiveFacade) (start : Threads) : Threads → Prop
  | refl : OrderedRun facade start start
  | tail {s s' : Threads} {action : ThreadAction} : OrderedRun facade start s → s.InOrder facade action →
      s.step facade action = some s' → OrderedRun facade start s'

variable {facade : LiveFacade} {s s' : Threads} {data : TrafficEdgeData}

/-- The timestamp that a sample alone gives a segment. -/
def time (sample : TrafficSample) : ℤ := max 0 sample.timestampMs

/-- A round holds a timestamp for a geometry: of a sample, or of an entry it has yet to store. -/
def Holds (facade : LiveFacade) (g : ℕ) (τ : ℤ) : Phase → Prop
  | .taken samples => ∃ sample ∈ samples, facade.snap sample = some g ∧ τ = time sample
  | .grouping _ done rest _ => ∃ sample ∈ done ++ rest, facade.snap sample = some g ∧ τ = time sample
  | .updating todo => ∃ data, (g, data) ∈ todo ∧ τ = data.timestampMs
  | .purging _ => False

def Running (s : Threads) (round : Round) : Prop := ∃ thread, round ∈ s.rounds thread

/-- The invariant: what is stored or held is no newer than what was taken later or is still pending, and no newer than
what has arrived. -/
structure Ordered (facade : LiveFacade) (s : Threads) : Prop where
  ticket : ∀ round, s.Running round → round.ticket ≤ s.tickets
  writer : ∀ g, s.writer g ≤ s.tickets
  running : ∀ round round', s.Running round → s.Running round' → round.ticket < round'.ticket →
    ∀ g τ τ', Holds facade g τ round.phase → Holds facade g τ' round'.phase → τ ≤ τ'
  pending : ∀ round, s.Running round → ∀ g τ, Holds facade g τ round.phase →
    ∀ sample ∈ s.store.pendingSamples, facade.snap sample = some g → τ ≤ time sample
  stored : ∀ g data, s.store.get g = some data → ∀ round, s.Running round → s.writer g < round.ticket →
    ∀ τ, Holds facade g τ round.phase → data.timestampMs ≤ τ
  storedPending : ∀ g data, s.store.get g = some data →
    ∀ sample ∈ s.store.pendingSamples, facade.snap sample = some g → data.timestampMs ≤ time sample
  arrivedHeld : ∀ round, s.Running round → ∀ g τ, Holds facade g τ round.phase →
    ∃ sample ∈ s.arrived, facade.snap sample = some g ∧ τ ≤ time sample
  arrivedStored : ∀ g data, s.store.get g = some data → ∃ sample ∈ s.arrived, facade.snap sample = some g ∧
    data.timestampMs ≤ time sample
  arrivedPending : ∀ sample ∈ s.store.pendingSamples, sample ∈ s.arrived

/-- The data of a grouped geometry has the timestamp of one of its samples. -/
theorem entry_time {now staleSeconds : ℤ} {samples : List TrafficSample} {g : ℕ}
    (member : (g, data) ∈ entries facade now staleSeconds samples) :
    ∃ sample ∈ samples, facade.snap sample = some g ∧ data.timestampMs = time sample := by
  obtain ⟨⟨g', userSamples⟩, inside, equal⟩ := mem_map.1 member
  cases equal
  rw [Std.TreeMap.mem_toList_iff_getElem?_eq_some, grouped_getElem?] at inside
  split_ifs at inside with empty
  cases inside
  have source : ∀ sample ∈ facade.reports g' (freshSamples now staleSeconds samples),
      sample ∈ samples ∧ facade.snap sample = some g' := by
    intro sample reported
    obtain ⟨fresh, snapped⟩ := mem_filter.1 reported
    exact ⟨mem_of_mem_filter fresh, by simpa using snapped⟩
  generalize facade.reports g' (freshSamples now staleSeconds samples) = reports at empty source
  rcases averageData_timestamp reports with zero | ⟨sample, reported, equal⟩
  · obtain ⟨sample, reported⟩ := exists_mem_of_ne_nil _ empty
    refine ⟨sample, (source sample reported).1, (source sample reported).2, ?_⟩
    have low := le_averageData_timestamp reported
    unfold time
    dsimp only
    omega
  · refine ⟨sample, (source sample reported).1, (source sample reported).2, ?_⟩
    have nonneg : 0 ≤ (averageData (collect reports)).timestampMs := (le_foldl_max _ 0).1
    unfold time
    dsimp only
    omega

/-- Steps that add nothing: every round comes from one with the same ticket that held at least as much, and what is
stored or pending was so before. -/
theorem Ordered.shrink (ordered : Ordered facade s)
    (rounds : ∀ round', s'.Running round' → ∃ round, s.Running round ∧ round.ticket = round'.ticket ∧
      ∀ g τ, Holds facade g τ round'.phase → Holds facade g τ round.phase)
    (segments : ∀ g data, s'.store.get g = some data → s.store.get g = some data)
    (pending : ∀ sample ∈ s'.store.pendingSamples, sample ∈ s.store.pendingSamples)
    (tickets : s'.tickets = s.tickets) (arrived : s'.arrived = s.arrived) (writer : s'.writer = s.writer) :
    Ordered facade s' where
  ticket round' running' := by
    obtain ⟨round, running, same, -⟩ := rounds round' running'
    rw [← same, tickets]
    exact ordered.ticket round running
  writer g := by
    rw [writer, tickets]
    exact ordered.writer g
  running first second firstRunning secondRunning lt g τ τ' holds holds' := by
    obtain ⟨round, running, same, within⟩ := rounds first firstRunning
    obtain ⟨round', running', same', within'⟩ := rounds second secondRunning
    exact ordered.running round round' running running' (by omega) g τ τ' (within g τ holds) (within' g τ' holds')
  pending round' running' g τ holds sample member := by
    obtain ⟨round, running, -, within⟩ := rounds round' running'
    exact ordered.pending round running g τ (within g τ holds) sample (pending sample member)
  stored g data found round' running' lt τ holds := by
    obtain ⟨round, running, same, within⟩ := rounds round' running'
    rw [writer, ← same] at lt
    exact ordered.stored g data (segments g data found) round running lt τ (within g τ holds)
  storedPending g data found sample member :=
    ordered.storedPending g data (segments g data found) sample (pending sample member)
  arrivedHeld round' running' g τ holds := by
    obtain ⟨round, running, -, within⟩ := rounds round' running'
    rw [arrived]
    exact ordered.arrivedHeld round running g τ (within g τ holds)
  arrivedStored g data found := by
    rw [arrived]
    exact ordered.arrivedStored g data (segments g data found)
  arrivedPending sample member := by
    rw [arrived]
    exact ordered.arrivedPending sample (pending sample member)

/-- The rounds of one thread are replaced by rounds that hold no more. -/
theorem running_setRounds {thread : ℕ} {stack : List Round} {round : Round}
    (running : (s.setRounds thread stack).Running round) : round ∈ stack ∨ s.Running round := by
  obtain ⟨other, member⟩ := running
  by_cases same : other = thread
  · subst same
    simp only [setRounds, update_self] at member
    exact .inl member
  · simp only [setRounds, update_of_ne same] at member
    exact .inr ⟨other, member⟩

section Next

variable {thread ticket : ℕ} {phase phase' : Phase} {outer : List Round} (stack : s.rounds thread = ⟨ticket, phase⟩ :: outer)
  (within : ∀ g τ, Holds facade g τ phase' → Holds facade g τ phase)

include stack within

/-- Where the rounds come from, when the innermost one goes on to a phase that holds no more. -/
theorem running_next {round' : Round} (running' : (s.setRounds thread (⟨ticket, phase'⟩ :: outer)).Running round') :
    ∃ round, s.Running round ∧ round.ticket = round'.ticket ∧ ∀ g τ, Holds facade g τ round'.phase → Holds facade g τ round.phase := by
  rcases running_setRounds running' with member | running
  · rcases mem_cons.1 member with rfl | inOuter
    · exact ⟨⟨ticket, phase⟩, ⟨thread, by simp [stack]⟩, rfl, within⟩
    · exact ⟨round', ⟨thread, by simp [stack, inOuter]⟩, rfl, fun _ _ => id⟩
  · exact ⟨round', running, rfl, fun _ _ => id⟩

theorem Ordered.next (ordered : Ordered facade s) : Ordered facade (s.setRounds thread (⟨ticket, phase'⟩ :: outer)) :=
  ordered.shrink (fun _ => running_next stack within) (fun _ _ => id) (fun _ => id) rfl rfl rfl

end Next

/-- A round that takes the pending samples holds nothing older than what others hold. -/
theorem Ordered.enter (ordered : Ordered facade s) (thread : ℕ) : Ordered facade (s.enter thread) := by
  unfold Threads.enter LiveDataStore.takePendingSamples
  split
  · exact ordered
  · rename_i samples store isSome taken
    cases taken
    -- a round of the new state is the new one or an old one
    have cases : ∀ round, ({ s with store := { s.store with pendingSamples := [] }, tickets := s.tickets + 1 }.setRounds thread
        (⟨s.tickets + 1, .taken s.store.pendingSamples⟩ :: s.rounds thread)).Running round →
        round = ⟨s.tickets + 1, .taken s.store.pendingSamples⟩ ∨ s.Running round := by
      intro round running
      rcases running_setRounds running with member | old
      · rcases mem_cons.1 member with new | inside
        · exact .inl new
        · exact .inr ⟨thread, inside⟩
      · exact .inr old
    refine ⟨?_, ?_, ?_, ?_, ?_, ?_, ?_, ?_, ?_⟩
    · intro round running
      change round.ticket ≤ s.tickets + 1
      rcases cases round running with rfl | old
      · exact le_rfl
      · have := ordered.ticket round old
        omega
    · intro g
      exact (ordered.writer g).trans (Nat.le_succ _)
    · intro round round' running running' lt g τ τ' holds holds'
      rcases cases round running with rfl | old
      · rcases cases round' running' with rfl | old'
        · exact absurd lt (lt_irrefl _)
        · have := ordered.ticket round' old'
          change s.tickets + 1 < round'.ticket at lt
          omega
      · rcases cases round' running' with rfl | old'
        · obtain ⟨sample, member, snapped, rfl⟩ := holds'
          exact ordered.pending round old g τ holds sample member snapped
        · exact ordered.running round round' old old' lt g τ τ' holds holds'
    · intro round running g τ holds sample member
      cases member
    · intro g data found round running lt τ holds
      rcases cases round running with rfl | old
      · obtain ⟨sample, member, snapped, rfl⟩ := holds
        exact ordered.storedPending g data found sample member snapped
      · exact ordered.stored g data found round old lt τ holds
    · intro g data found sample member
      cases member
    · intro round running g τ holds
      rcases cases round running with rfl | old
      · obtain ⟨sample, member, snapped, rfl⟩ := holds
        exact ⟨sample, ordered.arrivedPending sample member, snapped, le_rfl⟩
      · exact ordered.arrivedHeld round old g τ holds
    · intro g data found
      exact ordered.arrivedStored g data found
    · intro sample member
      cases member

@[simp] theorem enter_get (s : Threads) (thread g : ℕ) : (s.enter thread).store.get g = s.store.get g := by
  unfold Threads.enter LiveDataStore.takePendingSamples
  split
  · rfl
  · rename_i taken
    cases taken
    rfl

variable {outer : List Round} {thread ticket : ℕ}

/-- The steps inside of a round, its updates apart. -/
theorem Ordered.proceed (ordered : Ordered facade s) {phase : Phase}
    (stack : s.rounds thread = ⟨ticket, phase⟩ :: outer) (done : s.proceed facade thread ticket outer phase = some s') :
    Ordered facade s' ∧ ∀ g data, s'.store.get g = some data → s.store.get g = some data := by
  cases phase with
  | taken samples =>
    cases done
    exact ⟨ordered.next stack fun g τ holds => by simpa [Holds] using holds, fun _ _ => id⟩
  | grouping now grouped rest snapping =>
    cases rest with
    | nil =>
      cases done
      refine ⟨ordered.next stack ?_, fun _ _ => id⟩
      rintro g τ ⟨data, member, rfl⟩
      obtain ⟨sample, inside, snapped, equal⟩ := entry_time member
      exact ⟨sample, by simpa using inside, snapped, equal⟩
    | cons sample rest =>
      rw [Threads.proceed] at done
      split_ifs at done
      · cases done
        exact ⟨ordered.next stack fun g τ holds => by simpa [Holds] using holds, fun _ _ => id⟩
      · cases done
        refine ⟨(ordered.next stack fun g τ holds => by simpa [Holds] using holds).enter thread, ?_⟩
        intro g data found
        rw [enter_get] at found
        exact found
  | updating todo =>
    cases todo with
    | nil =>
      cases done
      exact ⟨ordered.next stack fun g τ holds => holds.elim, fun _ _ => id⟩
    | cons entry todo => cases done
  | purging now =>
    cases done
    have kept : ∀ g data, (s.store.removeStaleSegments now s.store.staleSeconds).get g = some data → s.store.get g = some data :=
      fun g data found => ((LiveDataStore.get_removeStaleSegments_eq_some ..).1 found).1
    refine ⟨ordered.shrink ?_ kept (fun _ => id) rfl rfl rfl, kept⟩
    intro round running
    rcases running_setRounds running with member | old
    · exact ⟨round, ⟨thread, by simp [stack, member]⟩, rfl, fun _ _ => id⟩
    · exact ⟨round, old, rfl, fun _ _ => id⟩

/-- A sample that is no older than its predecessors on the geometry. -/
theorem Ordered.arrive (ordered : Ordered facade s) {sample : TrafficSample}
    (later : facade.snap sample ≠ none → ∀ earlier ∈ s.arrived, facade.snap earlier = facade.snap sample →
      earlier.timestampMs ≤ sample.timestampMs) :
    Ordered facade { s with store := s.store.addSample sample, arrived := sample :: s.arrived } := by
  have newest : ∀ g τ, (∃ earlier ∈ s.arrived, facade.snap earlier = some g ∧ τ ≤ time earlier) →
      facade.snap sample = some g → τ ≤ time sample := by
    rintro g τ ⟨earlier, member, snapped, le⟩ here
    have := later (here ▸ Option.some_ne_none g) earlier member (snapped.trans here.symm)
    unfold time at *
    omega
  have split : ∀ other, other ∈ (s.store.addSample sample).pendingSamples → other ∈ s.store.pendingSamples ∨ other = sample := by
    intro other member
    simpa [LiveDataStore.addSample] using member
  refine ⟨ordered.ticket, ordered.writer, ordered.running, ?_, ordered.stored, ?_, ?_, ?_, ?_⟩
  · intro round running g τ holds other member snapped
    rcases split other member with old | rfl
    · exact ordered.pending round running g τ holds other old snapped
    · exact newest g τ (ordered.arrivedHeld round running g τ holds) snapped
  · intro g data found other member snapped
    rcases split other member with old | rfl
    · exact ordered.storedPending g data found other old snapped
    · exact newest g _ (ordered.arrivedStored g data found) snapped
  · intro round running g τ holds
    obtain ⟨earlier, member, rest⟩ := ordered.arrivedHeld round running g τ holds
    exact ⟨earlier, mem_cons_of_mem _ member, rest⟩
  · intro g data found
    obtain ⟨earlier, member, rest⟩ := ordered.arrivedStored g data found
    exact ⟨earlier, mem_cons_of_mem _ member, rest⟩
  · intro other member
    rcases split other member with old | rfl
    · exact mem_cons_of_mem _ (ordered.arrivedPending other old)
    · exact mem_cons_self

/-- A round stores one of its entries. -/
theorem Ordered.write (ordered : Ordered facade s)
    {todo todo' : List (ℕ × TrafficEdgeData)} (stack : s.rounds thread = ⟨ticket, .updating todo⟩ :: outer)
    {g : ℕ} (entry : (g, data) ∈ todo) (rest : ∀ entry ∈ todo', entry ∈ todo) :
    Ordered facade ({ s with
      store := s.store.update g data
      writer := update s.writer g ticket }.setRounds thread (⟨ticket, .updating todo'⟩ :: outer)) := by
  have self : s.Running ⟨ticket, .updating todo⟩ := ⟨thread, by simp [stack]⟩
  have holds : Holds facade g data.timestampMs (.updating todo) := ⟨data, entry, rfl⟩
  have within : ∀ g τ, Holds facade g τ (.updating todo') → Holds facade g τ (.updating todo) := by
    rintro g τ ⟨data, member, rfl⟩
    exact ⟨data, rest _ member, rfl⟩
  -- first the round goes on, then the segment and its writer change
  have before := ordered.next stack within
  have found_cases : ∀ g' data', (s.store.update g data).get g' = some data' →
      (g' = g ∧ data' = data) ∨ (g' ≠ g ∧ s.store.get g' = some data') := by
    intro g' data' found
    rw [LiveDataStore.get_update] at found
    split_ifs at found with same
    · exact .inl ⟨same.symm, (Option.some.inj found).symm⟩
    · exact .inr ⟨Ne.symm same, found⟩
  refine ⟨before.ticket, ?_, before.running, before.pending, ?_, ?_, before.arrivedHeld, ?_, before.arrivedPending⟩
  · intro g'
    change update s.writer g ticket g' ≤ s.tickets
    by_cases same : g' = g
    · subst same
      rw [update_self]
      exact ordered.ticket _ self
    · rw [update_of_ne same]
      exact ordered.writer g'
  · intro g' data' found round running lt τ held
    change update s.writer g ticket g' < round.ticket at lt
    rcases found_cases g' data' found with ⟨rfl, rfl⟩ | ⟨other, found⟩
    · rw [update_self] at lt
      obtain ⟨old, running, same, holds'⟩ := running_next stack within running
      exact ordered.running _ old self running (lt.trans_eq same.symm) g' _ τ holds (holds' g' τ held)
    · rw [update_of_ne other] at lt
      exact before.stored g' data' found round running lt τ held
  · intro g' data' found sample member snapped
    rcases found_cases g' data' found with ⟨rfl, rfl⟩ | ⟨-, found⟩
    · exact ordered.pending _ self g' _ holds sample member snapped
    · exact before.storedPending g' data' found sample member snapped
  · intro g' data' found
    rcases found_cases g' data' found with ⟨rfl, rfl⟩ | ⟨-, found⟩
    · exact ordered.arrivedHeld _ self g' _ holds
    · exact before.arrivedStored g' data' found

/-- What a possible write does. -/
theorem write_cases {geometryId : ℕ} (done : s.step facade (.write thread geometryId) = some s') :
    ∃ ticket todo outer data, s.rounds thread = ⟨ticket, .updating todo⟩ :: outer ∧ (geometryId, data) ∈ todo ∧
      s' = { s with
        store := s.store.update geometryId data
        writer := update s.writer geometryId ticket }.setRounds thread
          (⟨ticket, .updating (todo.eraseP (·.1 = geometryId))⟩ :: outer) := by
  simp only [step] at done
  split at done
  · rename_i ticket todo outer stack
    cases found : todo.find? (·.1 = geometryId) with
    | none => simp [found] at done
    | some entry =>
      rw [found] at done
      obtain rfl : entry.1 = geometryId := by simpa using find?_some found
      exact ⟨ticket, todo, outer, entry.2, stack, mem_of_find?_eq_some found, (Option.some.inj done).symm⟩
  · cases done

/-- **One step in order**: the invariant is kept, and no stored timestamp goes back. -/
theorem Ordered.step (ordered : Ordered facade s) {action : ThreadAction} (inOrder : s.InOrder facade action)
    (done : s.step facade action = some s') :
    Ordered facade s' ∧ ∀ g data data', s.store.get g = some data → s'.store.get g = some data' →
      data.timestampMs ≤ data'.timestampMs := by
  have same : (∀ g data, s'.store.get g = some data → s.store.get g = some data) →
      ∀ g data data', s.store.get g = some data → s'.store.get g = some data' → data.timestampMs ≤ data'.timestampMs := by
    intro kept g data data' found found'
    rw [kept g data' found'] at found
    rw [Option.some.inj found]
  cases action with
  | arrive sample =>
    cases done
    exact ⟨ordered.arrive inOrder, same fun _ _ => id⟩
  | advance milliseconds =>
    cases done
    exact ⟨ordered.shrink (fun round running => ⟨round, running, rfl, fun _ _ => id⟩) (fun _ _ => id) (fun _ => id) rfl rfl rfl,
      same fun _ _ => id⟩
  | clear =>
    cases done
    have none : ∀ g data, s.store.clear.get g = some data → s.store.get g = some data := by
      intro g data found
      simp at found
    exact ⟨ordered.shrink (fun round running => ⟨round, running, rfl, fun _ _ => id⟩) none (fun _ member => by cases member)
      rfl rfl rfl, same none⟩
  | call thread =>
    simp only [Threads.step] at done
    split at done
    · cases done
      exact ⟨ordered.enter thread, same fun g data found => by rwa [enter_get] at found⟩
    · cases done
  | proceed thread =>
    simp only [Threads.step] at done
    split at done
    · cases done
    · rename_i round outer stack
      have := ordered.proceed stack done
      exact ⟨this.1, same this.2⟩
  | write thread geometryId =>
    obtain ⟨ticket, todo, outer, data, stack, entry, rfl⟩ := write_cases done
    refine ⟨ordered.write stack entry fun _ => mem_of_mem_eraseP, ?_⟩
    intro g old new found found'
    change (s.store.update geometryId data).get g = some new at found'
    rw [LiveDataStore.get_update] at found'
    split_ifs at found' with here
    · subst here
      cases found'
      have before := inOrder (by simp [found]) ⟨ticket, .updating todo⟩ (by simp [stack])
      exact ordered.stored _ _ found _ ⟨thread, by simp [stack]⟩ before _ ⟨_, entry, rfl⟩
    · rw [found] at found'
      rw [Option.some.inj found']

/-- Nothing is stored, held or pending at the start. -/
theorem Ordered.initial (facade : LiveFacade) (clock staleSeconds : ℤ) : Ordered facade (initial clock staleSeconds) := by
  have none : ∀ g data, (Threads.initial clock staleSeconds).store.get g ≠ some data := by
    intro g data found
    cases found
  have idle : ∀ round, ¬ (Threads.initial clock staleSeconds).Running round := by
    rintro round ⟨thread, member⟩
    cases member
  exact ⟨fun r h => absurd h (idle r), fun _ => le_rfl, fun r _ h => absurd h (idle r), fun r h => absurd h (idle r),
    fun g d h => absurd h (none g d), fun g d h => absurd h (none g d), fun r h => absurd h (idle r),
    fun g d h => absurd h (none g d), fun _ member => by cases member⟩

theorem OrderedRun.of_runInOrder {start : Threads} {actions : List ThreadAction} (run : OrderedRun facade start s)
    (done : runInOrder facade s actions = some s') : OrderedRun facade start s' := by
  induction actions generalizing s with
  | nil =>
    cases done
    exact run
  | cons action rest ih =>
    rw [runInOrder] at done
    split_ifs at done with inOrder
    obtain ⟨next, first, later⟩ := Option.bind_eq_some_iff.1 done
    exact ih (run.tail inOrder first) later

/-- The run lemma. -/
theorem OrderedRun.ordered {clock staleSeconds : ℤ} (run : OrderedRun facade (initial clock staleSeconds) s) :
    Ordered facade s := by
  induction run with
  | refl => exact .initial facade clock staleSeconds
  | tail _ inOrder done ih => exact (ih.step inOrder done).1

end Threads

open Threads

/-- **Timestamps never go back** in a run in which the samples of each geometry arrive in the order of their timestamps, and
a geometry with data is written only by rounds that took their samples after the round that wrote it last. -/
theorem timestamps_never_decrease (facade : LiveFacade) (clock staleSeconds : ℤ) {s s' : Threads} {action : ThreadAction}
    (run : OrderedRun facade (initial clock staleSeconds) s) (inOrder : s.InOrder facade action)
    (done : s.step facade action = some s') (g : ℕ) (data data' : TrafficEdgeData) (before : s.store.get g = some data)
    (after : s'.store.get g = some data') : data.timestampMs ≤ data'.timestampMs :=
  (run.ordered.step inOrder done).2 g data data' before after

/-- A round of one thread on `oneRoad`, up to its update: it reads the clock, makes a phantom node, groups and averages. -/
def roundOf (thread : ℕ) : List ThreadAction := [.call thread, .proceed thread, .proceed thread, .proceed thread, .proceed thread]

/-- A sample, a whole round for it, another sample, and a round of another thread up to its update. -/
def twoRounds (first second : ℤ) : List ThreadAction :=
  [.arrive (sampleOf 1 20 first)] ++ roundOf 0 ++ [.write 0 7, .proceed 0, .proceed 0] ++
    [.arrive (sampleOf 2 40 second)] ++ roundOf 1

theorem twoRounds_inOrder : (runInOrder oneRoad (initial 2000 120) (twoRounds 1000 2000)).isSome := by decide

/-- The samples come in order, and the second round is about to write after the first. -/
def aboutToWrite : Threads := (runInOrder oneRoad (initial 2000 120) (twoRounds 1000 2000)).get twoRounds_inOrder

theorem aboutToWrite_step : (aboutToWrite.step oneRoad (.write 1 7)).isSome := by decide

theorem timestamps_never_decrease_twoRounds :
    ∃ data data', aboutToWrite.store.get 7 = some data ∧
      ((aboutToWrite.step oneRoad (.write 1 7)).get aboutToWrite_step).store.get 7 = some data' ∧
      data.timestampMs ≤ data'.timestampMs := by
  have before := Option.some_get (show (aboutToWrite.store.get 7).isSome by decide +kernel)
  have after := Option.some_get
    (show (((aboutToWrite.step oneRoad (.write 1 7)).get aboutToWrite_step).store.get 7).isSome by decide +kernel)
  exact ⟨_, _, before.symm, after.symm, timestamps_never_decrease oneRoad 2000 120
    (OrderedRun.refl.of_runInOrder (Option.some_get twoRounds_inOrder).symm) (by decide +kernel)
    (Option.some_get aboutToWrite_step).symm 7 _ _ before.symm after.symm⟩

/-- An older sample of another user takes the stored timestamp back by a second. -/
theorem timestamp_decreases :
    ((initial 2000 120).run oneRoad (twoRounds 2000 1000)).map (fun s => (s.store.get 7).map (·.timestampMs)) = some (some 2000) ∧
    ((initial 2000 120).run oneRoad (twoRounds 2000 1000 ++ [.write 1 7])).map (fun s => (s.store.get 7).map (·.timestampMs)) =
      some (some 1000) := by
  decide +kernel

end Osrm.Live
