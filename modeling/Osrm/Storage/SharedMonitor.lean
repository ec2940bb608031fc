import Mathlib.Data.Nat.Notation
import Mathlib.Logic.Function.Basic

/-!
# The shared monitor

`storage::SharedMonitor` makes a condition variable of a ring of semaphores. A `wait` constructs a
semaphore at the head and sleeps on it, `notify_all` posts to those from the tail to the head. Both
hold the mutex while they work on the ring, so each is one step here; a sleeping wait returns in a
step of its own, whenever the semaphore in its slot has been posted to. The head moves before the
capacity is checked: a wait that fails leaves a slot without a semaphore of its own in the queue.
And the head comes around to slots of waits that have been posted to but have not returned yet:
a wait there destroys the semaphore that another one sleeps on.
-/

namespace Osrm.SharedMonitor

open Function List

def bufferSize : ℕ := 4096 * 4

/-- A semaphore, with the number of the wait that constructed it. -/
structure Semaphore where
  wait : ℕ
  count : ℕ
  deriving DecidableEq, Repr

def Semaphore.post (semaphore : Semaphore) : Semaphore := { semaphore with count := semaphore.count + 1 }

/-- `InternalData`. A slot that is not valid has no semaphore. -/
structure InternalData where
  head : ℕ
  tail : ℕ
  buffer : ℕ → Option Semaphore

namespace InternalData

variable (ring : InternalData)

def size : ℕ := if ring.head ≥ ring.tail then ring.head - ring.tail else bufferSize + ring.head - ring.tail

/-- `enqueue_semaphore` in a wait, with `false` where it throws. A semaphore that is in the slot is destroyed. -/
def enqueueSemaphore (wait : ℕ) : Bool × InternalData :=
  let moved := { ring with head := (ring.head + 1) % bufferSize }
  if moved.size ≥ bufferSize / 2 then (false, moved)
  else (true, { moved with buffer := update ring.buffer ring.head (some ⟨wait, 0⟩) })

/-- The loop of `notify_all`, with what it posts to. -/
def post : ℕ → InternalData → List (Option Semaphore) × InternalData
  | 0, ring => ([], ring)
  | fuel + 1, ring =>
    if ring.tail = ring.head then ([], ring)
    else
      let semaphore := ring.buffer ring.tail
      let (posts, ring') := post fuel
        { ring with tail := (ring.tail + 1) % bufferSize, buffer := update ring.buffer ring.tail (semaphore.map Semaphore.post) }
      (semaphore :: posts, ring')

end InternalData

/-- The ring, the number of waits so far, and those that sleep, with the slots that they sleep on. -/
structure Monitor where
  ring : InternalData
  waits : ℕ
  sleepers : List (ℕ × ℕ)

namespace Monitor

variable (m : Monitor)

/-- The constructor of `InternalData` invalidates all slots. -/
def new : Monitor := ⟨⟨0, 0, fun _ => none⟩, 0, []⟩

/-- `wait` up to its sleep, with `false` where it throws. -/
def wait : Bool × Monitor :=
  let (enqueued, ring) := m.ring.enqueueSemaphore m.waits
  (enqueued, ⟨ring, m.waits + 1, if enqueued then m.sleepers ++ [(m.waits, m.ring.head)] else m.sleepers⟩)

/-- `notify_all`; the tail meets the head before it has gone around the ring. -/
def notifyAll : List (Option Semaphore) × Monitor :=
  let (posts, ring) := m.ring.post bufferSize
  (posts, { m with ring := ring })

/-- A sleeping wait returns and takes one post off the semaphore in its slot. -/
def wake (sleeper : ℕ × ℕ) : Option Monitor :=
  if sleeper ∈ m.sleepers then
    (m.ring.buffer sleeper.2).bind fun semaphore =>
      if semaphore.count = 0 then none
      else some { m with
        ring := { m.ring with buffer := update m.ring.buffer sleeper.2 (some { semaphore with count := semaphore.count - 1 }) }
        sleepers := m.sleepers.filter (· ≠ sleeper) }
  else none

/-- With one more wait less than half of the slots are in use, and no wait sleeps on the slot at the head. -/
def Admits : Prop := m.ring.size + 1 < bufferSize / 2 ∧ ∀ s ∈ m.sleepers, s.2 ≠ m.ring.head

/-- The sleeping wait has not been posted to. -/
def unposted (s : ℕ × ℕ) : Bool := m.ring.buffer s.2 = some ⟨s.1, 0⟩

end Monitor

/-- The runs in which the monitor admits each wait. -/
inductive Run : Monitor → Prop
  | new : Run .new
  | wait {m : Monitor} : Run m → m.Admits → Run m.wait.2
  | notify {m : Monitor} : Run m → Run m.notifyAll.2
  | wake {m m' : Monitor} {sleeper : ℕ × ℕ} : Run m → m.wake sleeper = some m' → Run m'

/-- The waits before `woken` have been posted to, the others are in the slots from the tail to the head. All that sleep have
their semaphore in their slot. -/
structure Queued (m : Monitor) (woken : ℕ) : Prop where
  tail : m.ring.tail = woken % bufferSize
  head : m.ring.head = m.waits % bufferSize
  order : woken ≤ m.waits
  short : m.waits < woken + bufferSize / 2
  slots : ∀ s ∈ m.sleepers, s.2 = s.1 % bufferSize ∧ s.1 < m.waits ∧
    m.ring.buffer s.2 = some ⟨s.1, if s.1 < woken then 1 else 0⟩
  queue : m.sleepers.filter (woken ≤ ·.1) = (range' woken (m.waits - woken)).map fun i => (i, i % bufferSize)

/-- What the loop of `notify_all` does to the slots of `k` waits from `woken` on. -/
structure Posts (ring : InternalData) (woken k : ℕ) (after : List (Option Semaphore) × InternalData) : Prop where
  posts : after.1 = (range' woken k).map fun i => some ⟨i, 0⟩
  head : after.2.head = ring.head
  tail : after.2.tail = ring.head
  posted : ∀ i, woken ≤ i → i < woken + k → after.2.buffer (i % bufferSize) = some ⟨i, 1⟩
  others : ∀ slot, (∀ i, woken ≤ i → i < woken + k → slot ≠ i % bufferSize) → after.2.buffer slot = ring.buffer slot

theorem posts_post : ∀ {k fuel woken : ℕ} {ring : InternalData}, k ≤ fuel → k < bufferSize → ring.tail = woken % bufferSize →
    ring.head = (woken + k) % bufferSize →
    (∀ i, woken ≤ i → i < woken + k → ring.buffer (i % bufferSize) = some ⟨i, 0⟩) → Posts ring woken k (ring.post fuel)
  | 0, fuel, woken, ring, _, _, tail, head, _ => by
    have same : ring.tail = ring.head := tail.trans head.symm
    have none : ring.post fuel = ([], ring) := by
      cases fuel
      · rfl
      · exact if_pos same
    rw [none]
    exact ⟨rfl, rfl, same, fun i low high => absurd high (by omega), fun _ _ => rfl⟩
  | k + 1, fuel + 1, woken, ring, enough, few, tail, head, slots => by
    have apart : ring.tail ≠ ring.head := by
      unfold bufferSize at *
      omega
    have first : ring.buffer ring.tail = some ⟨woken, 0⟩ := tail ▸ slots woken (Nat.le_refl _) (by omega)
    have distinct : ∀ i, woken + 1 ≤ i → i < woken + 1 + k → i % bufferSize ≠ ring.tail := by
      intro i low high
      unfold bufferSize at *
      omega
    rw [InternalData.post, if_neg apart, first]
    obtain ⟨posts, head', tail', posted, others⟩ := @posts_post k fuel (woken + 1)
      { ring with tail := (ring.tail + 1) % bufferSize, buffer := update ring.buffer ring.tail (some ⟨woken, 1⟩) } (by omega) (by omega)
      (by rw [tail, Nat.mod_add_mod]) (by rw [head, Nat.add_right_comm]; rfl)
      fun i low high => (update_of_ne (distinct i low high) _ _).trans (slots i (by omega) (by omega))
    refine ⟨congrArg (some ⟨woken, 0⟩ :: ·) posts, head', tail', fun i low high => ?_, fun slot free => ?_⟩
    · by_cases here : i = woken
      · rw [here]
        refine (others _ fun j low high => ?_).trans (tail ▸ update_self _ _ _)
        exact tail ▸ (distinct j low high).symm
      · exact posted i (by omega) (by omega)
    · refine (others slot fun i low high => free i (by omega) (by omega)).trans (update_of_ne ?_ _ _)
      exact tail ▸ free woken (Nat.le_refl _) (by omega)

section Queued

variable {m : Monitor} {woken : ℕ} (queued : Queued m woken)

include queued

theorem Queued.asleep {i : ℕ} (low : woken ≤ i) (high : i < m.waits) : (i, i % bufferSize) ∈ m.sleepers := by
  have order := queued.order
  have here : (i, i % bufferSize) ∈ m.sleepers.filter (woken ≤ ·.1) := by
    rw [queued.queue]
    exact mem_map.2 ⟨i, mem_range'_1.2 ⟨low, by omega⟩, rfl⟩
  exact (mem_filter.1 here).1

theorem Queued.unposted_iff {s : ℕ × ℕ} (mem : s ∈ m.sleepers) : m.unposted s = true ↔ woken ≤ s.1 := by
  rw [Monitor.unposted, decide_eq_true_iff, (queued.slots s mem).2.2]
  split <;> simp <;> omega

theorem Queued.unposted : m.sleepers.filter m.unposted = m.sleepers.filter (woken ≤ ·.1) :=
  filter_congr fun _ mem => Bool.eq_iff_iff.2 ((queued.unposted_iff mem).trans decide_eq_true_iff.symm)

theorem Queued.posts : Posts m.ring woken (m.waits - woken) (m.ring.post bufferSize) := by
  have order := queued.order
  have short := queued.short
  have few : m.waits - woken < bufferSize := by
    unfold bufferSize at *
    omega
  refine posts_post (by omega) few queued.tail (by rw [queued.head, Nat.add_sub_cancel' order]) fun i low high => ?_
  have slot := (queued.slots _ (queued.asleep low (by omega))).2.2
  rwa [if_neg (by omega)] at slot

theorem Queued.posted {s : ℕ × ℕ} (mem : s ∈ m.sleepers) : m.notifyAll.2.ring.buffer s.2 = some ⟨s.1, 1⟩ := by
  obtain ⟨slot, early, value⟩ := queued.slots s mem
  have order := queued.order
  by_cases late : woken ≤ s.1
  · rw [slot]
    exact queued.posts.posted s.1 late (by omega)
  · refine (queued.posts.others s.2 fun i low high same => ?_).trans (value.trans (by rw [if_pos (by omega)]))
    -- the slot of a wait that is still asleep was not given to another one
    have other := (queued.slots _ (queued.asleep low (by omega))).2.2
    rw [← same, value] at other
    have := congrArg Semaphore.wait (Option.some.inj other)
    dsimp only at this
    omega

theorem Queued.notify : Queued m.notifyAll.2 m.waits := by
  have posts := queued.posts
  refine ⟨posts.tail.trans queued.head, posts.head.trans queued.head, Nat.le_refl _, Nat.lt_add_of_pos_right (by decide), ?_, ?_⟩
  · intro s mem
    obtain ⟨slot, early, -⟩ := queued.slots s mem
    exact ⟨slot, early, (queued.posted mem).trans (by rw [if_pos early])⟩
  · show m.sleepers.filter (m.waits ≤ ·.1) = (range' m.waits (m.waits - m.waits)).map _
    rw [Nat.sub_self]
    refine filter_eq_nil_iff.2 fun s mem => ?_
    have early := (queued.slots s mem).2.1
    simp only [decide_eq_true_eq]
    omega

theorem Queued.wake {m' : Monitor} {sleeper : ℕ × ℕ} (woke : m.wake sleeper = some m') : Queued m' woken := by
  unfold Monitor.wake at woke
  split at woke
  · next mem =>
    obtain ⟨slot, early, value⟩ := queued.slots sleeper mem
    rw [value, Option.bind_some] at woke
    by_cases before : sleeper.1 < woken
    · rw [if_pos before, if_neg Nat.one_ne_zero] at woke
      cases woke
      refine ⟨queued.tail, queued.head, queued.order, queued.short, fun s mem' => ?_, ?_⟩
      · obtain ⟨mem', other⟩ := mem_filter.1 mem'
        obtain ⟨slot', early', value'⟩ := queued.slots s mem'
        refine ⟨slot', early', (update_of_ne (fun same => ?_) _ _).trans value'⟩
        rw [same, value] at value'
        have number : sleeper.1 = s.1 := congrArg Semaphore.wait (Option.some.inj value')
        exact of_decide_eq_true other (Prod.ext number.symm same)
      · rw [← queued.queue, filter_filter]
        refine filter_congr fun s mem' => ?_
        by_cases late : woken ≤ s.1
        · have other : s ≠ sleeper := fun same => absurd before (Nat.not_lt.2 (same ▸ late))
          simp [late, other]
        · simp [late]
    · rw [if_neg before, if_pos rfl] at woke
      cases woke
  · cases woke

/-- The size once the head has moved. -/
theorem Queued.size : ({ m.ring with head := (m.ring.head + 1) % bufferSize } : InternalData).size = m.waits + 1 - woken := by
  obtain ⟨tail, head, order, short, -⟩ := queued
  rw [InternalData.size, head, tail]
  unfold bufferSize at *
  dsimp only
  split <;> omega

theorem Queued.size_before : m.ring.size = m.waits - woken := by
  obtain ⟨tail, head, order, short, -⟩ := queued
  rw [InternalData.size, head, tail]
  unfold bufferSize at *
  split <;> omega

theorem Queued.wait_full (full : ¬m.ring.size + 1 < bufferSize / 2) :
    m.wait = (false, ⟨{ m.ring with head := (m.ring.head + 1) % bufferSize }, m.waits + 1, m.sleepers⟩) := by
  have order := queued.order
  rw [queued.size_before] at full
  have large : m.waits + 1 - woken ≥ bufferSize / 2 := by omega
  simp [Monitor.wait, InternalData.enqueueSemaphore, queued.size, large]

theorem Queued.wait_eq (room : m.ring.size + 1 < bufferSize / 2) :
    m.wait = (true, ⟨⟨(m.ring.head + 1) % bufferSize, m.ring.tail, update m.ring.buffer m.ring.head (some ⟨m.waits, 0⟩)⟩,
      m.waits + 1, m.sleepers ++ [(m.waits, m.ring.head)]⟩) := by
  have order := queued.order
  rw [queued.size_before] at room
  have small : ¬m.waits + 1 - woken ≥ bufferSize / 2 := by omega
  simp [Monitor.wait, InternalData.enqueueSemaphore, queued.size, small]

theorem Queued.wait (admits : m.Admits) : Queued m.wait.2 woken := by
  obtain ⟨room, free⟩ := admits
  have size := queued.size_before
  rw [queued.wait_eq room]
  obtain ⟨tail, head, order, short, slots, queue⟩ := queued
  have longer : woken ≤ m.waits + 1 ∧ m.waits + 1 < woken + bufferSize / 2 := by omega
  refine ⟨tail, by rw [head, Nat.mod_add_mod], longer.1, longer.2, fun s mem => ?_, ?_⟩
  · rcases mem_append.1 mem with mem | mem
    · obtain ⟨slot, early, value⟩ := slots s mem
      exact ⟨slot, Nat.lt_succ_of_lt early, (update_of_ne (free s mem) _ _).trans value⟩
    · rw [mem_singleton.1 mem]
      refine ⟨head, Nat.lt_succ_self _, (update_self _ _ _).trans ?_⟩
      rw [if_neg (by omega)]
  · have more : m.waits + 1 - woken = m.waits - woken + 1 := by omega
    rw [filter_append, queue, more, range'_1_concat, map_append, Nat.add_sub_cancel' order, head]
    simp [order]

end Queued

theorem Run.queued {m : Monitor} (run : Run m) : ∃ woken, Queued m woken := by
  induction run with
  | new => exact ⟨0, rfl, rfl, Nat.le_refl _, by decide, fun s mem => absurd mem not_mem_nil, rfl⟩
  | wait _ admits ih =>
    obtain ⟨woken, queued⟩ := ih
    exact ⟨woken, queued.wait admits⟩
  | notify _ ih =>
    obtain ⟨woken, queued⟩ := ih
    exact ⟨_, queued.notify⟩
  | wake _ woke ih =>
    obtain ⟨woken, queued⟩ := ih
    exact ⟨woken, queued.wake woke⟩

/-- A failed wait leaves the queue as it was, and no wait takes the slot of a sleeping one. -/
def Monitor.WaitsSafely (m : Monitor) : Prop :=
  (m.wait.1 = false → m.wait.2.ring = m.ring) ∧ ∀ s ∈ m.sleepers, m.wait.2.ring.buffer s.2 = m.ring.buffer s.2

theorem Queued.waitsSafely_iff {m : Monitor} {woken : ℕ} (queued : Queued m woken) : m.WaitsSafely ↔ m.Admits := by
  by_cases room : m.ring.size + 1 < bufferSize / 2
  · rw [Monitor.WaitsSafely, Monitor.Admits, queued.wait_eq room, and_iff_right (fun failed => nomatch failed), and_iff_right room]
    refine forall₂_congr fun s mem => ⟨fun kept same => ?_, fun free => update_of_ne free _ _⟩
    obtain ⟨-, early, value⟩ := queued.slots s mem
    have taken : update m.ring.buffer m.ring.head (some ⟨m.waits, 0⟩) s.2 = some ⟨m.waits, 0⟩ := same ▸ update_self _ _ _
    have number : m.waits = s.1 := congrArg Semaphore.wait (Option.some.inj (taken.symm.trans (kept.trans value)))
    exact absurd early (number ▸ Nat.lt_irrefl _)
  · refine iff_of_false (fun safe => ?_) fun admits => room admits.1
    rw [Monitor.WaitsSafely, queued.wait_full room] at safe
    have moved : (m.ring.head + 1) % bufferSize = m.ring.head := congrArg InternalData.head (safe.1 rfl)
    have head := queued.head
    unfold bufferSize at *
    omega

/-- **Every waiter is woken once** in every run in which the monitor admits each wait. `notify_all` posts to the semaphores of
the waits that sleep without a post, once each and in their order, and to nothing else; then each sleeping wait has one post on
its own semaphore. A sleeping wait returns exactly if it has its post. And the next wait is safe if and only if the monitor
admits it. -/
theorem notifyAll_wakes {m : Monitor} (run : Run m) :
    m.notifyAll.1 = (m.sleepers.filter m.unposted).map (fun s => some ⟨s.1, 0⟩) ∧
      (∀ s ∈ m.sleepers, m.notifyAll.2.ring.buffer s.2 = some ⟨s.1, 1⟩) ∧
      (∀ s ∈ m.sleepers, (m.wake s).isSome ↔ m.ring.buffer s.2 = some ⟨s.1, 1⟩) ∧
      (m.WaitsSafely ↔ m.Admits) := by
  obtain ⟨woken, queued⟩ := run.queued
  refine ⟨?_, fun s mem => queued.posted mem, fun s mem => ?_, queued.waitsSafely_iff⟩
  · rw [queued.unposted, queued.queue, map_map]
    exact queued.posts.posts
  · have value := (queued.slots s mem).2.2
    rw [Monitor.wake, if_pos mem, value, Option.bind_some]
    by_cases early : s.1 < woken
    · simp [early]
    · simp [early]

/-- A process waits and is woken. -/
theorem notifyAll_wakes_one : Monitor.new.wait.2.notifyAll.1 = [some ⟨0, 0⟩] ∧
    Monitor.new.wait.2.notifyAll.2.ring.buffer 0 = some ⟨0, 1⟩ := by
  have run : Run Monitor.new.wait.2 := Run.new.wait ⟨by decide, fun s mem => absurd mem not_mem_nil⟩
  obtain ⟨posts, posted, -⟩ := notifyAll_wakes run
  exact ⟨posts, posted (0, 0) (by decide)⟩

/-- Waits without a `notify_all`. -/
theorem exists_run : ∀ k < bufferSize / 2, ∃ m, Run m ∧ Queued m 0 ∧ m.waits = k
  | 0, _ => ⟨_, .new, ⟨rfl, rfl, Nat.le_refl _, by decide, fun s mem => absurd mem not_mem_nil, rfl⟩, rfl⟩
  | k + 1, few => by
    obtain ⟨m, run, queued, rfl⟩ := exists_run k (by omega)
    have admits : m.Admits := by
      refine ⟨by rw [queued.size_before]; exact few, fun s mem same => ?_⟩
      obtain ⟨slot, early, -⟩ := queued.slots s mem
      have head := queued.head
      unfold bufferSize at *
      omega
    refine ⟨_, run.wait admits, queued.wait admits, ?_⟩
    rw [queued.wait_eq admits.1]

/-- After 8191 waits the next one fails, and the head has moved. -/
theorem wait_full : ∃ m, Run m ∧ m.waits = 8191 ∧ m.wait.1 = false ∧ m.wait.2.ring ≠ m.ring := by
  obtain ⟨m, run, queued, waits⟩ := exists_run 8191 (by decide)
  have full : ¬m.ring.size + 1 < bufferSize / 2 := by
    rw [queued.size_before, waits]
    decide
  refine ⟨m, run, waits, ?_⟩
  rw [queued.wait_full full]
  refine ⟨rfl, fun same => ?_⟩
  have moved : (m.ring.head + 1) % bufferSize = m.ring.head := congrArg InternalData.head same
  have head := queued.head
  unfold bufferSize at *
  omega

end Osrm.SharedMonitor
