import Osrm.Engine.TrafficProtobuf
import Mathlib.Algebra.BigOperators.Group.List.Basic
import Mathlib.Algebra.Order.Ring.Rat
import Mathlib.Order.WithBot

/-!
# Packets that reach the store

`processPacket` of `TrafficUpdater` is the consumer of `parseTrafficBatch`: it tests a packet
and adds it to the store as a sample. A comparison with a value that is not a number is
false, and only old stamps are tested. So every added sample meets the documented validation
exactly if the packets that pass the tests hold numbers and no stamps far ahead of the clock
(`processPacket_valid_iff`).
-/

namespace Osrm

open TrafficProto

/-- A float as an extended rational; `none` is not a number. -/
abbrev FloatValue := Option (WithBot (WithTop ℚ))

namespace FloatValue

/-- The value of the bits of a float with `e` bits of exponent and `m` of fraction. -/
def ofBits (e m bits : ℕ) : FloatValue :=
  let negative := 2 ^ (e + m) ≤ bits
  let exponent := bits / 2 ^ m % 2 ^ e
  let fraction := bits % 2 ^ m
  if exponent = 2 ^ e - 1 then if fraction ≠ 0 then none else if negative then some ⊥ else some ⊤
  else
    let significand := if exponent = 0 then 2 * fraction else 2 ^ m + fraction
    let magnitude : ℚ := significand * 2 ^ exponent / 2 ^ (2 ^ (e - 1) - 1 + m)
    some ((if negative then -magnitude else magnitude : ℚ) : WithTop ℚ)

def const (q : ℚ) : FloatValue := some (q : WithTop ℚ)

def less : FloatValue → FloatValue → Bool
  | some a, some b => a < b
  | _, _ => false

def atMost : FloatValue → FloatValue → Bool
  | some a, some b => a ≤ b
  | _, _ => false

variable (low x high : FloatValue)

def outside : Bool := less x low || less high x

def Within : Prop := atMost low x ∧ atMost x high

variable {low x high}

/-- The test lets a value outside of the range through only if something is not a number. -/
theorem within_iff (passes : outside low x high = false) : Within low x high ↔ low.isSome ∧ x.isSome ∧ high.isSome := by
  rw [outside] at passes
  rw [Within]
  cases low <;> cases x <;> cases high <;> simp_all [less, atMost]

/-- A number that the test lets through is inside the range. -/
theorem limits_of_outside (passes : outside low x high = false) :
    ∀ v ∈ x, (∀ least ∈ low, least ≤ v) ∧ ∀ most ∈ high, v ≤ most := by
  rintro v rfl
  rw [outside, Bool.or_eq_false_iff] at passes
  constructor
  · rintro least rfl
    exact not_lt.1 (of_decide_eq_false passes.1)
  · rintro most rfl
    exact not_lt.1 (of_decide_eq_false passes.2)

end FloatValue

/-- `TrafficUpdater`, as far as `processPacket` reads it -/
structure TrafficUpdater where
  staleSeconds : ℤ := 120
  minSpeedKmh : FloatValue := .const 1

namespace TrafficUpdater

open FloatValue

/-- `TrafficSample`, with every value that a float can have -/
structure Sample where
  userId : BitVec 64
  latitude : FloatValue
  longitude : FloatValue
  speedKmh : FloatValue
  bearingDeg : FloatValue
  timestampMs : ℤ
  deriving DecidableEq

def values (pkt : TrafficPacketMsg) : Sample where
  userId := pkt.userId
  latitude := ofBits 11 52 pkt.latitude.toNat
  longitude := ofBits 11 52 pkt.longitude.toNat
  speedKmh := ofBits 8 23 pkt.speedKmh.toNat
  bearingDeg := ofBits 8 23 pkt.bearingDeg.toNat
  timestampMs := pkt.timestampMs.toInt

variable (updater : TrafficUpdater) (now : ℤ) (sample : Sample)

/-- The tests of `processPacket`. -/
def rejects : Bool :=
  outside updater.minSpeedKmh sample.speedKmh (const 300) || outside (const (-90)) sample.latitude (const 90) ||
    outside (const (-180)) sample.longitude (const 180) ||
    (0 < sample.timestampMs && updater.staleSeconds * 1000 < now - sample.timestampMs)

/-- A packet without a stamp gets the time of its arrival. -/
def stamped : Sample := { sample with timestampMs := if 0 < sample.timestampMs then sample.timestampMs else now }

/-- `processPacket`, on the samples that were added, each with the time at which it was. -/
def processPacket (store : List (ℤ × Sample)) (arrival : ℤ × TrafficPacketMsg) : List (ℤ × Sample) :=
  let sample := values arrival.2
  if updater.rejects arrival.1 sample then store else store ++ [(arrival.1, stamped arrival.1 sample)]

/-- The documented validation, with a stamp to which the aggregator can add the stale time. -/
structure Valid : Prop where
  speed : Within updater.minSpeedKmh sample.speedKmh (const 300)
  latitude : Within (const (-90)) sample.latitude (const 90)
  longitude : Within (const (-180)) sample.longitude (const 180)
  stamp : (now - sample.timestampMs).natAbs ≤ updater.staleSeconds * 1000
  sum : sample.timestampMs + updater.staleSeconds * 1000 < 2 ^ 63

/-- The numbers of a sample are inside the limits, and it is not older than the stale time. -/
structure Limits : Prop where
  speed : ∀ v ∈ sample.speedKmh, (∀ least ∈ updater.minSpeedKmh, least ≤ v) ∧ v ≤ ((300 : ℚ) : WithTop ℚ)
  latitude : ∀ v ∈ sample.latitude, ((-90 : ℚ) : WithTop ℚ) ≤ v ∧ v ≤ ((90 : ℚ) : WithTop ℚ)
  longitude : ∀ v ∈ sample.longitude, ((-180 : ℚ) : WithTop ℚ) ≤ v ∧ v ≤ ((180 : ℚ) : WithTop ℚ)
  stamp : now - sample.timestampMs ≤ updater.staleSeconds * 1000

/-- What the tests do not see: values that are not numbers, and stamps ahead of the clock. -/
structure Plain : Prop where
  numbers : updater.minSpeedKmh.isSome ∧ sample.speedKmh.isSome ∧ sample.latitude.isSome ∧ sample.longitude.isSome
  ahead : sample.timestampMs - now ≤ updater.staleSeconds * 1000
  sum : sample.timestampMs + updater.staleSeconds * 1000 < 2 ^ 63

variable {updater now sample}

/-- A packet that passes the tests becomes a valid sample if nothing is hidden from them. -/
theorem valid_stamped_iff (passes : updater.rejects now sample = false) :
    Valid updater now (stamped now sample) ↔ Plain updater now (stamped now sample) := by
  simp only [rejects, Bool.or_eq_false_iff, Bool.and_eq_false_iff, decide_eq_false_iff_not] at passes
  obtain ⟨⟨⟨speed, latitude⟩, longitude⟩, old⟩ := passes
  have recent : now - (stamped now sample).timestampMs ≤ updater.staleSeconds * 1000 ∨ (stamped now sample).timestampMs = now := by
    simp only [stamped]
    split <;> omega
  constructor
  · intro valid
    obtain ⟨least, number, -⟩ := (within_iff speed).1 valid.speed
    have stamp := valid.stamp
    exact ⟨⟨least, number, ((within_iff latitude).1 valid.latitude).2.1, ((within_iff longitude).1 valid.longitude).2.1⟩,
      by omega, valid.sum⟩
  · rintro ⟨⟨least, numbers⟩, ahead, sum⟩
    exact ⟨(within_iff speed).2 ⟨least, numbers.1, rfl⟩, (within_iff latitude).2 ⟨rfl, numbers.2.1, rfl⟩,
      (within_iff longitude).2 ⟨rfl, numbers.2.2, rfl⟩, by omega, sum⟩

theorem mem_foldl_processPacket {entry : ℤ × Sample} (stream : List (ℤ × TrafficPacketMsg)) :
    ∀ store, entry ∈ stream.foldl updater.processPacket store ↔ entry ∈ store ∨ ∃ arrival ∈ stream,
      updater.rejects arrival.1 (values arrival.2) = false ∧ entry = (arrival.1, stamped arrival.1 (values arrival.2)) := by
  induction stream with
  | nil => simp
  | cons arrival stream ih =>
    intro store
    rw [List.foldl_cons, ih, processPacket]
    cases passes : updater.rejects arrival.1 (values arrival.2) with
    | true => simp [passes]
    | false => simp [passes, or_assoc]

/-- **Only valid samples reach the store**, if and only if no packet that passes the tests holds a value that is not a
number, or a stamp ahead of the clock by more than the stale time. -/
theorem processPacket_valid_iff (updater : TrafficUpdater) (stream : List (ℤ × TrafficPacketMsg)) :
    (∀ entry ∈ stream.foldl updater.processPacket [], Valid updater entry.1 entry.2) ↔
      ∀ arrival ∈ stream, updater.rejects arrival.1 (values arrival.2) = false →
        Plain updater arrival.1 (stamped arrival.1 (values arrival.2)) := by
  simp only [mem_foldl_processPacket, List.not_mem_nil, false_or]
  constructor
  · intro valid arrival here passes
    exact (valid_stamped_iff passes).1 (valid _ ⟨arrival, here, passes, rfl⟩)
  · rintro plain _ ⟨arrival, here, passes, rfl⟩
    exact (valid_stamped_iff passes).2 (plain arrival here passes)

/-- A speed that is not a number passes, and so does the last of all stamps, at `50` km/h. -/
theorem processPacket_admits :
    (∃ entry ∈ [(0, { speedKmh := 0x7fc00000#32 })].foldl (processPacket {}) [], ¬ Valid {} entry.1 entry.2) ∧
      ∃ entry ∈ [(0, { speedKmh := 0x42480000#32, timestampMs := 0x7fffffffffffffff#64 })].foldl (processPacket {}) [],
        ¬ Valid {} entry.1 entry.2 := by
  simp only [mem_foldl_processPacket]
  refine ⟨⟨_, .inr ⟨_, List.mem_singleton_self _, by decide +kernel, rfl⟩, ?_⟩,
    ⟨_, .inr ⟨_, List.mem_singleton_self _, by decide +kernel, rfl⟩, ?_⟩⟩
  · exact fun valid => absurd valid.speed.1 (by decide)
  · exact fun valid => absurd valid.sum (by decide)

/-! ### Datagrams with an error -/

section Datagram

open Protozero PbfReader

/-- `receiveLoop` on one datagram; `clock` is the time at each call of the consumer. -/
def receive (updater : TrafficUpdater) (clock : ℕ → ℤ) (store : List (ℤ × Sample)) (data : List Byte) : List (ℤ × Sample) :=
  ((parseTrafficBatch data).1.zipIdx.map fun call => (clock call.2, call.1)).foldl updater.processPacket store

/-- A field of a batch is read without an error; `located` says whether it is a packet with coordinates. -/
def Passes (field : PbfReader) (located : Bool) (rest : PbfReader) : Prop :=
  if field.tag ≠ packetsTag then located = false ∧ field.skip = .ok rest
  else ∃ inner packet, field.getMessage = .ok (inner, rest) ∧ parseTrafficPacket inner = .ok (packet, located)

/-- A packet with coordinates stands in the message, and there is no error before its end. -/
inductive Carries : PbfReader → Prop
  | field {reader field rest : PbfReader} {located : Bool} : reader.next = .ok (some field) → Passes field located rest →
      (located = false → Carries rest) → Carries reader

theorem carries_iff {reader field : PbfReader} (found : reader.next = .ok (some field)) :
    Carries reader ↔ ∃ located rest, Passes field located rest ∧ (located = false → Carries rest) := by
  constructor
  · rintro ⟨found', passes, later⟩
    cases found.symm.trans found'
    exact ⟨_, _, passes, later⟩
  · rintro ⟨located, rest, passes, later⟩
    exact .field found passes later

/-- Up to an error the consumer is called exactly if a packet with coordinates stands before it. -/
theorem called_iff {e : Exception} {st' : List TrafficPacketMsg × ℕ} (fuel : ℕ) : ∀ (reader : PbfReader) (st : List TrafficPacketMsg × ℕ),
    forFields parsePacket fuel reader st = (st', .error e) →
      st.1.length ≤ st'.1.length ∧ (st.1.length < st'.1.length ↔ Carries reader) := by
  induction fuel with
  | zero => exact fun _ _ run => by cases run
  | succ fuel ih =>
    intro reader st run
    rw [forFields] at run
    cases found : reader.next with
    | error e =>
      rw [found] at run
      cases run
      refine ⟨le_rfl, iff_of_false (lt_irrefl _) ?_⟩
      rintro ⟨found', -⟩
      cases found.symm.trans found'
    | ok result =>
      cases result with
      | none =>
        rw [found] at run
        cases run
      | some field =>
        rw [found] at run
        rw [carries_iff found]
        simp only [parsePacket] at run
        simp only [Passes]
        split_ifs at run ⊢ with other
        · cases skipped : field.skip with
          | error _ =>
            rw [skipped] at run
            cases run
            simp
          | ok rest =>
            rw [skipped] at run
            simpa using ih rest st run
        · cases message : field.getMessage with
          | error _ =>
            rw [message] at run
            cases run
            simp
          | ok readers =>
            obtain ⟨inner, rest⟩ := readers
            cases parsed : parseTrafficPacket inner with
            | error _ =>
              simp only [message, parsed] at run
              cases run
              simp [parsed]
            | ok packet =>
              obtain ⟨packet, _ | _⟩ := packet
              · simp only [message, parsed] at run
                simpa [parsed] using ih rest st run
              · simp only [message, parsed, if_true] at run
                have later := (ih rest _ run).1
                rw [List.length_append, List.length_singleton] at later
                simp [parsed]
                omega

/-- **A datagram with an error is dropped as a whole** exactly if no packet with coordinates stands before the error. -/
theorem receive_atomic_iff {data : List Byte} {e : Exception}
    (malformed : (forFields parsePacket data.length (ofData data) ([], 0)).2 = .error e) :
    ((parseTrafficBatch data).1 = [] ∧ ∀ updater clock store, receive updater clock store data = store) ↔ ¬ Carries (ofData data) := by
  have called := (called_iff data.length (ofData data) ([], 0) (Prod.ext rfl malformed)).2
  have consumed : (parseTrafficBatch data).1 = (forFields parsePacket data.length (ofData data) ([], 0)).1.1 := by
    rw [parseTrafficBatch]
    split <;> next run => rw [run]
  rw [← called, ← consumed, List.length_nil, not_lt, Nat.le_zero, List.length_eq_zero_iff]
  refine ⟨And.left, fun none => ⟨none, fun updater clock store => ?_⟩⟩
  rw [receive, none]
  rfl

theorem receive_atomic_truncated : ¬ Carries (ofData [0x0a#8]) :=
  (receive_atomic_iff (e := .endOfBuffer) (by decide)).1 ⟨by decide, fun _ _ _ => rfl⟩

/-- A packet at `50` km/h reaches the store although its datagram ends in the middle of the next field. -/
theorem receive_truncated :
    let data := encodeTrafficBatch [{ speedKmh := 0x42480000#32 }] ++ [0x0a#8]
    (forFields parsePacket data.length (ofData data) ([], 0)).2 = .error .endOfBuffer ∧
      (parseTrafficBatch data).1 = [{ speedKmh := 0x42480000#32 }] ∧ receive {} (fun _ => 0) [] data ≠ [] := by
  decide +kernel

end Datagram

/-! ### The loop of the receiver -/

section Loop

open List Protozero PbfReader

/-- The samples that were added, and the counters of `TrafficUpdater`. -/
structure Receiver where
  store : List (ℤ × Sample) := []
  packetsReceived : ℕ := 0
  packetsDropped : ℕ := 0
  batchesReceived : ℕ := 0

/-- What an iteration of `receiveLoop` gets: the time at each call of the consumer, and a datagram unless `recvfrom` fails. -/
abbrev Reception (data : Type) := (ℕ → ℤ) × Option data

def receiveStep (updater : TrafficUpdater) (r : Receiver) : Reception (List Byte) → Receiver
  | (_, none) => r
  | (clock, some datagram) =>
    let buffer := datagram.take 65536
    if buffer = [] then { r with packetsDropped := r.packetsDropped + 1 }
    else
      let parsed := (parseTrafficBatch buffer).2
      let r := { r with store := updater.receive clock r.store buffer }
      if parsed = 0 then { r with packetsDropped := r.packetsDropped + 1 }
      else { r with batchesReceived := r.batchesReceived + 1, packetsReceived := r.packetsReceived + parsed }

def receiveLoop (updater : TrafficUpdater) : Receiver → List (Reception (List Byte)) → Receiver := foldl updater.receiveStep

/-- The packets of a batch with the times at which they are processed. -/
def arrivals (sent : Reception (List TrafficPacketMsg)) : List (ℤ × TrafficPacketMsg) :=
  (sent.2.getD []).zipIdx.map fun call => (sent.1 call.2, call.1)

variable {updater : TrafficUpdater} (r : Receiver)

theorem receiveStep_encode (sent : Reception (List TrafficPacketMsg))
    (fits : ∀ packets ∈ sent.2, (encodeTrafficBatch packets).length ≤ 65536) :
    updater.receiveStep r (sent.1, sent.2.map encodeTrafficBatch) =
      { store := (arrivals sent).foldl updater.processPacket r.store
        packetsReceived := r.packetsReceived + (arrivals sent).length
        packetsDropped := r.packetsDropped + if sent.2 = some [] then 1 else 0
        batchesReceived := r.batchesReceived + if arrivals sent = [] then 0 else 1 } := by
  obtain ⟨clock, _ | packets⟩ := sent
  · rfl
  have enough := length_le_encodeTrafficBatch packets
  have read := forFields_packetBytes ((encodeTrafficBatch packets).length - packets.length) packets
    (ofData (encodeTrafficBatch packets)) [] 0 (encodeTrafficBatch_eq packets)
  rw [Nat.add_sub_cancel' enough] at read
  simp only [Option.map_some, receiveStep, take_of_length_le (fits packets rfl), receive, parseTrafficBatch, read, arrivals]
  cases packets with
  | nil => rfl
  | cons packet packets =>
    have filled : encodeTrafficBatch (packet :: packets) ≠ [] := by
      intro empty
      rw [empty] at enough
      cases enough
    simp [filled]

/-- **From the publisher to the store.** Of encoded batches that fit the buffer, with failures of `recvfrom` in between,
every packet is processed once and in order, and the counters tell how many batches had packets and how many had none. -/
theorem receiveLoop_published (updater : TrafficUpdater) (r : Receiver) (sent : List (Reception (List TrafficPacketMsg)))
    (fits : ∀ batch ∈ sent, ∀ packets ∈ batch.2, (encodeTrafficBatch packets).length ≤ 65536) :
    updater.receiveLoop r (sent.map fun batch => (batch.1, batch.2.map encodeTrafficBatch)) =
      { store := (sent.flatMap arrivals).foldl updater.processPacket r.store
        packetsReceived := r.packetsReceived + (sent.flatMap arrivals).length
        packetsDropped := r.packetsDropped + sent.countP (·.2 = some [])
        batchesReceived := r.batchesReceived + sent.countP (arrivals · ≠ []) } := by
  induction sent generalizing r with
  | nil => rfl
  | cons batch sent ih =>
    obtain ⟨here, later⟩ := forall_mem_cons.1 fits
    rw [map_cons, receiveLoop, foldl_cons, receiveStep_encode r batch here]
    refine (ih _ later).trans ?_
    simp [countP_cons, Nat.add_assoc, Nat.add_comm]

theorem receiveLoop_published_batches : (receiveLoop {} {} ([(fun _ => 0, some [{}, {}]), (fun _ => 0, none), (fun _ => 0, some [])].map
    fun batch => (batch.1, batch.2.map encodeTrafficBatch))).packetsReceived = 2 := by
  rw [receiveLoop_published _ _ _ (by decide +kernel)]
  rfl

/-- The store changes by calls of `processPacket` only. -/
theorem receiveLoop_store (received : List (Reception (List Byte))) :
    ∃ calls : List _, (updater.receiveLoop r received).store = calls.foldl updater.processPacket r.store := by
  induction received generalizing r with
  | nil => exact ⟨[], rfl⟩
  | cons event received ih =>
    obtain ⟨first, step⟩ : ∃ calls : List _, (updater.receiveStep r event).store = calls.foldl updater.processPacket r.store := by
      obtain ⟨clock, _ | datagram⟩ := event
      · exact ⟨[], rfl⟩
      · simp only [receiveStep]
        split_ifs
        · exact ⟨[], rfl⟩
        · exact ⟨_, rfl⟩
        · exact ⟨_, rfl⟩
    obtain ⟨later, run⟩ := ih (updater.receiveStep r event)
    rw [step, ← foldl_append] at run
    exact ⟨_, run⟩

/-- **What can reach the store.** Whatever datagrams arrive, whole or cut, the numbers of every sample in the store are
inside the limits, and it was not too old when it was added. -/
theorem receiveLoop_limits (updater : TrafficUpdater) (ages : 0 ≤ updater.staleSeconds) (received : List (Reception (List Byte))) :
    ∀ entry ∈ (updater.receiveLoop {} received).store, Limits updater entry.1 entry.2 := by
  intro entry mem
  obtain ⟨calls, run⟩ := receiveLoop_store {} received
  rw [run, mem_foldl_processPacket] at mem
  obtain ⟨⟨now, packet⟩, -, passes, rfl⟩ := mem.resolve_left not_mem_nil
  simp only [rejects, Bool.or_eq_false_iff, Bool.and_eq_false_iff, decide_eq_false_iff_not] at passes
  obtain ⟨⟨⟨speed, latitude⟩, longitude⟩, old⟩ := passes
  have speed := limits_of_outside speed
  have latitude := limits_of_outside latitude
  have longitude := limits_of_outside longitude
  refine ⟨fun v hv => ⟨(speed v hv).1, (speed v hv).2 _ rfl⟩, fun v hv => ⟨(latitude v hv).1 _ rfl, (latitude v hv).2 _ rfl⟩,
    fun v hv => ⟨(longitude v hv).1 _ rfl, (longitude v hv).2 _ rfl⟩, ?_⟩
  simp only [stamped]
  split <;> omega

/-- Of a packet at `50` km/h in a datagram that is cut, and one at `301` km/h. -/
theorem receiveLoop_limits_cut :
    let store := (receiveLoop {} {} [(fun _ => 0, some (packetBytes { speedKmh := 0x42480000#32 } ++ [0x0a#8])),
      (fun _ => 0, some (packetBytes { speedKmh := 0x43968000#32 }))]).store
    store ≠ [] ∧ ∀ entry ∈ store, Limits {} entry.1 entry.2 :=
  ⟨by decide +kernel, receiveLoop_limits {} (by decide) _⟩

end Loop

end TrafficUpdater

end Osrm
