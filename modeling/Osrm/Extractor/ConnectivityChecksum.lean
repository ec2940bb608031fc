import Mathlib.Data.Nat.Notation
import Mathlib.Logic.Function.Iterate
import Mathlib.Tactic.Choose
import Mathlib.Tactic.SplitIfs

/-!
# The connectivity checksum

`util::ConnectivityChecksum` packs the turns of the intersections into bytes and keeps a CRC of
them. Each batch of intersections has a checksum of its own, and `GenerateEdgeExpandedEdges`
combines them in order. An intersection starts with two bytes, and so on a new byte.
-/

namespace Osrm.Extractor

open List

/-- `crc32` and `crc32_combine` of zlib, with their laws for concatenation. -/
structure Crc where
  crc32 : UInt32 → List UInt8 → UInt32
  crc32Combine : UInt32 → UInt32 → ℕ → UInt32
  nil : crc32 0 [] = 0
  append : ∀ crc bytes rest, crc32 (crc32 crc bytes) rest = crc32 crc (bytes ++ rest)
  combine : ∀ bytes rest, crc32Combine (crc32 0 bytes) (crc32 0 rest) rest.length = crc32 0 (bytes ++ rest)

/-- `ConnectivityChecksum`: the bytes before `byte_number` and the one at it, which the constructor leaves open. -/
structure ConnectivityChecksum where
  current : UInt8
  buffer : List UInt8 := []
  checksum : UInt32 := 0
  length : ℕ := 0
  bitNumber : ℕ := 0

/-- What an intersection feeds: the numbers of its roads, and for each turn whether it is allowed. -/
structure IntersectionTurns where
  incoming : UInt8
  outgoing : UInt8
  allowed : List Bool

namespace ConnectivityChecksum

variable (crc : Crc) (st : ConnectivityChecksum)

def bufferSize : ℕ := 64

/-- The step to the next byte, which is written before it is read. -/
def nextByte : ConnectivityChecksum :=
  { st with buffer := st.buffer ++ [st.current], length := st.length + 1, bitNumber := 0 }

def flushBytes : ConnectivityChecksum :=
  if st.buffer.length ≥ bufferSize then
    { st with checksum := crc.crc32 st.checksum (st.buffer.take bufferSize), buffer := [] }
  else st

def processByte (byte : UInt8) : ConnectivityChecksum :=
  let st := (if st.bitNumber > 0 then st.nextByte else st).flushBytes crc
  { flushBytes crc (nextByte { st with current := byte }) with current := 0 }

def addBit (byte : UInt8) (bit : Bool) : UInt8 := byte <<< 1 ||| bit.toNat.toUInt8

def processBit (bit : Bool) : ConnectivityChecksum :=
  let st := { st with current := addBit st.current bit, bitNumber := st.bitNumber + 1 }
  if st.bitNumber ≥ 8 then { st.nextByte.flushBytes crc with current := 0 } else st

def updateChecksum (current : UInt32) : UInt32 :=
  let st := if st.bitNumber > 0 then st.nextByte else st
  crc.crc32Combine current (crc.crc32 st.checksum st.buffer) st.length

def processTurns (turns : IntersectionTurns) : ConnectivityChecksum :=
  turns.allowed.foldl (processBit crc) ((st.processByte crc turns.incoming).processByte crc turns.outgoing)

/-- The checksum after a batch, which comes with what its first byte held before. -/
def addBatch (current : UInt32) (batch : UInt8 × List IntersectionTurns) : UInt32 :=
  updateChecksum crc (batch.2.foldl (processTurns crc) { current := batch.1 }) current

/-- `m_connectivity_checksum` after the batches. -/
def connectivityChecksum (batches : List (UInt8 × List IntersectionTurns)) : UInt32 := batches.foldl (addBatch crc) 0

/-- The bytes have gone into the checksum or are in the buffer. -/
structure Stored (bytes : List UInt8) : Prop where
  checksum : crc.crc32 st.checksum st.buffer = crc.crc32 0 bytes
  length : st.length = bytes.length
  room : st.buffer.length ≤ bufferSize

/-- The bytes are stored and the bits after them are in the current one. -/
structure Fed (bytes : List UInt8) (bits : List Bool) : Prop extends Stored crc st bytes where
  free : st.buffer.length < bufferSize
  bitNumber : st.bitNumber = bits.length
  current : st.current = bits.foldl addBit 0

/-- What is stored once a byte that is begun is closed. -/
def Closes (bytes : List UInt8) : Prop := Stored crc (if st.bitNumber > 0 then st.nextByte else st) bytes

variable {crc st} {bytes : List UInt8} {bits : List Bool}

theorem Stored.nextByte (stored : Stored crc st bytes) (free : st.buffer.length < bufferSize) :
    Stored crc st.nextByte (bytes ++ [st.current]) where
  checksum := by rw [ConnectivityChecksum.nextByte, ← crc.append, stored.checksum, crc.append]
  length := by rw [length_append, ← stored.length]; rfl
  room := by rw [ConnectivityChecksum.nextByte, length_append]; exact free

/-- A flush leaves room, whatever is written then. -/
theorem Stored.flushBytes (stored : Stored crc st bytes) (byte : UInt8) :
    Stored crc { st.flushBytes crc with current := byte } bytes ∧ (st.flushBytes crc).buffer.length < bufferSize ∧
      (st.flushBytes crc).bitNumber = st.bitNumber := by
  unfold ConnectivityChecksum.flushBytes
  split_ifs with full
  · refine ⟨⟨?_, stored.length, Nat.zero_le _⟩, Nat.zero_lt_succ _, rfl⟩
    rw [take_of_length_le stored.room, crc.append, append_nil, stored.checksum]
  · exact ⟨⟨stored.checksum, stored.length, stored.room⟩, Nat.not_le.1 full, rfl⟩

theorem Stored.fed (stored : Stored crc st bytes) (whole : st.bitNumber = 0) :
    Fed crc { st.flushBytes crc with current := 0 } bytes [] := by
  obtain ⟨stored, free, same⟩ := stored.flushBytes 0
  exact ⟨stored, free, same.trans whole, rfl⟩

/-- A byte that is begun is closed before the next is written. -/
theorem Closes.processByte (closes : Closes crc st bytes) (byte : UInt8) :
    Fed crc (st.processByte crc byte) (bytes ++ [byte]) [] := by
  obtain ⟨stored, free, -⟩ := closes.flushBytes byte
  exact (stored.nextByte free).fed rfl

theorem Fed.closes (fed : Fed crc st bytes []) : Closes crc st bytes := by
  rw [Closes, fed.bitNumber]
  exact fed.toStored

/-- The bits of the turns add bytes that depend on them and on the bits before them in the current byte only. -/
theorem exists_bitBytes (allowed : List Bool) : ∀ bits : List Bool, ∃ added, ∀ st bytes, Fed crc st bytes bits →
    Closes crc (allowed.foldl (processBit crc) st) (bytes ++ added) := by
  induction allowed with
  | nil =>
    intro bits
    refine ⟨if bits.length > 0 then [bits.foldl addBit 0] else [], fun st bytes fed => ?_⟩
    rw [foldl_nil, Closes, ← fed.bitNumber, ← fed.current]
    split_ifs
    · exact fed.nextByte fed.free
    · rw [append_nil]
      exact fed.toStored
  | cons bit allowed ih =>
    intro bits
    have next : ∀ st bytes, Fed crc st bytes bits →
        Fed crc { st with current := addBit st.current bit, bitNumber := st.bitNumber + 1 } bytes (bits ++ [bit]) :=
      fun st bytes fed => ⟨⟨fed.checksum, fed.length, fed.room⟩, fed.free, by simp [fed.bitNumber], by simp [fed.current]⟩
    by_cases full : bits.length + 1 ≥ 8
    · obtain ⟨added, spec⟩ := ih []
      refine ⟨(bits ++ [bit]).foldl addBit 0 :: added, fun st bytes fed => ?_⟩
      have whole := ((next st bytes fed).nextByte fed.free).fed rfl
      rw [foldl_cons, processBit, if_pos (fed.bitNumber ▸ full), append_cons, ← (next st bytes fed).current]
      exact spec _ _ whole
    · obtain ⟨added, spec⟩ := ih (bits ++ [bit])
      refine ⟨added, fun st bytes fed => ?_⟩
      rw [foldl_cons, processBit, if_neg (fed.bitNumber ▸ full)]
      exact spec _ _ (next st bytes fed)

/-- An intersection adds bytes that depend on it only. -/
theorem exists_bytes (crc : Crc) (turns : IntersectionTurns) : ∃ added, ∀ st bytes, Closes crc st bytes →
    Closes crc (st.processTurns crc turns) (bytes ++ added) := by
  obtain ⟨added, spec⟩ := exists_bitBytes turns.allowed []
  refine ⟨turns.incoming :: turns.outgoing :: added, fun st bytes closes => ?_⟩
  have heads := (closes.processByte turns.incoming).closes.processByte turns.outgoing
  simpa [processTurns] using spec _ _ heads

section Batches

variable {encode : IntersectionTurns → List UInt8}
  (step : ∀ turns st bytes, Closes crc st bytes → Closes crc (st.processTurns crc turns) (bytes ++ encode turns))

include step

theorem Closes.batch (batch : List IntersectionTurns) (closes : Closes crc st bytes) :
    Closes crc (batch.foldl (processTurns crc) st) (bytes ++ batch.flatMap encode) := by
  induction batch generalizing st bytes with
  | nil => simpa using closes
  | cons turns batch ih => simpa using ih (step turns st bytes closes)

theorem foldl_addBatch (batches : List (UInt8 × List IntersectionTurns)) (before : List UInt8) :
    batches.foldl (addBatch crc) (crc.crc32 0 before) = crc.crc32 0 (before ++ (batches.flatMap Prod.snd).flatMap encode) := by
  induction batches generalizing before with
  | nil => simp
  | cons batch batches ih =>
    have closes := Closes.batch step batch.2 (⟨rfl, rfl, Nat.zero_le _⟩ : Closes crc { current := batch.1 } [])
    have one : addBatch crc (crc.crc32 0 before) batch = crc.crc32 0 (before ++ batch.2.flatMap encode) := by
      rw [addBatch, updateChecksum, closes.checksum, closes.length, crc.combine, nil_append]
    rw [foldl_cons, one, ih]
    simp

end Batches

/-- **The checksum does not depend on the batches.** -/
theorem connectivityChecksum_eq (crc : Crc) {batches batches' : List (UInt8 × List IntersectionTurns)}
    (same : batches.flatMap Prod.snd = batches'.flatMap Prod.snd) :
    connectivityChecksum crc batches = connectivityChecksum crc batches' := by
  choose encode step using exists_bytes crc
  have run := foldl_addBatch step
  rw [connectivityChecksum, connectivityChecksum, ← crc.nil, run, run, same]

/-! ### CRC-32 -/

/-- One bit of CRC-32, least significant bit first. -/
def crcBit (crc : UInt32) : UInt32 := crc >>> 1 ^^^ if crc.toBitVec.getLsbD 0 then 0xEDB88320 else 0

/-- The eight bits of a byte that has been added to the register. -/
def crcByte (crc : UInt32) : UInt32 := crcBit^[8] crc

/-- The register after some bytes. -/
def crcBytes (crc : UInt32) (bytes : List UInt8) : UInt32 := bytes.foldl (fun crc byte => crcByte (crc ^^^ byte.toUInt32)) crc

theorem crcBit_xor (a b : UInt32) : crcBit (a ^^^ b) = crcBit a ^^^ crcBit b := by
  have masks : ∀ p q : Bool, (if p ^^ q then (0xEDB88320 : UInt32) else 0) =
      (if p then 0xEDB88320 else 0) ^^^ (if q then 0xEDB88320 else 0) := by decide
  rw [crcBit, UInt32.shiftRight_xor, UInt32.toBitVec_xor, BitVec.getLsbD_xor, masks, crcBit, crcBit]
  ac_rfl

theorem crcByte_xor (a b : UInt32) : crcByte (a ^^^ b) = crcByte a ^^^ crcByte b := by
  simp only [crcByte, Function.iterate_succ, Function.iterate_zero, Function.comp_apply, id_eq, crcBit_xor]

/-- The register is linear: what it held before goes through as many zero bytes. -/
theorem crcBytes_xor (bytes : List UInt8) : ∀ a b, crcBytes (a ^^^ b) bytes = crcByte^[bytes.length] a ^^^ crcBytes b bytes := by
  induction bytes with
  | nil => exact fun a b => rfl
  | cons byte bytes ih =>
    intro a b
    have first : crcBytes (a ^^^ b) (byte :: bytes) = crcBytes (crcByte a ^^^ crcByte (b ^^^ byte.toUInt32)) bytes := by
      rw [← crcByte_xor, ← UInt32.xor_assoc]
      rfl
    rw [first, ih, length_cons, Function.iterate_succ_apply]
    rfl

/-- What zlib computes: the register is inverted before and after the bytes, and a combination moves the first checksum over
the length of the second part. -/
def zlib : Crc where
  crc32 crc bytes := ~~~ crcBytes (~~~ crc) bytes
  crc32Combine crc crc' length := crcByte^[length] crc ^^^ crc'
  nil := rfl
  append crc bytes rest := by rw [UInt32.not_not, crcBytes, crcBytes, crcBytes, foldl_append]
  combine bytes rest := by
    have inverted (a b : UInt32) : a ^^^ ~~~ b = ~~~ (a ^^^ b) := UInt32.eq_of_toBitVec_eq BitVec.not_xor_right.symm
    have again (a : UInt32) : ~~~ a ^^^ ~~~ 0 = a := by
      apply UInt32.eq_of_toBitVec_eq
      simp
    rw [inverted, ← crcBytes_xor, again, crcBytes, crcBytes, crcBytes, foldl_append]

example : zlib.crc32 0 [0x31, 0x32, 0x33, 0x34, 0x35, 0x36, 0x37, 0x38, 0x39] = 0xCBF43926 := by decide +kernel

theorem connectivityChecksum_eq_split : connectivityChecksum zlib [(0, [⟨1, 1, [true]⟩, ⟨1, 2, [true, false]⟩])] =
    connectivityChecksum zlib [(7, [⟨1, 1, [true]⟩]), (0, []), (9, [⟨1, 2, [true, false]⟩])] :=
  connectivityChecksum_eq zlib rfl

end ConnectivityChecksum

end Osrm.Extractor
