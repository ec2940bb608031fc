import Osrm.Protozero.Varint
import Osrm.Lib.Failure

/-!
# Reading and writing protocol buffer messages

`pbf_reader` walks over the fields of a message: `next` reads a tag and a wire type, one of
the accessors (or `skip`) then reads the value. `pbf_writer` appends fields to a buffer. Each
accessor reads back what the matching `add_` function wrote, whatever follows. A loop over
the fields of a message is `forFields`.
-/

namespace Osrm.Protozero

inductive WireType
  | varint
  | fixed64
  | lengthDelimited
  | fixed32
  | unknown
  deriving DecidableEq, Repr

/-- The number of a wire type on the wire. -/
def WireType.number : WireType → BitVec 32
  | .varint => 0#32
  | .fixed64 => 1#32
  | .lengthDelimited => 2#32
  | .fixed32 => 5#32
  | .unknown => 99#32

/-- The wire type with a number; `none` is the `default` case of `next`. -/
def WireType.ofNumber (value : BitVec 32) : Option WireType :=
  [WireType.varint, .fixed64, .lengthDelimited, .fixed32].find? (·.number = value)

/-- `pbf_reader`: the unread bytes and the field that `next` found. -/
structure PbfReader where
  data : List Byte
  wireType : WireType
  tag : BitVec 32
  deriving DecidableEq, Repr

namespace PbfReader

variable (reader : PbfReader)

/-- The constructor of `pbf_reader` -/
def ofData (data : List Byte) : PbfReader := ⟨data, .unknown, 0#32⟩

/-- `get_varint<uint64_t>`, also `get_uint64` and `get_int64` -/
def getVarint : Except Exception (BitVec 64 × PbfReader) :=
  (decodeVarint reader.data).map fun r => (r.1, { reader with data := r.2 })

def skipBytes (len : ℕ) : Except Exception PbfReader :=
  if reader.data.length < len then .error .endOfBuffer else .ok { reader with data := reader.data.drop len }

/-- `next`; `none` at the end of the message -/
def next : Except Exception (Option PbfReader) :=
  if reader.data.isEmpty then .ok none
  else do
    let (value, reader) ← reader.getVarint
    let value := value.setWidth 32
    let tag := value >>> 3
    if tag = 0#32 ∨ 19000#32 ≤ tag ∧ tag ≤ 19999#32 then .error .invalidTag
    else
      match WireType.ofNumber (value &&& 0x07#32) with
      | some wireType => .ok (some { reader with tag, wireType })
      | none => .error .unknownPbfWireType

def getLength : Except Exception (BitVec 32 × PbfReader) := do
  let (value, reader) ← reader.getVarint
  return (value.setWidth 32, reader)

def skip : Except Exception PbfReader :=
  match reader.wireType with
  | .varint => (skipVarint reader.data).map fun data => { reader with data }
  | .fixed64 => reader.skipBytes 8
  | .lengthDelimited => do
    let (len, reader) ← reader.getLength
    reader.skipBytes len.toNat
  | .fixed32 => reader.skipBytes 4
  | .unknown => .ok reader

end PbfReader

/-- The value of bytes with the lowest first. -/
def littleEndian : List Byte → ℕ
  | [] => 0
  | b :: data => b.toNat + 256 * littleEndian data

/-- The lowest `k` bytes of a value, lowest first. -/
def littleEndianBytes : ℕ → ℕ → List Byte
  | 0, _ => []
  | k + 1, value => BitVec.ofNat 8 value :: littleEndianBytes k (value / 256)

namespace PbfReader

variable (reader : PbfReader)

def getFixed (k : ℕ) : Except Exception (BitVec (8 * k) × PbfReader) := do
  let rest ← reader.skipBytes k
  return (BitVec.ofNat (8 * k) (littleEndian (reader.data.take k)), rest)

def getFloat : Except Exception (BitVec 32 × PbfReader) := reader.getFixed 4

def getDouble : Except Exception (BitVec 64 × PbfReader) := reader.getFixed 8

def getMessage : Except Exception (PbfReader × PbfReader) := do
  let (len, reader) ← reader.getLength
  let rest ← reader.skipBytes len.toNat
  return (ofData (reader.data.take len.toNat), rest)

end PbfReader

def addField (tag : BitVec 32) (type : WireType) : List Byte := varintBytes (((tag <<< 3) ||| type.number).setWidth 64)

/-- `add_tagged_varint`, also `add_uint64` and `add_int64` -/
def addTaggedVarint (buffer : List Byte) (tag : BitVec 32) (value : BitVec 64) : List Byte :=
  buffer ++ addField tag .varint ++ varintBytes value

def addFloat (buffer : List Byte) (tag : BitVec 32) (value : BitVec 32) : List Byte :=
  buffer ++ addField tag .fixed32 ++ littleEndianBytes 4 value.toNat

def addDouble (buffer : List Byte) (tag : BitVec 32) (value : BitVec 64) : List Byte :=
  buffer ++ addField tag .fixed64 ++ littleEndianBytes 8 value.toNat

/-- `add_bytes`, also `add_message` -/
def addBytes (buffer : List Byte) (tag : BitVec 32) (value : List Byte) : List Byte :=
  buffer ++ addField tag .lengthDelimited ++ varintBytes ((BitVec.ofNat 32 value.length).setWidth 64) ++ value

/-- `while (reader.next())` with the body `step`. What the body has done stays done when an exception ends the loop. -/
def forFields {σ : Type*} (step : PbfReader → σ → σ × Except Exception PbfReader) :
    ℕ → PbfReader → σ → σ × Except Exception Unit
  | 0, _, st => (st, .ok ())
  | fuel + 1, reader, st =>
    match reader.next with
    | .error e => (st, .error e)
    | .ok none => (st, .ok ())
    | .ok (some reader) =>
      match step reader st with
      | (st, .error e) => (st, .error e)
      | (st, .ok reader) => forFields step fuel reader st

section LittleEndian

theorem length_littleEndianBytes (k : ℕ) : ∀ value, (littleEndianBytes k value).length = k := by
  induction k with
  | zero => exact fun _ => rfl
  | succ k ih => exact fun value => congrArg Nat.succ (ih (value / 256))

theorem littleEndian_bytes (k : ℕ) : ∀ value, littleEndian (littleEndianBytes k value) = value % 2 ^ (8 * k) := by
  induction k with
  | zero => exact fun value => (Nat.mod_one value).symm
  | succ k ih =>
    intro value
    rw [littleEndianBytes, littleEndian, ih, show 8 * (k + 1) = 8 + 8 * k by omega, pow_add, Nat.mod_mul]
    rfl

end LittleEndian

def ValidTag (tag : BitVec 32) : Prop := 0 < tag.toNat ∧ tag.toNat < 2 ^ 29 ∧ ¬ (19000 ≤ tag.toNat ∧ tag.toNat ≤ 19999)

namespace PbfReader

variable {reader : PbfReader} {rest : List Byte} {type : WireType} {tag : BitVec 32}

/-- The header of a field holds its tag and its type. -/
theorem header_toNat (valid : ValidTag tag) (known : type ≠ .unknown) :
    ((tag <<< 3) ||| type.number) >>> 3 = tag ∧ ((tag <<< 3) ||| type.number) &&& 0x07#32 = type.number := by
  have low : type.number.toNat < 2 ^ 3 := by
    cases type with
    | unknown => exact absurd rfl known
    | _ => decide
  have whole : ((tag <<< 3) ||| type.number).toNat = 8 * tag.toNat + type.number.toNat := by
    have fits : tag.toNat * 2 ^ 3 < 2 ^ 32 := by
      have := valid.2.1
      omega
    rw [BitVec.toNat_or, BitVec.toNat_shiftLeft, Nat.shiftLeft_eq, Nat.mod_eq_of_lt fits, mul_comm,
      ← Nat.two_pow_add_eq_or_of_lt low]
  constructor
  · apply BitVec.eq_of_toNat_eq
    rw [BitVec.toNat_ushiftRight]
    omega
  · apply BitVec.eq_of_toNat_eq
    rw [BitVec.toNat_and, whole]
    change (8 * tag.toNat + type.number.toNat) &&& 7 = _
    rw [show 7 = 2 ^ 3 - 1 by rfl, Nat.and_two_pow_sub_one_eq_mod]
    omega

theorem getVarint_varintBytes {value : BitVec 64} (data : reader.data = varintBytes value ++ rest) :
    reader.getVarint = .ok (value, { reader with data := rest }) := by
  rw [getVarint, data, decodeVarint_varintBytes]
  rfl

/-- `next` reads what `add_field` wrote. -/
theorem next_addField (valid : ValidTag tag) (known : type ≠ .unknown)
    (data : reader.data = addField tag type ++ rest) : reader.next = .ok (some ⟨rest, type, tag⟩) := by
  obtain ⟨high, low⟩ := header_toNat valid known
  have filled : reader.data.isEmpty = false := by
    rw [data, List.isEmpty_eq_false_iff]
    exact List.append_ne_nil_of_left_ne_nil (varintBytes_ne_nil _) rest
  have header := getVarint_varintBytes data
  have accepted : ¬ (tag = 0#32 ∨ 19000#32 ≤ tag ∧ tag ≤ 19999#32) := by
    rintro (zero | range)
    · rw [zero] at valid
      exact absurd valid.1 (by decide)
    · exact valid.2.2 range
  have number : WireType.ofNumber type.number = some type := by
    cases type with
    | unknown => exact absurd rfl known
    | _ => decide
  rw [next, filled, header]
  simp [bind, Except.bind, high, low, number, if_neg accepted]

/-- `get_fixed` reads what `add_fixed` wrote. -/
theorem getFixed_littleEndianBytes {k : ℕ} {value : BitVec (8 * k)} (data : reader.data = littleEndianBytes k value.toNat ++ rest) :
    reader.getFixed k = .ok (value, { reader with data := rest }) := by
  have length := length_littleEndianBytes k value.toNat
  have enough : ¬ reader.data.length < k := by
    rw [data, List.length_append]
    omega
  have taken : reader.data.take k = littleEndianBytes k value.toNat := by rw [data, List.take_left' length]
  have dropped : reader.data.drop k = rest := by rw [data, List.drop_left' length]
  have read : BitVec.ofNat (8 * k) (littleEndian (littleEndianBytes k value.toNat)) = value := by
    rw [littleEndian_bytes, Nat.mod_eq_of_lt value.isLt, BitVec.ofNat_toNat, BitVec.setWidth_eq]
  rw [getFixed, skipBytes, if_neg enough, taken, dropped, read]
  rfl

/-- `get_message` gives a reader of what `add_message` wrote. -/
theorem getMessage_addBytes {value : List Byte} (short : value.length < 2 ^ 32)
    (data : reader.data = varintBytes ((BitVec.ofNat 32 value.length).setWidth 64) ++ value ++ rest) :
    reader.getMessage = .ok (ofData value, { reader with data := rest }) := by
  rw [List.append_assoc] at data
  have back : (((BitVec.ofNat 32 value.length).setWidth 64).setWidth 32).toNat = value.length := by
    rw [BitVec.setWidth_setWidth_of_le _ (by decide), BitVec.setWidth_eq, BitVec.toNat_ofNat, Nat.mod_eq_of_lt short]
  have enough : ¬ (value ++ rest).length < value.length := by
    rw [List.length_append]
    omega
  rw [getMessage, getLength, getVarint_varintBytes data]
  simp only [bind, Except.bind, pure, Except.pure, back, skipBytes, if_neg enough, List.take_left, List.drop_left]

section Forward

variable {reader rest : PbfReader}

theorem length_getVarint {value : BitVec 64} (read : reader.getVarint = .ok (value, rest)) : rest.data.length < reader.data.length := by
  unfold getVarint at read
  cases decoded : decodeVarint reader.data with
  | error e =>
    rw [decoded] at read
    cases read
  | ok result =>
    rw [decoded] at read
    cases read
    exact length_decodeVarint decoded

theorem length_skipBytes {len : ℕ} (skipped : reader.skipBytes len = .ok rest) : rest.data.length ≤ reader.data.length := by
  unfold skipBytes at skipped
  split_ifs at skipped
  cases skipped
  exact (reader.data.drop_sublist _).length_le

/-- The header of a field takes at least one byte. -/
theorem length_next (found : reader.next = .ok (some rest)) : rest.data.length < reader.data.length := by
  unfold next at found
  split_ifs at found
  · cases found
  · obtain ⟨⟨value, after⟩, read, found⟩ := Lib.bind_eq_ok found
    have shorter := length_getVarint read
    dsimp only at found
    split_ifs at found
    split at found
    · cases found
      exact shorter
    · cases found

theorem length_getFixed {k : ℕ} {value : BitVec (8 * k)} (read : reader.getFixed k = .ok (value, rest)) :
    rest.data.length ≤ reader.data.length := by
  obtain ⟨after, skipped, found⟩ := Lib.bind_eq_ok read
  cases found
  exact length_skipBytes skipped

theorem length_getLength {len : BitVec 32} (read : reader.getLength = .ok (len, rest)) : rest.data.length < reader.data.length := by
  obtain ⟨⟨value, after⟩, read, found⟩ := Lib.bind_eq_ok read
  cases found
  exact length_getVarint read

theorem length_getMessage {inner : PbfReader} (read : reader.getMessage = .ok (inner, rest)) :
    rest.data.length ≤ reader.data.length := by
  obtain ⟨⟨len, after⟩, length, read⟩ := Lib.bind_eq_ok read
  obtain ⟨last, skipped, found⟩ := Lib.bind_eq_ok read
  cases found
  exact (length_skipBytes skipped).trans (length_getLength length).le

theorem length_skip (skipped : reader.skip = .ok rest) : rest.data.length ≤ reader.data.length := by
  unfold skip at skipped
  split at skipped
  · cases after : skipVarint reader.data with
    | error e =>
      rw [after] at skipped
      cases skipped
    | ok data =>
      rw [after] at skipped
      cases skipped
      exact length_skipVarint after
  · exact length_skipBytes skipped
  · obtain ⟨⟨len, after⟩, length, skipped⟩ := Lib.bind_eq_ok skipped
    exact (length_skipBytes skipped).trans (length_getLength length).le
  · exact length_skipBytes skipped
  · cases skipped
    exact le_rfl

end Forward

end PbfReader

section Fields

variable {σ : Type*} {step : PbfReader → σ → σ × Except Exception PbfReader} {reader reader' : PbfReader} {st st' : σ}

/-- At the end of the data the loop is over. -/
theorem forFields_nil (fuel : ℕ) (done : reader.data = []) : forFields step fuel reader st = (st, .ok ()) := by
  cases fuel with
  | zero => rfl
  | succ fuel => rw [forFields, PbfReader.next, done, List.isEmpty_nil, if_pos rfl]

/-- As many steps as there are bytes are enough for a body that does not go back. -/
theorem forFields_enough (forward : ∀ reader st rest, (step reader st).2 = .ok rest → rest.data.length ≤ reader.data.length)
    (extra : ℕ) : ∀ (fuel : ℕ) (reader : PbfReader) (st : σ), reader.data.length ≤ fuel →
      forFields step (fuel + extra) reader st = forFields step fuel reader st := by
  intro fuel
  induction fuel with
  | zero =>
    intro reader st short
    have done : reader.data = [] := List.length_eq_zero_iff.1 (Nat.le_zero.1 short)
    rw [forFields_nil _ done, forFields_nil _ done]
  | succ fuel ih =>
    intro reader st short
    rw [Nat.add_right_comm, forFields, forFields]
    rcases found : reader.next with e | _ | field
    · rfl
    · rfl
    · have shorter := PbfReader.length_next found
      rcases read : step field st with ⟨st', e | rest⟩
      · simp only [read]
      · have := forward field st rest (by rw [read])
        simp only [read]
        exact ih rest st' (by omega)

/-- One field that the body reads without an exception. -/
theorem forFields_field {fuel : ℕ} (found : reader.next = .ok (some reader'))
    {rest : PbfReader} (body : step reader' st = (st', .ok rest)) :
    forFields step (fuel + 1) reader st = forFields step fuel rest st' := by
  rw [forFields, found]
  simp only [body]

end Fields

end Osrm.Protozero
