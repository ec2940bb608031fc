import Osrm.Lib.Failure
import Osrm.Lib.Swar

/-!
# Group blocks

`util::IndexedData` stores byte strings in blocks of `BLOCK_SIZE + 1`. A block starts with a prefix
that holds the lengths of its first `BLOCK_SIZE` strings; the last one ends where the block ends.
`VariableGroupBlock` writes each length in as many bytes as it needs and keeps the numbers of bytes,
two bits each, in the reference of the block; `FixedGroupBlock` writes each length in one byte.

Both are a `GroupBlockPolicy` here. What the container needs of one is its `Layout`: what a block's
reference and prefix are as functions of the lengths, and that reading by them finds every string.
-/

namespace Osrm.IndexedData

open Function List

open Lib

/-- What ends a construction or a read. -/
inductive Fault
  | tooLargeDataLength (dataLength : ℕ)
  | outOfBounds
  deriving DecidableEq, Repr

/-- `*next - *curr` as a `std::uint32_t` -/
def dataLength (curr next : ℕ) : ℕ := (next + 2 ^ 32 - curr) % 2 ^ 32

/-- The data lengths between the offsets of an inclusive range, from the first to the last. -/
def dataLengths : List ℕ → List ℕ
  | curr :: next :: rest => dataLength curr next :: dataLengths (next :: rest)
  | _ => []

def readByte (values : List UInt8) (it : ℕ) : Except Fault ℕ :=
  match values[it]? with
  | some byte => .ok byte.toNat
  | none => .error .outOfBounds

/-- A block policy. Iterators into the offsets are the range they bound, iterators into the values are positions. -/
structure GroupBlockPolicy where
  blockSize : ℕ
  BlockReference : Type
  offset : BlockReference → ℕ
  /-- `WriteBlockReference`, with the data offset after it -/
  writeBlockReference : List ℕ → ℕ → Except Fault (BlockReference × ℕ)
  writeBlockPrefix : List ℕ → Except Fault (List UInt8)
  /-- `ReadRefrencedBlock`, with the range after it -/
  readRefrencedBlock : BlockReference → ℕ → List UInt8 → ℕ → ℕ → Except Fault (ℕ × ℕ)

/-! ### Variable lengths -/

namespace VariableGroupBlock

structure BlockReference where
  offset : ℕ
  descriptor : ℕ
  deriving DecidableEq, Repr

def log256 (value : ℕ) : ℕ :=
  if value = 0 then 0 else if value < 0x100 then 1 else if value < 0x10000 then 2 else 3

def varAdvance (values : List UInt8) (data length byteLength : ℕ) : Except Fault (ℕ × ℕ) :=
  if byteLength = 0 then .ok (data, length)
  else if byteLength = 1 then do
    let first ← readByte values length
    return (data + first, length + 1)
  else if byteLength = 2 then do
    let first ← readByte values length
    let second ← readByte values (length + 1)
    return (data + first + second <<< 8, length + 2)
  else do
    let first ← readByte values length
    let second ← readByte values (length + 1)
    let third ← readByte values (length + 2)
    return (data + first + second <<< 8 + third <<< 16, length + 3)

def sum2bits (value : ℕ) : ℕ :=
  let value := (value >>> 2 &&& 0x33333333) + (value &&& 0x33333333)
  let value := (value >>> 4 &&& 0x0f0f0f0f) + (value &&& 0x0f0f0f0f)
  let value := (value >>> 8 &&& 0x00ff00ff) + (value &&& 0x00ff00ff)
  (value >>> 16 &&& 0x0000ffff) + (value &&& 0x0000ffff)

/-- The loop of `WriteBlockReference` at one length, with the descriptor and the prefix length so far. -/
def describe (described : ℕ × ℕ) (dataLength : ℕ) : Except Fault (ℕ × ℕ) :=
  if dataLength ≥ 0x1000000 then .error (.tooLargeDataLength dataLength)
  else .ok (described.1 <<< 2 % 2 ^ 32 ||| log256 dataLength, described.2 + log256 dataLength)

/-- `WriteBlockReference`; the loop runs from the last length to the first. -/
def writeBlockReference (offsets : List ℕ) (dataOffset : ℕ) : Except Fault (BlockReference × ℕ) := do
  let (descriptor, prefixLength) ← (dataLengths offsets).reverse.foldlM describe (0, 0)
  return (⟨dataOffset % 2 ^ 32, descriptor⟩, dataOffset + prefixLength)

/-- The first bytes of a `std::uint32_t` in memory. -/
def lowBytes (value byteLength : ℕ) : List UInt8 :=
  [UInt8.ofNat value, UInt8.ofNat (value >>> 8), UInt8.ofNat (value >>> 16), UInt8.ofNat (value >>> 24)].take byteLength

def writeBlockPrefix (offsets : List ℕ) : Except Fault (List UInt8) :=
  .ok ((dataLengths offsets).flatMap fun dataLength => lowBytes dataLength (log256 dataLength))

/-- The loop of `ReadRefrencedBlock` over the strings in front: descriptor, data and lengths after it. -/
def skipStrings (values : List UInt8) : ℕ → ℕ → ℕ → ℕ → Except Fault (ℕ × ℕ × ℕ)
  | 0, descriptor, data, lengths => .ok (descriptor, data, lengths)
  | count + 1, descriptor, data, lengths => do
    let (data, lengths) ← varAdvance values data lengths (descriptor &&& 0x3)
    skipStrings values count (descriptor >>> 2) data lengths

def readRefrencedBlock (blockSize : ℕ) (reference : BlockReference) (localIndex : ℕ) (values : List UInt8) (first last : ℕ) :
    Except Fault (ℕ × ℕ) := do
  let (descriptor, data, lengths) ←
    skipStrings values localIndex reference.descriptor (first + sum2bits reference.descriptor) first
  if localIndex < blockSize then
    let (last, _) ← varAdvance values data lengths (descriptor &&& 0x3)
    return (data, last)
  else
    return (data, last)

end VariableGroupBlock

def variableGroupBlock (blockSize : ℕ) : GroupBlockPolicy where
  blockSize := blockSize
  BlockReference := VariableGroupBlock.BlockReference
  offset := VariableGroupBlock.BlockReference.offset
  writeBlockReference := VariableGroupBlock.writeBlockReference
  writeBlockPrefix := VariableGroupBlock.writeBlockPrefix
  readRefrencedBlock := VariableGroupBlock.readRefrencedBlock blockSize

/-! ### Fixed lengths -/

namespace FixedGroupBlock

structure BlockReference where
  offset : ℕ
  deriving DecidableEq, Repr

def writeBlockReference (blockSize : ℕ) (dataOffset : ℕ) : Except Fault (BlockReference × ℕ) :=
  .ok (⟨dataOffset % 2 ^ 32⟩, dataOffset + blockSize)

def prefixByte (dataLength : ℕ) : Except Fault UInt8 :=
  if dataLength > 255 then .error (.tooLargeDataLength dataLength) else .ok (UInt8.ofNat dataLength)

/-- `WriteBlockPrefix`; the bytes that no length is written to are zero. -/
def writeBlockPrefix (blockSize : ℕ) (offsets : List ℕ) : Except Fault (List UInt8) := do
  let bytes ← (dataLengths offsets).mapM prefixByte
  return bytes ++ replicate (blockSize - bytes.length) 0

/-- The loop of `ReadRefrencedBlock` over the strings in front: data and lengths after it. -/
def skipStrings (values : List UInt8) : ℕ → ℕ → ℕ → Except Fault (ℕ × ℕ)
  | 0, data, lengths => .ok (data, lengths)
  | count + 1, data, lengths => do
    let length ← readByte values lengths
    skipStrings values count (data + length) (lengths + 1)

def readRefrencedBlock (blockSize localIndex : ℕ) (values : List UInt8) (first last : ℕ) : Except Fault (ℕ × ℕ) := do
  let (data, lengths) ← skipStrings values localIndex (first + blockSize) first
  if localIndex < blockSize then
    let length ← readByte values lengths
    return (data, data + length)
  else
    return (data, last)

end FixedGroupBlock

def fixedGroupBlock (blockSize : ℕ) : GroupBlockPolicy where
  blockSize := blockSize
  BlockReference := FixedGroupBlock.BlockReference
  offset := FixedGroupBlock.BlockReference.offset
  writeBlockReference := fun _ => FixedGroupBlock.writeBlockReference blockSize
  writeBlockPrefix := FixedGroupBlock.writeBlockPrefix blockSize
  readRefrencedBlock := fun _ => FixedGroupBlock.readRefrencedBlock blockSize

/-! ### Layouts -/

/-- How the blocks of a policy are laid out. `lengths` are those of the strings that have their length in the prefix. -/
structure Layout (policy : GroupBlockPolicy) where
  /-- The lengths that a block reference can describe. -/
  Described : ℕ → Prop
  /-- The lengths that a prefix can hold. -/
  Held : ℕ → Prop
  prefixLength : List ℕ → ℕ
  reference : List ℕ → ℕ → policy.BlockReference
  prefixBytes : List ℕ → List UInt8
  offset_reference : ∀ lengths {dataOffset}, dataOffset < 2 ^ 32 → policy.offset (reference lengths dataOffset) = dataOffset
  length_prefixBytes : ∀ {lengths : List ℕ}, lengths.length ≤ policy.blockSize →
    (prefixBytes lengths).length = prefixLength lengths
  writes_reference : ∀ offsets dataOffset, (dataLengths offsets).length ≤ policy.blockSize →
    (∀ length ∈ dataLengths offsets, Described length) →
      policy.writeBlockReference offsets dataOffset =
        .ok (reference (dataLengths offsets) dataOffset, dataOffset + prefixLength (dataLengths offsets))
  writesPrefix : ∀ offsets, (∀ length ∈ dataLengths offsets, Held length) →
    policy.writeBlockPrefix offsets = .ok (prefixBytes (dataLengths offsets))
  reads : ∀ {lengths : List ℕ} {values rest : List UInt8} {first : ℕ}, lengths.length ≤ policy.blockSize →
    (∀ length ∈ lengths, Described length ∧ Held length) → values.drop first = prefixBytes lengths ++ rest →
      ∀ {localIndex}, localIndex ≤ policy.blockSize → ∀ last,
        policy.readRefrencedBlock (reference lengths first) localIndex values first last =
          .ok (first + prefixLength lengths + (lengths.take localIndex).sum,
            if localIndex < policy.blockSize then
              first + prefixLength lengths + (lengths.take localIndex).sum + lengths.getD localIndex 0
            else last)

variable {byte : UInt8} {it blockSize first : ℕ} {values rest : List UInt8}

theorem readByte_drop (front : values.drop it = byte :: rest) :
    readByte values it = .ok byte.toNat := by
  have found : values[it]? = some byte := by
    rw [← Nat.add_zero it, ← getElem?_drop, front]
    rfl
  rw [readByte, found]

theorem drop_succ (front : values.drop it = byte :: rest) :
    values.drop (it + 1) = rest := by
  rw [← drop_drop, front, drop_one, tail_cons]

namespace VariableGroupBlock

theorem log256_lt (value : ℕ) : log256 value < 4 := by
  unfold log256
  split_ifs <;> omega

/-- Adding neighbours four times leaves the sum of sixteen lanes. -/
theorem sum2bits_ofLanes {lanes : List ℕ} (short : lanes.length ≤ 16) (below : ∀ lane ∈ lanes, lane < 4) :
    sum2bits (Swar.ofLanes 2 lanes) = lanes.sum := by
  have start : Swar.Sums 2 (2 * 8) (Swar.ofLanes 2 lanes) lanes.sum := .of_le short below
  have nibbles : Swar.Sums 4 (2 * 4) _ lanes.sum := start.round (by decide)
  have bytes : Swar.Sums 8 (2 * 2) _ lanes.sum := nibbles.round (by decide)
  have halves : Swar.Sums 16 (2 * 1) _ lanes.sum := bytes.round (by decide)
  have whole : Swar.Sums 32 1 _ lanes.sum := halves.round (by decide)
  exact whole.eq

variable {lengths : List ℕ} {values rest : List UInt8} (length : ℕ)

/-- **A length that was written is read back**, and both iterators move behind it. -/
theorem varAdvance_lowBytes {length : ℕ} (small : length < 0x1000000) {lengths : ℕ}
    (front : values.drop lengths = lowBytes length (log256 length) ++ rest) (data : ℕ) :
    varAdvance values data lengths (log256 length) = .ok (data + length, lengths + log256 length) ∧
      values.drop (lengths + log256 length) = rest := by
  unfold log256 at front ⊢
  split_ifs at front ⊢ with zero one two
  · exact ⟨by rw [zero]; rfl, front⟩
  · have first := readByte_drop front
    refine ⟨?_, drop_succ front⟩
    simp only [varAdvance, first, bind, Except.bind, pure, Except.pure]
    simp
    omega
  · have first := readByte_drop front
    have second := readByte_drop (drop_succ front)
    refine ⟨?_, drop_succ (drop_succ front)⟩
    simp only [varAdvance, first, second, bind, Except.bind, pure, Except.pure]
    simp [Nat.shiftLeft_eq]
    omega
  · have first := readByte_drop front
    have second := readByte_drop (drop_succ front)
    have third := readByte_drop (drop_succ (drop_succ front))
    refine ⟨?_, drop_succ (drop_succ (drop_succ front))⟩
    simp only [varAdvance, first, second, third, bind, Except.bind, pure, Except.pure]
    simp [Nat.shiftLeft_eq]
    omega

def prefixBytes (lengths : List ℕ) : List UInt8 := lengths.flatMap fun length => lowBytes length (log256 length)

def descriptorOf (lengths : List ℕ) : ℕ := Swar.ofLanes 2 (lengths.map log256)

theorem descriptorOf_cons (lengths : List ℕ) :
    descriptorOf (length :: lengths) = log256 length + 4 * descriptorOf lengths := Swar.ofLanes_cons 2 _ _

theorem descriptorOf_low (lengths : List ℕ) : descriptorOf (length :: lengths) &&& 0x3 = log256 length := by
  have mask : descriptorOf (length :: lengths) &&& 0x3 = descriptorOf (length :: lengths) % 4 :=
    Nat.and_two_pow_sub_one_eq_mod _ 2
  have low := log256_lt length
  rw [mask, descriptorOf_cons]
  omega

theorem descriptorOf_shift (lengths : List ℕ) : descriptorOf (length :: lengths) >>> 2 = descriptorOf lengths := by
  have low := log256_lt length
  rw [descriptorOf_cons]
  omega

theorem descriptorOf_lt : ∀ lengths : List ℕ, descriptorOf lengths < 4 ^ lengths.length
  | [] => by decide
  | length :: lengths => by
    have tail := descriptorOf_lt lengths
    have low := log256_lt length
    rw [descriptorOf_cons, length_cons]
    omega

/-- The loop of `WriteBlockReference` puts the numbers of bytes together, the first lowest. -/
theorem foldlM_describe : ∀ {lengths : List ℕ}, lengths.length ≤ 16 → (∀ length ∈ lengths, length < 0x1000000) →
    lengths.reverse.foldlM describe (0, 0) = .ok (descriptorOf lengths, (lengths.map log256).sum)
  | [], _, _ => rfl
  | length :: lengths, short, small => by
    have tail := foldlM_describe (Nat.le_of_succ_le short) fun length mem => small length (mem_cons_of_mem _ mem)
    have accepted : ¬length ≥ 0x1000000 := Nat.not_le.2 (small length mem_cons_self)
    have bound : descriptorOf lengths <<< 2 < 2 ^ 32 := by
      have power : 4 ^ lengths.length ≤ 4 ^ 15 := Nat.pow_le_pow_right (by omega) (Nat.le_of_succ_le_succ short)
      have below := descriptorOf_lt lengths
      omega
    have next : descriptorOf lengths <<< 2 % 2 ^ 32 ||| log256 length = descriptorOf (length :: lengths) := by
      rw [Nat.mod_eq_of_lt bound, ← Nat.shiftLeft_add_eq_or_of_lt (log256_lt length), Nat.shiftLeft_eq, descriptorOf_cons,
        Nat.add_comm, Nat.mul_comm]
    have step : describe (descriptorOf lengths, (lengths.map log256).sum) length =
        .ok (descriptorOf (length :: lengths), ((length :: lengths).map log256).sum) := by
      rw [describe, if_neg accepted, next, map_cons, sum_cons, Nat.add_comm]
    rw [reverse_cons, foldlM_append, tail]
    change (describe (descriptorOf lengths, (lengths.map log256).sum) length >>= pure) = _
    rw [step]
    rfl

/-- The loop of `ReadRefrencedBlock` runs over the lengths that are there; where there are none, it stays. -/
theorem skipStrings_spec {values rest : List UInt8} : ∀ (count : ℕ) {lengths : List ℕ} {data at₀ : ℕ},
    (∀ length ∈ lengths, length < 0x1000000) → values.drop at₀ = prefixBytes lengths ++ rest →
      ∃ at₁, skipStrings values count (descriptorOf lengths) data at₀ =
          .ok (descriptorOf (lengths.drop count), data + (lengths.take count).sum, at₁) ∧
        values.drop at₁ = prefixBytes (lengths.drop count) ++ rest
  | 0, lengths, data, at₀, _, front => ⟨at₀, rfl, front⟩
  | count + 1, [], data, at₀, small, front => by
    obtain ⟨at₁, skipped, after⟩ := @skipStrings_spec values rest count [] data at₀ small front
    have stay : skipStrings values (count + 1) (descriptorOf []) data at₀ = skipStrings values count (descriptorOf []) data at₀ := rfl
    simp only [drop_nil, take_nil] at skipped after ⊢
    exact ⟨at₁, stay.trans skipped, after⟩
  | count + 1, length :: lengths, data, at₀, small, front => by
    rw [prefixBytes, flatMap_cons, append_assoc] at front
    obtain ⟨advanced, behind⟩ := varAdvance_lowBytes (small length mem_cons_self) front data
    obtain ⟨at₁, skipped, after⟩ := @skipStrings_spec values rest count lengths (data + length) _
      (fun length mem => small length (mem_cons_of_mem _ mem)) behind
    refine ⟨at₁, ?_, after⟩
    rw [skipStrings, descriptorOf_low, descriptorOf_shift, advanced]
    change skipStrings values count (descriptorOf lengths) (data + length) _ = _
    rw [skipped, drop_succ_cons, take_succ_cons, sum_cons, Nat.add_assoc]

/-- The length at the front of a prefix, or no length where the prefix has ended. -/
theorem varAdvance_front {it : ℕ}
    (small : ∀ length ∈ lengths, length < 0x1000000) (front : values.drop it = prefixBytes lengths ++ rest) (data : ℕ) :
    ∃ behind, varAdvance values data it (descriptorOf lengths &&& 0x3) = .ok (data + lengths.headD 0, behind) := by
  cases lengths with
  | nil => exact ⟨it, rfl⟩
  | cons length lengths =>
    rw [prefixBytes, flatMap_cons, append_assoc] at front
    rw [descriptorOf_low]
    exact ⟨_, (varAdvance_lowBytes (small length mem_cons_self) front data).1⟩

theorem length_prefixBytes (lengths : List ℕ) : (prefixBytes lengths).length = (lengths.map log256).sum := by
  rw [prefixBytes, length_flatMap]
  congr 1
  apply map_congr_left
  intro length _
  have low := log256_lt length
  rw [lowBytes, length_take]
  exact Nat.min_eq_left (Nat.le_of_lt_succ (Nat.lt_succ_of_lt low))

theorem readRefrencedBlock_spec (small : blockSize ≤ 16) (short : lengths.length ≤ blockSize)
    (described : ∀ length ∈ lengths, length < 0x1000000) {offset : ℕ}
    (front : values.drop first = prefixBytes lengths ++ rest) (localIndex last : ℕ) :
    readRefrencedBlock blockSize ⟨offset, descriptorOf lengths⟩ localIndex values first last =
      .ok (first + (lengths.map log256).sum + (lengths.take localIndex).sum,
        if localIndex < blockSize then
          first + (lengths.map log256).sum + (lengths.take localIndex).sum + lengths.getD localIndex 0
        else last) := by
  have prefixLength : sum2bits (descriptorOf lengths) = (lengths.map log256).sum := by
    apply sum2bits_ofLanes
    · rw [length_map]
      exact short.trans small
    · intro lane mem
      obtain ⟨length, -, rfl⟩ := mem_map.1 mem
      exact log256_lt length
  obtain ⟨it, skipped, after⟩ :=
    @skipStrings_spec values rest localIndex lengths (first + (lengths.map log256).sum) first described front
  obtain ⟨behind, advanced⟩ := varAdvance_front (fun length mem => described length (mem_of_mem_drop mem)) after
    (first + (lengths.map log256).sum + (lengths.take localIndex).sum)
  have head : (lengths.drop localIndex).headD 0 = lengths.getD localIndex 0 := by
    rw [headD_eq_head?_getD, head?_drop, getD_eq_getElem?_getD]
  rw [head] at advanced
  simp only [readRefrencedBlock, prefixLength, skipped, bind, Except.bind]
  split
  · rw [advanced]
    rfl
  · rfl

/-- How `VariableGroupBlock` lays out its blocks. -/
def layout {blockSize : ℕ} (small : blockSize ≤ 16) : Layout (variableGroupBlock blockSize) where
  Described length := length < 0x1000000
  Held _ := True
  prefixLength lengths := (lengths.map log256).sum
  reference lengths dataOffset := ⟨dataOffset % 2 ^ 32, descriptorOf lengths⟩
  prefixBytes := prefixBytes
  offset_reference _ _ below := Nat.mod_eq_of_lt below
  length_prefixBytes _ := length_prefixBytes _
  writes_reference offsets dataOffset short described := by
    change writeBlockReference offsets dataOffset = _
    rw [writeBlockReference, foldlM_describe (Nat.le_trans short small) described]
    rfl
  writesPrefix _ _ := rfl
  reads short described front _ _ last :=
    readRefrencedBlock_spec small short (fun length mem => (described length mem).1) front _ last

end VariableGroupBlock

namespace FixedGroupBlock

def prefixBytes (blockSize : ℕ) (lengths : List ℕ) : List UInt8 :=
  lengths.map UInt8.ofNat ++ replicate (blockSize - lengths.length) 0

theorem mapM_prefixByte {lengths : List ℕ} (held : ∀ length ∈ lengths, length ≤ 255) :
    lengths.mapM prefixByte = .ok (lengths.map UInt8.ofNat) :=
  Lib.mapM_ok fun length mem => if_neg (Nat.not_lt.2 (held length mem))

/-- A length that does not fit one byte ends the construction. -/
theorem mapM_prefixByte_error : ∀ {lengths : List ℕ}, (∃ length ∈ lengths, 255 < length) →
    ∃ length, lengths.mapM prefixByte = .error (.tooLargeDataLength length)
  | [], large => absurd large (by simp)
  | length :: lengths, large => by
    rw [mapM_cons]
    by_cases here : length > 255
    · exact ⟨length, by rw [prefixByte, if_pos here]; rfl⟩
    · have rest : ∃ later ∈ lengths, 255 < later := by
        obtain ⟨later, mem, above⟩ := large
        rcases mem_cons.1 mem with rfl | mem
        · exact absurd above here
        · exact ⟨later, mem, above⟩
      obtain ⟨later, failed⟩ := mapM_prefixByte_error rest
      refine ⟨later, ?_⟩
      rw [prefixByte, if_neg here, failed]
      rfl

/-- The loop of `ReadRefrencedBlock` runs over the bytes, those that pad the prefix included. -/
theorem skipStrings_spec {values rest : List UInt8} : ∀ (count : ℕ) {bytes : List UInt8} {it : ℕ}, count ≤ bytes.length →
    values.drop it = bytes ++ rest → ∀ data : ℕ,
      skipStrings values count data it = .ok (data + ((bytes.take count).map UInt8.toNat).sum, it + count) ∧
        values.drop (it + count) = bytes.drop count ++ rest
  | 0, _, _, _, front, _ => ⟨rfl, front⟩
  | count + 1, byte :: bytes, it, enough, front, data => by
    obtain ⟨skipped, after⟩ :=
      skipStrings_spec count (Nat.le_of_succ_le_succ enough) (drop_succ front) (data + byte.toNat)
    constructor
    · rw [skipStrings, readByte_drop front]
      change skipStrings values count (data + byte.toNat) (it + 1) = _
      rw [skipped, take_succ_cons, map_cons, sum_cons, Nat.add_assoc, Nat.add_assoc, Nat.add_comm 1]
    · rw [drop_succ_cons, ← after, Nat.add_assoc, Nat.add_comm 1]

section Prefix

variable {blockSize : ℕ} {lengths : List ℕ}

theorem length_prefixBytes (short : lengths.length ≤ blockSize) : (prefixBytes blockSize lengths).length = blockSize := by
  rw [prefixBytes, length_append, length_map, length_replicate]
  omega

variable (held : ∀ length ∈ lengths, length ≤ 255)

include held

/-- Read as numbers, the bytes of a prefix are the lengths and zeros behind them. -/
theorem map_toNat_prefixBytes :
    (prefixBytes blockSize lengths).map UInt8.toNat = lengths ++ replicate (blockSize - lengths.length) 0 := by
  have byte : lengths.map (UInt8.toNat ∘ UInt8.ofNat) = lengths := by
    apply (map_congr_left fun length mem => ?_).trans (map_id lengths)
    have small := held length mem
    rw [comp_apply, UInt8.toNat_ofNat', id]
    omega
  rw [prefixBytes, map_append, map_map, byte, map_replicate]
  rfl

theorem sum_take_prefixBytes (count : ℕ) :
    (((prefixBytes blockSize lengths).take count).map UInt8.toNat).sum = (lengths.take count).sum := by
  rw [map_take, map_toNat_prefixBytes held, take_append]
  simp

theorem drop_prefixBytes (short : lengths.length ≤ blockSize) {localIndex : ℕ}
    (below : localIndex < blockSize) :
    ∃ byte rest, (prefixBytes blockSize lengths).drop localIndex = byte :: rest ∧ byte.toNat = lengths.getD localIndex 0 := by
  have inside : localIndex < (prefixBytes blockSize lengths).length := by rwa [length_prefixBytes short]
  refine ⟨_, _, drop_eq_getElem_cons inside, ?_⟩
  have number : ((prefixBytes blockSize lengths).map UInt8.toNat)[localIndex]? =
      some (prefixBytes blockSize lengths)[localIndex].toNat := by
    rw [getElem?_map, getElem?_eq_getElem inside]
    rfl
  rw [map_toNat_prefixBytes held, getElem?_append] at number
  rw [getD_eq_getElem?_getD]
  split_ifs at number with behind
  · rw [number, Option.getD_some]
  · have zero := eq_of_mem_replicate (mem_of_getElem? number)
    rw [zero, getElem?_eq_none (Nat.not_lt.1 behind), Option.getD_none]

end Prefix

theorem readRefrencedBlock_spec {lengths : List ℕ} (short : lengths.length ≤ blockSize)
    (held : ∀ length ∈ lengths, length ≤ 255) {values rest : List UInt8}
    (front : values.drop first = prefixBytes blockSize lengths ++ rest) {localIndex : ℕ} (inside : localIndex ≤ blockSize)
    (last : ℕ) :
    readRefrencedBlock blockSize localIndex values first last =
      .ok (first + blockSize + (lengths.take localIndex).sum,
        if localIndex < blockSize then first + blockSize + (lengths.take localIndex).sum + lengths.getD localIndex 0
        else last) := by
  obtain ⟨skipped, after⟩ :=
    skipStrings_spec localIndex (by rwa [length_prefixBytes short]) front (first + blockSize)
  rw [sum_take_prefixBytes held] at skipped
  simp only [readRefrencedBlock, skipped, bind, Except.bind]
  split_ifs with below
  · obtain ⟨byte, behind, here, number⟩ := drop_prefixBytes held short below
    rw [here] at after
    rw [readByte_drop after, number]
    rfl
  · rfl

/-- How `FixedGroupBlock` lays out its blocks. -/
def layout (blockSize : ℕ) : Layout (fixedGroupBlock blockSize) where
  Described _ := True
  Held length := length ≤ 255
  prefixLength _ := blockSize
  reference _ dataOffset := ⟨dataOffset % 2 ^ 32⟩
  prefixBytes := prefixBytes blockSize
  offset_reference _ _ below := Nat.mod_eq_of_lt below
  length_prefixBytes short := length_prefixBytes short
  writes_reference _ _ _ _ := rfl
  writesPrefix offsets held := by
    change writeBlockPrefix blockSize offsets = _
    rw [writeBlockPrefix, mapM_prefixByte held, prefixBytes]
    simp [bind, Except.bind, pure, Except.pure]
  reads short held front _ inside last := readRefrencedBlock_spec short (fun length mem => (held length mem).2) front inside last

end FixedGroupBlock

end Osrm.IndexedData
