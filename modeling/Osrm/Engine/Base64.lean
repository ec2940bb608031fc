import Osrm.Lib.BitGroups
import Osrm.Lib.Failure
import Mathlib.Data.List.Count

/-!
# Base64 and hints in URLs

`encodeBase64` fills the bytes up to a multiple of three and writes the characters of the bytes
that were there, then a `=` for each byte that was filled in. `decodeBase64` counts the `=`
anywhere in the text and drops as many bytes at the end. A hint is the memory of its segment
hints in base64, with two characters exchanged for others that are safe in a URL.

The archive iterators of boost, which regroup the bits and name the values of six, are a parameter.
-/

namespace Osrm.Base64

open Function List

open Lib

abbrev Byte := BitVec 8

/-- What the decoder does on a bad text: an operation outside of a string or of the result, or the exception of
`binary_from_base64`. -/
inductive Fault
  | outOfRange
  | dataflowException
  deriving DecidableEq, Repr

def upperCase : List Char :=
  ['A', 'B', 'C', 'D', 'E', 'F', 'G', 'H', 'I', 'J', 'K', 'L', 'M',
    'N', 'O', 'P', 'Q', 'R', 'S', 'T', 'U', 'V', 'W', 'X', 'Y', 'Z']

def lowerCase : List Char :=
  ['a', 'b', 'c', 'd', 'e', 'f', 'g', 'h', 'i', 'j', 'k', 'l', 'm',
    'n', 'o', 'p', 'q', 'r', 's', 't', 'u', 'v', 'w', 'x', 'y', 'z']

def digits : List Char := ['0', '1', '2', '3', '4', '5', '6', '7', '8', '9']

/-- The characters of base64 in the order of their values. -/
def alphabet : List Char := upperCase ++ lowerCase ++ digits ++ ['+', '/']

/-- `binary_from_base64`, which knows the characters of the alphabet, and `transform_width<…, 8, 6>`: four characters are three
bytes. -/
structure BinaryFromBase64 where
  value : Char → Except Fault (BitVec 6)
  octets : List (BitVec 6) → List Byte
  value_of_mem : ∀ c ∈ alphabet, ∃ v, value c = .ok v
  length_octets : ∀ values, 4 ∣ values.length → (octets values).length = values.length / 4 * 3

/-- The archive iterators in both directions, which keep the bits, the highest first. The bits of a last group that is not
full are followed by zeros. `base64_from_binary` writes the values in the order of the alphabet. -/
structure ArchiveIterators extends BinaryFromBase64 where
  char : BitVec 6 → Char
  sextets : List Byte → List (BitVec 6)
  char_mem : ∀ v, char v ∈ alphabet
  char_zero : char 0#6 = 'A'
  value_char : ∀ v, value (char v) = .ok v
  bits_octets : ∀ values, 4 ∣ values.length → bits (octets values) = bits values
  bits_sextets : ∀ bytes, ∃ k < 6, bits (sextets bytes) = bits bytes ++ replicate k false

def exchange (old new c : Char) : Char := if c = old then new else c

def replace (old new : Char) (text : List Char) : List Char := text.map (exchange old new)

/-- The loop of `encodeBase64` that fills up the bytes, with the number of bytes that it adds. -/
def padBytes (bytesToPad : ℕ) (bytes : List Byte) : ℕ × List Byte :=
  if bytes.length % 3 ≠ 0 then padBytes (bytesToPad + 1) (bytes ++ [0#8]) else (bytesToPad, bytes)
termination_by (3 - bytes.length % 3) % 3
decreasing_by
  rw [length_append, length_singleton]
  omega

def encodeBase64 (boost : ArchiveIterators) (data : List Byte) : List Char :=
  let padded := padBytes 0 data
  (boost.sextets (padded.2.take (padded.2.length - padded.1))).map boost.char ++ replicate padded.1 '='

/-- `decodeBase64`: the bytes that are written to the output. -/
def decodeBase64 (boost : BinaryFromBase64) (encoded : List Char) : Except Fault (List Byte) := do
  let numPadded := encoded.count '='
  let values ← (replace '=' 'A' encoded).mapM boost.value
  let decoded := boost.octets values
  if decoded.length < numPadded then .error .outOfRange
  else .ok (decoded.take (decoded.length - numPadded))

/-- `decodeBase64Bytewise` for an object of `size` bytes, which are not initialized. -/
def decodeBase64Bytewise (boost : BinaryFromBase64) (size : ℕ) (encoded : List Char) : Except Fault (List (Option Byte)) := do
  let decoded ← decodeBase64 boost encoded
  if size < decoded.length then .error .outOfRange
  else .ok (decoded.map some ++ replicate (size - decoded.length) none)

/-! ### Hints -/

def segmentHintSize : ℕ := 84

def encodedSegmentHintSize : ℕ := 112

def SegmentHintBytes := { bytes : List Byte // bytes.length = segmentHintSize }

def SegmentHintBytes.toBase64 (boost : ArchiveIterators) (hint : SegmentHintBytes) : List Char :=
  replace '/' '_' (replace '+' '-' (encodeBase64 boost hint.val))

def segmentHintFromBase64 (boost : BinaryFromBase64) (base64Hint : List Char) : Except Fault (List (Option Byte)) :=
  decodeBase64Bytewise boost segmentHintSize (replace '_' '/' (replace '-' '+' base64Hint))

def hintToBase64 (boost : ArchiveIterators) (segmentHints : List SegmentHintBytes) : List Char :=
  segmentHints.flatMap (·.toBase64 boost)

def hintFromBase64 (boost : BinaryFromBase64) (base64Hint : List Char) : Except Fault (List (List (Option Byte))) :=
  let numHints := base64Hint.length / encodedSegmentHintSize
  (range numHints).mapM fun i =>
    segmentHintFromBase64 boost ((base64Hint.drop (i * encodedSegmentHintSize)).take encodedSegmentHintSize)

def base64Chars : List Char := lowerCase ++ upperCase ++ digits ++ ['-', '_', '=']

/-! ### Characters -/

/-- The characters that are not safe in a URL come back. -/
theorem exchange_of_mem {c : Char} (mem : c ∈ alphabet) :
    c ≠ '=' ∧ exchange '_' '/' (exchange '-' '+' (exchange '/' '_' (exchange '+' '-' c))) = c := by
  have all : alphabet.all (fun c => c ≠ '=' ∧
      exchange '_' '/' (exchange '-' '+' (exchange '/' '_' (exchange '+' '-' c))) = c) = true := by
    decide +kernel
  exact of_decide_eq_true (all_eq_true.1 all c mem)

/-- An accepted character has a value. -/
theorem exchange_mem_alphabet {c : Char} (accepted : c ∈ base64Chars) :
    exchange '=' 'A' (exchange '_' '/' (exchange '-' '+' c)) ∈ alphabet := by
  have all : base64Chars.all (fun c => exchange '=' 'A' (exchange '_' '/' (exchange '-' '+' c)) ∈ alphabet) = true := by
    decide +kernel
  exact of_decide_eq_true (all_eq_true.1 all c accepted)

theorem exchange_eq_padding (c : Char) : exchange '_' '/' (exchange '-' '+' c) = '=' ↔ c = '=' := by
  unfold exchange
  split_ifs <;> simp_all

/-- The exchange leaves the padding alone. -/
theorem count_padding (text : List Char) : (replace '_' '/' (replace '-' '+' text)).count '=' = text.count '=' := by
  rw [replace, replace, map_map, count_eq_countP, countP_map]
  apply countP_congr
  intro c _
  simp [exchange_eq_padding]

/-! ### Any text that is accepted -/

section Accepted

variable (boost : BinaryFromBase64)

section

variable {text : List Char} (length : text.length = encodedSegmentHintSize) (accepted : ∀ c ∈ text, c ∈ base64Chars)

include length accepted

/-- A segment hint of the right length and alphabet: as many bytes are missing at the end as there are paddings in it. -/
theorem segmentHintFromBase64_eq :
    ∃ bytes : List Byte, bytes.length = segmentHintSize ∧ segmentHintFromBase64 boost text =
      if segmentHintSize < text.count '=' then .error .outOfRange
      else .ok ((bytes.take (segmentHintSize - text.count '=')).map some ++ replicate (text.count '=') none) := by
  obtain ⟨sextets, values, lengthValues⟩ : ∃ sextets,
      (replace '=' 'A' (replace '_' '/' (replace '-' '+' text))).mapM boost.value = .ok sextets ∧
        sextets.length = encodedSegmentHintSize := by
    refine ⟨_, Lib.mapM_ok (g := fun c => (boost.value c).toOption.getD 0#6) fun c hc => ?_, by simp [replace, length]⟩
    rw [replace, replace, replace, map_map, map_map] at hc
    obtain ⟨c', hc', rfl⟩ := mem_map.1 hc
    obtain ⟨v, value⟩ := boost.value_of_mem _ (exchange_mem_alphabet (accepted c' hc'))
    simp [value, Except.toOption]
  have lengthOctets : (boost.octets sextets).length = segmentHintSize := by
    rw [boost.length_octets sextets (by rw [lengthValues]; decide), lengthValues]
    rfl
  refine ⟨boost.octets sextets, lengthOctets, ?_⟩
  rw [segmentHintFromBase64, decodeBase64Bytewise, decodeBase64, values, count_padding]
  show (Except.bind (if (boost.octets sextets).length < text.count '=' then _ else _) _) = _
  rw [lengthOctets]
  split
  · rfl
  · have written : ((boost.octets sextets).take (segmentHintSize - text.count '=')).length = segmentHintSize - text.count '=' := by
      rw [length_take]
      omega
    show (if segmentHintSize < ((boost.octets sextets).take _).length then _ else _) = _
    rw [written, if_neg (by omega), Nat.sub_sub_self (by omega)]

/-- **Decoding an accepted hint** writes all of the segment hint exactly if there is no padding in it. It leaves the string
exactly if there are more paddings than bytes. -/
theorem segmentHintFromBase64_iff :
    ((∃ bytes : List Byte, bytes.length = segmentHintSize ∧ segmentHintFromBase64 boost text = .ok (bytes.map some)) ↔
      '=' ∉ text) ∧
    (segmentHintFromBase64 boost text = .error .outOfRange ↔ segmentHintSize < text.count '=') := by
  obtain ⟨bytes, size, decoded⟩ := segmentHintFromBase64_eq boost length accepted
  rw [decoded]
  constructor
  · constructor
    · intro written padding
      obtain ⟨all, _, written⟩ := written
      have some := count_pos_iff.2 padding
      split at written
      · cases written
      · have last : none ∈ all.map Option.some := by
          rw [← Except.ok.inj written]
          exact mem_append_right _ (mem_replicate.2 ⟨some.ne', Eq.refl none⟩)
        obtain ⟨_, _, wrong⟩ := mem_map.1 last
        cases wrong
    · intro none
      rw [count_eq_zero.2 none]
      exact ⟨bytes, size, by simp [← size]⟩
  · split
    · rename_i large
      exact ⟨fun _ => large, fun _ => rfl⟩
    · rename_i small
      exact ⟨nofun, fun large => (small large).elim⟩

end

end Accepted

/-! ### What was encoded -/

/-- The bytes are filled up to a multiple of three. -/
theorem padBytes_eq (p : ℕ) (bytes : List Byte) :
    padBytes p bytes = (p + (3 - bytes.length % 3) % 3, bytes ++ replicate ((3 - bytes.length % 3) % 3) 0#8) := by
  fun_induction padBytes p bytes with
  | case1 p bytes more ih =>
    have fewer : (3 - bytes.length % 3) % 3 = (3 - (bytes ++ [0#8]).length % 3) % 3 + 1 := by
      rw [length_append, length_singleton]
      omega
    rw [ih, fewer, append_assoc, Nat.add_assoc, Nat.add_comm 1]
    rfl
  | case2 p bytes full =>
    have none : (3 - bytes.length % 3) % 3 = 0 := by omega
    rw [none]
    exact congrArg (p, ·) (append_nil bytes).symm

section Encoded

variable (boost : ArchiveIterators) (hint : SegmentHintBytes) (data : List Byte) (values : List (BitVec 6))

theorem encodeBase64_eq : encodeBase64 boost data =
    (boost.sextets data).map boost.char ++ replicate ((3 - data.length % 3) % 3) '=' := by
  rw [encodeBase64, padBytes_eq]
  simp

/-- The sextets of some bytes, and those that padding stands for, are groups of four. -/
theorem length_sextets : ∃ k, bits (boost.sextets data) = bits data ++ replicate k false ∧
    (boost.sextets data).length + (3 - data.length % 3) % 3 = (data.length + (3 - data.length % 3) % 3) / 3 * 4 ∧
    k + 6 * ((3 - data.length % 3) % 3) = 8 * ((3 - data.length % 3) % 3) := by
  obtain ⟨k, few, same⟩ := boost.bits_sextets data
  have length := congrArg length same
  rw [length_bits, length_append, length_bits, length_replicate] at length
  exact ⟨k, same, by omega, by omega⟩

theorem mapM_value (k : ℕ) :
    (replace '=' 'A' (values.map boost.char ++ replicate k '=')).mapM boost.value = .ok (values ++ replicate k 0#6) := by
  have chars : replace '=' 'A' (values.map boost.char ++ replicate k '=') =
      (values ++ replicate k 0#6).map boost.char := by
    rw [replace, map_append, map_append, map_map, map_replicate, map_replicate, boost.char_zero]
    congr 1
    apply map_congr_left
    intro v _
    exact if_neg (exchange_of_mem (boost.char_mem v)).1
  rw [chars, mapM_map]
  exact (Lib.mapM_ok (g := id) fun v _ => boost.value_char v).trans (by rw [map_id])

theorem count_char (k : ℕ) :
    (values.map boost.char ++ replicate k '=').count '=' = k := by
  rw [count_append, count_replicate_self, count_eq_zero.2, Nat.zero_add]
  intro padding
  obtain ⟨v, _, same⟩ := mem_map.1 padding
  exact (exchange_of_mem (boost.char_mem v)).1 same

/-- **Decoding what was encoded.** -/
theorem decodeBase64_encode :
    decodeBase64 boost.toBinaryFromBase64 (encodeBase64 boost data) = .ok data := by
  obtain ⟨k, same, length, fill⟩ := length_sextets boost data
  have four : 4 ∣ (boost.sextets data ++ replicate ((3 - data.length % 3) % 3) 0#6).length := by
    rw [length_append, length_replicate, length]
    exact Nat.dvd_mul_left 4 _
  have octets : boost.octets (boost.sextets data ++ replicate ((3 - data.length % 3) % 3) 0#6) =
      data ++ replicate ((3 - data.length % 3) % 3) 0#8 := by
    apply bits_injective
    · rw [boost.length_octets _ four]
      simp only [length_append, length_replicate]
      omega
    · rw [boost.bits_octets _ four, bits_append, bits_append, bits_replicate_zero, bits_replicate_zero, same, append_assoc,
        replicate_append_replicate, fill]
  rw [decodeBase64, encodeBase64_eq, count_char, mapM_value]
  show (if (boost.octets _).length < _ then _ else _) = _
  rw [octets, if_neg (by simp), length_append, length_replicate, Nat.add_sub_cancel, take_left]

/-- A segment hint needs no padding. -/
theorem toBase64_eq : hint.toBase64 boost =
    (boost.sextets hint.val).map fun v => exchange '/' '_' (exchange '+' '-' (boost.char v)) := by
  have full : (3 - hint.val.length % 3) % 3 = 0 := by rw [hint.property]; decide
  rw [SegmentHintBytes.toBase64, encodeBase64_eq, full, replicate_zero, append_nil, replace, replace, map_map,
    map_map]
  rfl

theorem length_toBase64 : (hint.toBase64 boost).length = encodedSegmentHintSize := by
  obtain ⟨_, _, length, _⟩ := length_sextets boost hint.val
  rw [hint.property] at length
  rw [toBase64_eq, length_map]
  exact length

/-- The exchanged characters come back. -/
theorem replace_toBase64 :
    replace '_' '/' (replace '-' '+' (hint.toBase64 boost)) = encodeBase64 boost hint.val := by
  have full : (3 - hint.val.length % 3) % 3 = 0 := by rw [hint.property]; decide
  rw [toBase64_eq, encodeBase64_eq, full, replicate_zero, append_nil, replace, replace, map_map, map_map]
  apply map_congr_left
  intro v _
  rw [comp_apply, comp_apply, (exchange_of_mem (boost.char_mem v)).2]

theorem segmentHintFromBase64_toBase64 :
    segmentHintFromBase64 boost.toBinaryFromBase64 (hint.toBase64 boost) = .ok (hint.val.map some) := by
  rw [segmentHintFromBase64, replace_toBase64, decodeBase64Bytewise, decodeBase64_encode]
  show (if segmentHintSize < hint.val.length then _ else _) = _
  rw [hint.property, if_neg (lt_irrefl _), Nat.sub_self, replicate_zero, append_nil]

/-- Cutting a text into pieces of equal length. -/
theorem pieces_flatMap {α β : Type} {f : α → List β} {size : ℕ} (l : List α) (length : ∀ a ∈ l, (f a).length = size) :
    (range l.length).map (fun i => ((l.flatMap f).drop (i * size)).take size) = l.map f := by
  induction l with
  | nil => rfl
  | cons a l ih =>
    have first := length a mem_cons_self
    rw [length_cons, range_succ_eq_map, map_cons, map_map, flatMap_cons]
    congr 1
    · rw [Nat.zero_mul, drop_zero, ← first, take_left]
    · rw [← ih fun a' ha' => length a' (mem_cons_of_mem a ha')]
      apply map_congr_left
      intro i _
      show ((f a ++ l.flatMap f).drop ((i + 1) * size)).take size = _
      rw [Nat.succ_mul, Nat.add_comm, ← first, drop_length_add_append]

theorem length_hintToBase64 (hints : List SegmentHintBytes) :
    (hintToBase64 boost hints).length = hints.length * encodedSegmentHintSize := by
  induction hints with
  | nil => exact (Nat.zero_mul _).symm
  | cons hint hints ih =>
    rw [hintToBase64, flatMap_cons, length_append, length_toBase64, length_cons, Nat.succ_mul, Nat.add_comm]
    exact congrArg (· + _) ih

/-- **The trip through a URL**: hints come back byte for byte, and so does every list of bytes through base64. -/
theorem hintFromBase64_hintToBase64 :
    (∀ hints : List SegmentHintBytes, hintFromBase64 boost.toBinaryFromBase64 (hintToBase64 boost hints) =
      .ok (hints.map fun hint => hint.val.map some)) ∧
    ∀ data : List Byte, decodeBase64 boost.toBinaryFromBase64 (encodeBase64 boost data) = .ok data := by
  refine ⟨fun hints => ?_, decodeBase64_encode boost⟩
  have pieces := pieces_flatMap (f := (·.toBase64 boost)) hints fun hint _ => length_toBase64 boost hint
  have number : (hintToBase64 boost hints).length / encodedSegmentHintSize = hints.length := by
    rw [length_hintToBase64]
    exact Nat.mul_div_cancel _ (by decide)
  have cut : hintFromBase64 boost.toBinaryFromBase64 (hintToBase64 boost hints) =
      (hints.map (·.toBase64 boost)).mapM (segmentHintFromBase64 boost.toBinaryFromBase64) := by
    rw [← pieces, mapM_map, hintFromBase64, number]
    rfl
  rw [cut, mapM_map]
  exact mapM_ok fun hint _ => segmentHintFromBase64_toBase64 boost hint

end Encoded

/-- The character at a place of the alphabet. -/
def base64Char (value : BitVec 6) : Char := alphabet.getD value.toNat 'A'

/-- The place of a character in the alphabet; a padding stands for zero. -/
def base64Value (c : Char) : Except Fault (BitVec 6) :=
  if c ∈ alphabet then .ok (BitVec.ofNat 6 (alphabet.idxOf c))
  else if c = '=' then .ok 0#6
  else .error .dataflowException

theorem base64Value_base64Char (value : BitVec 6) : base64Value (base64Char value) = .ok value := by
  have index : ∀ value, base64Char value ∈ alphabet ∧ BitVec.ofNat 6 (alphabet.idxOf (base64Char value)) = value := by
    decide +kernel
  rw [base64Value, if_pos (index value).1, (index value).2]

/-- Archive iterators that regroup the bits and look the values up. -/
def msbFirst : ArchiveIterators where
  value := base64Value
  char := base64Char
  value_of_mem _ mem := ⟨_, if_pos mem⟩
  char_mem := by decide +kernel
  char_zero := rfl
  value_char := base64Value_base64Char
  octets values := regroup 8 (values.length / 4 * 3) (bits values)
  length_octets values _ := length_regroup _ _
  bits_octets values four := bits_regroup _ (by rw [length_bits]; omega)
  sextets bytes := regroup 6 ((8 * bytes.length + 5) / 6)
    (bits bytes ++ replicate (6 * ((8 * bytes.length + 5) / 6) - 8 * bytes.length) false)
  bits_sextets bytes := ⟨6 * ((8 * bytes.length + 5) / 6) - 8 * bytes.length, by omega, bits_regroup _ (by
    rw [length_append, length_bits, length_replicate]
    omega)⟩

def someHint : SegmentHintBytes := ⟨(range 84).map fun i => BitVec.ofNat 8 (i * 37), by simp [segmentHintSize]⟩

theorem hintFromBase64_hintToBase64_someHint :
    hintFromBase64 msbFirst.toBinaryFromBase64 (hintToBase64 msbFirst [someHint, someHint]) =
      .ok [someHint.val.map some, someHint.val.map some] :=
  (hintFromBase64_hintToBase64 msbFirst).1 [someHint, someHint]

theorem segmentHintFromBase64_iff_zeros : ∃ bytes : List Byte, bytes.length = segmentHintSize ∧
    segmentHintFromBase64 msbFirst.toBinaryFromBase64 (replicate 112 'A') = .ok (bytes.map some) := by
  have accepted : ∀ c ∈ replicate 112 'A', c ∈ base64Chars := by
    intro c hc
    rw [eq_of_mem_replicate hc]
    decide
  have noPadding : '=' ∉ replicate 112 'A' := by
    intro padding
    exact absurd (eq_of_mem_replicate padding) (by decide)
  have length : (replicate 112 'A').length = encodedSegmentHintSize := length_replicate
  exact (segmentHintFromBase64_iff msbFirst.toBinaryFromBase64 length accepted).1.2 noPadding

/-- Padding everywhere, and one padding. -/
theorem segmentHintFromBase64_padding :
    ((replicate 112 '=').all (base64Chars.contains ·) = true ∧
      segmentHintFromBase64 msbFirst.toBinaryFromBase64 (replicate 112 '=') = .error .outOfRange) ∧
    ((replicate 111 'A' ++ ['=']).all (base64Chars.contains ·) = true ∧
      segmentHintFromBase64 msbFirst.toBinaryFromBase64 (replicate 111 'A' ++ ['=']) =
        .ok (replicate 83 (some 0) ++ [none])) := by
  decide +kernel

end Osrm.Base64
