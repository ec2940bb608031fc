import Mathlib.Data.Nat.Bitwise

/-!
# Varints

`add_varint_to_buffer` writes seven bits per byte, lowest first, with the high bit set on
every byte but the last. `decode_varint` has three ways to read them back: one byte, ten
unrolled steps where the buffer holds ten bytes, and a loop otherwise. All three agree on
what was written (`decodeVarint_varintBytes`).
-/

namespace Osrm.Protozero

abbrev Byte := BitVec 8

/-- The exceptions of `exception.hpp` that a reader throws. -/
inductive Exception
  | varintTooLong
  | unknownPbfWireType
  | endOfBuffer
  | invalidTag
  deriving DecidableEq, Repr

def maxVarintLength : ℕ := 10

/-- `add_varint_to_buffer` -/
def varintBytes (value : BitVec 64) : List Byte :=
  if 0x80#64 ≤ value then ((value &&& 0x7f#64) ||| 0x80#64).setWidth 8 :: varintBytes (value >>> 7) else [value.setWidth 8]
termination_by value.toNat
decreasing_by
  rename_i large
  have : 128 ≤ value.toNat := large
  simp only [BitVec.toNat_ushiftRight, Nat.shiftRight_eq_div_pow]
  omega

/-- The unrolled steps of `decode_varint_impl`; the tenth byte only carries the highest bit. -/
def decodeUnrolled (shift : ℕ) (val : BitVec 64) : List Byte → Except Exception (BitVec 64 × List Byte)
  | [] => .error .endOfBuffer
  | b :: data =>
    if shift < 63 then
      let val := val ||| ((b.signExtend 64 &&& 0x7f#64) <<< shift)
      if b.msb then decodeUnrolled (shift + 7) val data else .ok (val, data)
    else if b.msb then .error .varintTooLong
    else .ok (val ||| ((b.signExtend 64 &&& 0x01#64) <<< shift), data)

def decodeLoop (shift : ℕ) (val : BitVec 64) : List Byte → Except Exception (BitVec 64 × List Byte)
  | [] => .error .endOfBuffer
  | b :: data =>
    if b.msb then decodeLoop (shift + 7) (val ||| ((b.signExtend 64 &&& 0x7f#64) <<< shift)) data
    else .ok (val ||| (b.signExtend 64 <<< shift), data)

def decodeVarintImpl (data : List Byte) : Except Exception (BitVec 64 × List Byte) :=
  if maxVarintLength ≤ data.length then decodeUnrolled 0 0#64 data else decodeLoop 0 0#64 data

def decodeVarint (data : List Byte) : Except Exception (BitVec 64 × List Byte) :=
  match data with
  | b :: rest => if b.signExtend 64 &&& 0x80#64 = 0#64 then .ok (b.signExtend 64, rest) else decodeVarintImpl data
  | [] => decodeVarintImpl data

/-- The bytes that continue a varint. -/
def continued (data : List Byte) : ℕ := (data.takeWhile (·.msb)).length

def skipVarint (data : List Byte) : Except Exception (List Byte) :=
  if maxVarintLength ≤ continued data then .error .varintTooLong
  else if continued data = data.length then .error .endOfBuffer
  else .ok (data.drop (continued data + 1))

section Rest

variable {data rest : List Byte}

theorem length_decodeUnrolled : ∀ {data : List Byte} {shift : ℕ} {val value : BitVec 64},
    decodeUnrolled shift val data = .ok (value, rest) → rest.length < data.length
  | b :: data, shift, val, value, read => by
    rw [decodeUnrolled] at read
    split_ifs at read
    · exact (length_decodeUnrolled read).trans (Nat.lt_succ_self _)
    · cases read
      exact Nat.lt_succ_self _
    · cases read
      exact Nat.lt_succ_self _

theorem length_decodeLoop : ∀ {data : List Byte} {shift : ℕ} {val value : BitVec 64},
    decodeLoop shift val data = .ok (value, rest) → rest.length < data.length
  | b :: data, shift, val, value, read => by
    rw [decodeLoop] at read
    split_ifs at read
    · exact (length_decodeLoop read).trans (Nat.lt_succ_self _)
    · cases read
      exact Nat.lt_succ_self _

/-- A varint takes at least one byte. -/
theorem length_decodeVarint {value : BitVec 64} (read : decodeVarint data = .ok (value, rest)) : rest.length < data.length := by
  have whole : decodeVarintImpl data = .ok (value, rest) → rest.length < data.length := by
    rw [decodeVarintImpl]
    split_ifs
    · exact length_decodeUnrolled
    · exact length_decodeLoop
  unfold decodeVarint at read
  split at read
  · split_ifs at read
    · cases read
      exact Nat.lt_succ_self _
    · exact whole read
  · exact whole read

theorem length_skipVarint (skipped : skipVarint data = .ok rest) : rest.length ≤ data.length := by
  unfold skipVarint at skipped
  split_ifs at skipped
  cases skipped
  exact (data.drop_sublist _).length_le

end Rest

section Bits

variable {b : Byte}

theorem signExtend_low : (b.signExtend 64 &&& 0x7f#64).toNat = b.toNat % 128 := by
  revert b
  decide

theorem signExtend_lowest : (b.signExtend 64 &&& 0x01#64).toNat = b.toNat % 2 := by
  revert b
  decide

theorem signExtend_last (last : b.msb = false) : (b.signExtend 64).toNat = b.toNat := by
  revert b
  decide

theorem high_bit : b.signExtend 64 &&& 0x80#64 = 0#64 ↔ b.msb = false := by
  revert b
  decide

/-- Filling in bits above those of `val` is an addition. -/
theorem or_shiftLeft {val chunk : BitVec 64} {shift : ℕ} (low : val.toNat < 2 ^ shift) (fits : chunk.toNat * 2 ^ shift < 2 ^ 64) :
    (val ||| (chunk <<< shift)).toNat = val.toNat + chunk.toNat * 2 ^ shift := by
  rw [BitVec.toNat_or, BitVec.toNat_shiftLeft, Nat.shiftLeft_eq, Nat.mod_eq_of_lt fits, Nat.or_comm, Nat.mul_comm,
    ← Nat.two_pow_add_eq_or_of_lt low]
  omega

end Bits

section Bytes

variable {value : BitVec 64}

/-- The bytes of a small value. -/
theorem varintBytes_small (small : value.toNat < 128) : varintBytes value = [BitVec.ofNat 8 value.toNat] := by
  have last : ¬ 0x80#64 ≤ value := by
    intro large
    have : 128 ≤ value.toNat := large
    omega
  rw [varintBytes, if_neg last]
  rfl

/-- The bytes of a large value: the lowest seven bits, then the others. -/
theorem varintBytes_large (large : 128 ≤ value.toNat) :
    varintBytes value = BitVec.ofNat 8 (value.toNat % 128 + 128) :: varintBytes (value >>> 7) := by
  have more : 0x80#64 ≤ value := large
  have byte : ((value &&& 0x7f#64) ||| 0x80#64).toNat = value.toNat % 128 + 128 := by
    have low : (value &&& 0x7f#64).toNat = value.toNat % 128 := by
      exact Nat.and_two_pow_sub_one_eq_mod value.toNat 7
    have high : ((value &&& 0x7f#64) ||| (1#64 <<< 7)).toNat = (value &&& 0x7f#64).toNat + (1#64).toNat * 2 ^ 7 :=
      or_shiftLeft (by omega) (by decide)
    rw [low] at high
    exact high
  rw [varintBytes, if_pos more]
  congr 1
  apply BitVec.eq_of_toNat_eq
  rw [BitVec.toNat_setWidth, byte, BitVec.toNat_ofNat]

theorem toNat_shiftRight_seven : (value >>> 7).toNat = value.toNat / 128 := by
  rw [BitVec.toNat_ushiftRight, Nat.shiftRight_eq_div_pow]

theorem varintBytes_ne_nil (value : BitVec 64) : varintBytes value ≠ [] := by
  rw [varintBytes]
  split
  · exact List.cons_ne_nil _ _
  · exact List.cons_ne_nil _ _

theorem length_varintBytes_le : ∀ k (value : BitVec 64), value.toNat < 2 ^ (7 * (k + 1)) →
    (varintBytes value).length ≤ k + 1 := by
  intro k
  induction k with
  | zero =>
    intro value small
    rw [varintBytes_small small]
    rfl
  | succ k ih =>
    intro value bound
    by_cases small : value.toNat < 128
    · rw [varintBytes_small small]
      simp
    · have shorter := ih (value >>> 7) (by
        rw [toNat_shiftRight_seven, Nat.div_lt_iff_lt_mul (by decide)]
        rw [show 7 * (k + 1 + 1) = 7 * (k + 1) + 7 by omega, pow_add] at bound
        exact bound)
      rw [varintBytes_large (by omega), List.length_cons]
      omega

/-- A varint has at most ten bytes. -/
theorem length_varintBytes (value : BitVec 64) : (varintBytes value).length ≤ maxVarintLength := by
  apply length_varintBytes_le 9
  omega

end Bytes

section Decode

variable (rest : List Byte) {v : ℕ}

theorem ofNat_of_toNat {x : BitVec 64} {m : ℕ} (eq : x.toNat = m) : BitVec.ofNat 64 m = x := by
  rw [← eq, BitVec.ofNat_toNat, BitVec.setWidth_eq]

/-- A byte of the lowest seven bits of `v`, with and without the high bit. -/
theorem byte_small (small : v < 128) : (BitVec.ofNat 8 v).msb = false ∧ (BitVec.ofNat 8 v).toNat = v := by
  have byte : (BitVec.ofNat 8 v).toNat = v := by
    rw [BitVec.toNat_ofNat]
    omega
  refine ⟨?_, byte⟩
  rw [BitVec.msb_eq_decide]
  exact decide_eq_false (by omega)

theorem byte_large : (BitVec.ofNat 8 (v % 128 + 128)).msb = true ∧ (BitVec.ofNat 8 (v % 128 + 128)).toNat = v % 128 + 128 := by
  have byte : (BitVec.ofNat 8 (v % 128 + 128)).toNat = v % 128 + 128 := by
    rw [BitVec.toNat_ofNat]
    omega
  refine ⟨?_, byte⟩
  rw [BitVec.msb_eq_decide]
  exact decide_eq_true (by omega)

/-- What remains of a value that fits above `shift`, seven bits further. -/
theorem shift_seven (v shift : ℕ) : v % 128 * 2 ^ shift + v / 128 * 2 ^ (shift + 7) = v * 2 ^ shift := by
  rw [pow_add, mul_comm (2 ^ shift), ← mul_assoc, ← add_mul]
  congr 1
  omega

/-- The step over a byte that continues the value. -/
theorem continue_val {val : BitVec 64} {shift : ℕ} (low : val.toNat < 2 ^ shift) (fits : v * 2 ^ shift < 2 ^ 64) :
    (val ||| (((BitVec.ofNat 8 (v % 128 + 128)).signExtend 64 &&& 0x7f#64) <<< shift)).toNat = val.toNat + v % 128 * 2 ^ shift ∧
      val.toNat + v % 128 * 2 ^ shift < 2 ^ (shift + 7) ∧ v / 128 * 2 ^ (shift + 7) < 2 ^ 64 := by
  have split := shift_seven v shift
  have chunk : ((BitVec.ofNat 8 (v % 128 + 128)).signExtend 64 &&& 0x7f#64).toNat = v % 128 := by
    rw [signExtend_low, byte_large.2]
    omega
  refine ⟨?_, ?_, by omega⟩
  · rw [or_shiftLeft low (by rw [chunk]; omega), chunk]
  · have : v % 128 * 2 ^ shift ≤ 127 * 2 ^ shift := Nat.mul_le_mul_right _ (by omega)
    rw [pow_add]
    omega

/-- The loop reads back what remains of a value. -/
theorem decodeLoop_varintBytes (value : BitVec 64) : ∀ (val : BitVec 64) (shift : ℕ), val.toNat < 2 ^ shift →
    value.toNat * 2 ^ shift < 2 ^ 64 → decodeLoop shift val (varintBytes value ++ rest) =
      .ok (BitVec.ofNat 64 (val.toNat + value.toNat * 2 ^ shift), rest) := by
  induction value using varintBytes.induct with
  | case2 value last =>
    intro val shift low fits
    have small : value.toNat < 128 := not_le.1 last
    obtain ⟨msb, byte⟩ := byte_small small
    have chunk : ((BitVec.ofNat 8 value.toNat).signExtend 64).toNat = value.toNat := by rw [signExtend_last msb, byte]
    rw [varintBytes_small small, List.singleton_append, decodeLoop, msb, if_neg Bool.false_ne_true]
    have sum := or_shiftLeft low (by rw [chunk]; exact fits)
    rw [chunk] at sum
    rw [ofNat_of_toNat sum]
  | case1 value more ih =>
    intro val shift low fits
    have large : 128 ≤ value.toNat := more
    obtain ⟨eq, low', fits'⟩ := continue_val low fits
    rw [varintBytes_large large, List.cons_append, decodeLoop, byte_large.1, if_pos rfl]
    rw [ih _ _ (by rw [eq]; exact low') (by rw [toNat_shiftRight_seven]; exact fits'), eq, toNat_shiftRight_seven, add_assoc,
      shift_seven]

/-- The unrolled steps read back what remains of a value after `i` bytes. -/
theorem decodeUnrolled_varintBytes (value : BitVec 64) : ∀ (val : BitVec 64) (i : ℕ), i ≤ 9 → val.toNat < 2 ^ (7 * i) →
    value.toNat * 2 ^ (7 * i) < 2 ^ 64 → decodeUnrolled (7 * i) val (varintBytes value ++ rest) =
      .ok (BitVec.ofNat 64 (val.toNat + value.toNat * 2 ^ (7 * i)), rest) := by
  induction value using varintBytes.induct with
  | case2 value last =>
    intro val i le low fits
    have small : value.toNat < 128 := not_le.1 last
    obtain ⟨msb, byte⟩ := byte_small small
    rw [varintBytes_small small, List.singleton_append, decodeUnrolled, msb]
    by_cases tenth : i = 9
    · -- the last byte carries a single bit
      subst tenth
      have chunk : ((BitVec.ofNat 8 value.toNat).signExtend 64 &&& 0x01#64).toNat = value.toNat := by
        rw [signExtend_lowest]
        omega
      have sum := or_shiftLeft low (by rw [chunk]; exact fits)
      rw [chunk] at sum
      rw [ofNat_of_toNat sum]
      rfl
    · have chunk : ((BitVec.ofNat 8 value.toNat).signExtend 64 &&& 0x7f#64).toNat = value.toNat := by
        rw [signExtend_low]
        omega
      have sum := or_shiftLeft low (by rw [chunk]; exact fits)
      rw [chunk] at sum
      rw [ofNat_of_toNat sum, if_pos (by omega)]
      rfl
  | case1 value more ih =>
    intro val i le low fits
    have large : 128 ≤ value.toNat := more
    have early : i < 9 := by
      by_contra late
      obtain rfl : i = 9 := by omega
      omega
    obtain ⟨eq, low', fits'⟩ := continue_val low fits
    rw [varintBytes_large large, List.cons_append, decodeUnrolled, byte_large.1, if_pos (by omega), if_pos rfl]
    have next := ih _ (i + 1) early (by rw [eq]; exact low') (by rw [toNat_shiftRight_seven]; exact fits')
    rw [show 7 * i + 7 = 7 * (i + 1) by omega]
    rw [next, eq, toNat_shiftRight_seven, add_assoc, show 7 * (i + 1) = 7 * i + 7 by omega, shift_seven]

/-- **Decoding a varint undoes encoding**, whatever follows it. -/
theorem decodeVarint_varintBytes (value : BitVec 64) : decodeVarint (varintBytes value ++ rest) = .ok (value, rest) := by
  have fits : value.toNat * 2 ^ 0 < 2 ^ 64 := by
    rw [pow_zero, mul_one]
    exact value.isLt
  have zero : (0#64).toNat < 2 ^ 0 := by decide
  have impl : decodeVarintImpl (varintBytes value ++ rest) = .ok (value, rest) := by
    have whole : BitVec.ofNat 64 ((0#64).toNat + value.toNat * 2 ^ 0) = value := by simp
    unfold decodeVarintImpl
    split
    · have := decodeUnrolled_varintBytes rest value 0#64 0 (by omega) zero fits
      rw [whole] at this
      exact this
    · have := decodeLoop_varintBytes rest value 0#64 0 zero fits
      rw [whole] at this
      exact this
  obtain ⟨b, data, first⟩ : ∃ b data, varintBytes value ++ rest = b :: data :=
    List.exists_cons_of_ne_nil (List.append_ne_nil_of_left_ne_nil (varintBytes_ne_nil value) rest)
  rw [first] at impl ⊢
  unfold decodeVarint
  split
  · rename_i b' rest' eq
    cases eq
    split
    · -- a value of one byte
      rename_i clear
      have msb := high_bit.1 clear
      by_cases small : value.toNat < 128
      · rw [varintBytes_small small] at first
        cases first
        congr 2
        apply BitVec.eq_of_toNat_eq
        rw [signExtend_last msb, (byte_small small).2]
      · rw [varintBytes_large (by omega)] at first
        cases first
        rw [byte_large.1] at msb
        cases msb
    · exact impl
  · exact impl

end Decode

end Osrm.Protozero
