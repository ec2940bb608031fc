import Mathlib.Algebra.Group.Nat.Defs
import Mathlib.Data.List.GetD

/-!
# Fields of bits in a list of words

A list of words is one long string of bits, the words one after another and each from its lowest
bit on. A field is a range of this string; it may run over the end of a word. `Reads` says what
number a field holds and `Written` what writing a field does to the string.
-/

namespace Osrm.Lib.BitFields

open List

variable {w : ℕ}

def bit (words : List (BitVec w)) (p : ℕ) : Bool := (words.getD (p / w) 0).getLsbD (p % w)

/-- The number in the field of `width` bits from `start` on. -/
def Reads (words : List (BitVec w)) (start width : ℕ) (v : BitVec w) : Prop :=
  ∀ i < w, v.getLsbD i = (decide (i < width) && bit words (start + i))

/-- The field of `width` bits from `start` on now holds the low bits of `v`, and no other bit has changed. -/
structure Written (words after : List (BitVec w)) (start width : ℕ) (v : BitVec w) : Prop where
  length : after.length = words.length
  bits : ∀ p, bit after p = if start ≤ p ∧ p < start + width then v.getLsbD (p - start) else bit words p

theorem Reads.unique {words : List (BitVec w)} {start width : ℕ} {v v' : BitVec w} (reads : Reads words start width v)
    (reads' : Reads words start width v') : v = v' := by
  apply BitVec.eq_of_getLsbD_eq
  intro i inside
  rw [reads i inside, reads' i inside]

theorem Reads.congr {words words' : List (BitVec w)} {start width : ℕ} {v : BitVec w} (reads : Reads words start width v)
    (same : ∀ p, start ≤ p → p < start + width → bit words' p = bit words p) : Reads words' start width v := by
  intro i inside
  rw [reads i inside]
  by_cases low : i < width
  · rw [same (start + i) (Nat.le_add_right _ _) (Nat.add_lt_add_left low start)]
  · simp [low]

variable {words after : List (BitVec w)} {start width : ℕ} {v : BitVec w}

/-- What was written is read back. -/
theorem Written.reads (written : Written words after start width v) (small : v.toNat < 2 ^ width) : Reads after start width v := by
  intro i _
  rw [written.bits]
  by_cases low : i < width
  · simp [low]
  · have zero : v.getLsbD i = false :=
      Nat.testBit_lt_two_pow (Nat.lt_of_lt_of_le small (Nat.pow_le_pow_right Nat.two_pos (Nat.not_lt.1 low)))
    simp [low, zero]

/-- Another field keeps its number. -/
theorem Written.reads_other (written : Written words after start width v) {start' width' : ℕ} {v' : BitVec w}
    (reads : Reads words start' width' v') (apart : start' + width' ≤ start ∨ start + width ≤ start') :
    Reads after start' width' v' := by
  apply reads.congr
  intro p low high
  rw [written.bits, if_neg (by omega)]

theorem bit_set {i : ℕ} (inside : i < words.length) (x : BitVec w) (p : ℕ) :
    bit (words.set i x) p = if p / w = i then x.getLsbD (p % w) else bit words p := by
  rw [bit, bit]
  split
  · next here =>
    rw [here, getD_eq_getElem _ _ (by rwa [length_set]), getElem_set_self]
  · next other =>
    rw [getD_eq_getElem?_getD, getD_eq_getElem?_getD, getElem?_set_ne (Ne.symm other)]

/-- A longer or shorter list has the same bits as far as both go. -/
theorem bit_resize {p n : ℕ} (below : p / w < n) :
    bit (words.take n ++ replicate (n - words.length) 0) p = bit words p := by
  rw [bit, bit, getD_eq_getElem?_getD, getD_eq_getElem?_getD]
  by_cases old : p / w < words.length
  · rw [getElem?_append_left (by rw [length_take]; omega), getElem?_take_of_lt below]
  · rw [getElem?_append_right (by rw [length_take]; omega), getElem?_eq_none (Nat.not_lt.1 old),
      getElem?_replicate]
    split <;> rfl

/-- Words added at the end are zero, as the bits behind the end were. -/
theorem bit_grow {n : ℕ} (grows : words.length ≤ n) (p : ℕ) :
    bit (words.take n ++ replicate (n - words.length) 0) p = bit words p := by
  by_cases below : p / w < n
  · exact bit_resize below
  · rw [bit, bit, getD_eq_default _ _ (by simp; omega), getD_eq_default _ _ (by omega)]

end Osrm.Lib.BitFields
