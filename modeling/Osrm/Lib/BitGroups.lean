import Mathlib.Data.List.OfFn

/-!
# Groups of bits

A list of words of some width is a list of bits, the highest bit of each word first. Words of
the same width are determined by their bits (`bits_injective`), so two lists of words of
different widths that have the same bits determine each other. `regroup` cuts bits into words.
-/

namespace Osrm.Lib

open List

variable {w : ℕ} {bs : List Bool} (word : BitVec w) (n : ℕ)

/-- The bits of a word, the highest first. -/
def wordBits (word : BitVec w) : List Bool := ofFn fun i : Fin w => word.getMsbD i

def bits (words : List (BitVec w)) : List Bool := words.flatMap wordBits

@[simp] theorem length_wordBits : (wordBits word).length = w := length_ofFn

@[simp] theorem bits_cons (words : List (BitVec w)) : bits (word :: words) = wordBits word ++ bits words :=
  flatMap_cons

@[simp] theorem bits_append (words words' : List (BitVec w)) : bits (words ++ words') = bits words ++ bits words' :=
  flatMap_append

@[simp] theorem length_bits (words : List (BitVec w)) : (bits words).length = w * words.length := by
  induction words with
  | nil => exact (Nat.mul_zero w).symm
  | cons word words ih => rw [bits_cons, length_append, length_wordBits, ih, length_cons, Nat.mul_succ, Nat.add_comm]

theorem wordBits_injective : Function.Injective (wordBits (w := w)) := by
  intro a b same
  apply BitVec.eq_of_getMsbD_eq
  intro i hi
  exact congrFun (ofFn_injective same) ⟨i, hi⟩

/-- The bits determine the words. -/
theorem bits_injective {words words' : List (BitVec w)} (length : words.length = words'.length) (same : bits words = bits words') :
    words = words' := by
  induction words generalizing words' with
  | nil => exact (length_eq_zero_iff.1 length.symm).symm
  | cons word words ih =>
    cases words' with
    | nil => cases length
    | cons word' words' =>
      obtain ⟨first, rest⟩ := append_inj same (by rw [length_wordBits, length_wordBits])
      rw [wordBits_injective first, ih (Nat.succ.inj length) rest]

theorem wordBits_zero : wordBits (0#w) = replicate w false := by
  rw [wordBits]
  simp

/-- Words of zeros. -/
theorem bits_replicate_zero : bits (replicate n (0#w)) = replicate (w * n) false := by
  induction n with
  | zero => rfl
  | succ n ih => rw [replicate_succ, bits_cons, ih, wordBits_zero, replicate_append_replicate, Nat.mul_succ, Nat.add_comm]

/-- The first `n` words that the bits make up. -/
def regroup (w : ℕ) : ℕ → List Bool → List (BitVec w)
  | 0, _ => []
  | n + 1, bs => (BitVec.ofBoolListBE (bs.take w)).setWidth w :: regroup w n (bs.drop w)

@[simp] theorem length_regroup (bs : List Bool) : (regroup w n bs).length = n := by
  induction n generalizing bs with
  | zero => rfl
  | succ n ih => rw [regroup, length_cons, ih]

theorem wordBits_ofBoolListBE (length : bs.length = w) :
    wordBits ((BitVec.ofBoolListBE bs).setWidth w) = bs := by
  subst length
  apply ext_getElem
  · exact length_wordBits _
  · intro i _ hi
    simp [wordBits]

/-- Regrouping keeps the bits. -/
theorem bits_regroup (length : bs.length = w * n) : bits (regroup w n bs) = bs := by
  induction n generalizing bs with
  | zero => exact (length_eq_zero_iff.1 length).symm
  | succ n ih =>
    rw [Nat.mul_succ] at length
    have first : (bs.take w).length = w := by rw [length_take]; omega
    have rest : (bs.drop w).length = w * n := by rw [length_drop]; omega
    rw [regroup, bits_cons, wordBits_ofBoolListBE first, ih rest, take_append_drop]

end Osrm.Lib
