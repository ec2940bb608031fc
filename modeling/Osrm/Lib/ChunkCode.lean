import Mathlib.Algebra.Group.Nat.Defs
import Mathlib.Tactic.Common

/-!
# Numbers in chunks

A number is written as its digits to some base, lowest first, and every digit says whether more
follow. A reader takes at most a given number of digits, and makes do with fewer where the text
ends. It reads back what was written if the number is small enough for its limit (`read_spell`).
-/

namespace Osrm.Lib

/-- A digit, and whether more of the number follow. -/
structure Chunk where
  digit : ℕ
  more : Bool
  deriving DecidableEq, Repr

namespace Chunk

/-- The first number of a text, read from at most `limit` chunks, and the rest of the text. -/
def read (base : ℕ) : ℕ → List Chunk → ℕ × List Chunk
  | 0, text => (0, text)
  | _ + 1, [] => (0, [])
  | limit + 1, c :: text =>
    if c.more then (c.digit + base * (read base limit text).1, (read base limit text).2) else (c.digit, text)

def spell (base : ℕ) (n : ℕ) : List Chunk :=
  if 1 < base ∧ base ≤ n then ⟨n % base, true⟩ :: spell base (n / base) else [⟨n, false⟩]
termination_by n
decreasing_by
  rename_i large
  exact Nat.div_lt_self (by omega) large.1

variable {base : ℕ} (limit : ℕ)

/-- Reading takes a front part of the text. -/
theorem read_suffix (text : List Chunk) : (read base limit text).2 <:+ text := by
  induction limit generalizing text with
  | zero => exact List.suffix_rfl
  | succ limit ih =>
    cases text with
    | nil => exact List.suffix_rfl
    | cons c text =>
      rw [read]
      split
      · exact (ih text).trans (List.suffix_cons c text)
      · exact List.suffix_cons c text

/-- A reader that may take a chunk takes one. -/
theorem length_read_lt {text : List Chunk} (some : text ≠ []) :
    (read base (limit + 1) text).2.length < text.length := by
  cases text with
  | nil => exact (some rfl).elim
  | cons c text =>
    rw [read]
    split
    · exact Nat.lt_succ_of_le (read_suffix limit text).length_le
    · exact Nat.lt_succ_self _

/-- **Reading back** a number that the limit leaves room for. -/
theorem read_spell (limit n : ℕ) (small : n < base ^ (limit + 1)) (text : List Chunk) :
    read base (limit + 1) (spell base n ++ text) = (n, text) := by
  induction limit generalizing n with
  | zero =>
    have last : ¬ (1 < base ∧ base ≤ n) := by
      rw [Nat.pow_one] at small
      omega
    rw [spell, if_neg last]
    rfl
  | succ limit ih =>
    rw [spell]
    split
    · have rest : n / base < base ^ (limit + 1) := Nat.div_lt_of_lt_mul (by rwa [← Nat.pow_succ'])
      rw [List.cons_append, read, if_pos rfl, ih _ rest, Nat.mod_add_div]
    · rfl

end Chunk

end Osrm.Lib
