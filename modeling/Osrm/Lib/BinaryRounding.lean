import Mathlib.Algebra.Order.Floor.Ring
import Mathlib.Data.Rat.Floor
import Mathlib.Algebra.Order.Field.Power
import Mathlib.Tactic.Linarith

/-!
# Binary rounding

A floating-point operation returns the exact result rounded to a number of binary
digits: the nearest such number, and of two equally near ones the one with an even last
digit. Exponents are unbounded here, so results that a format would turn into an infinity
or lose below its least exponent are outside the scope of this file. Rounding twice is
rounding once (`roundBinary_roundBinary`), and bounds that have few enough digits stay bounds.
-/

namespace Osrm.Lib

/-- The nearest integer; of two, the even one. -/
def roundEven (q : ℚ) : ℤ :=
  if q - ⌊q⌋ < 1 / 2 then ⌊q⌋
  else if 1 / 2 < q - ⌊q⌋ then ⌊q⌋ + 1
  else ⌊q⌋ + ⌊q⌋ % 2

/-- The exponent of the leading binary digit. -/
def binaryExponent (q : ℚ) : ℤ :=
  let guess : ℤ := q.num.natAbs.log2 - q.den.log2
  if |q| < 2 ^ guess then guess - 1 else guess

/-- The nearest number with that many binary digits. -/
def roundBinary (digits : ℕ) (q : ℚ) : ℚ :=
  let unit : ℚ := 2 ^ (binaryExponent q + 1 - digits)
  roundEven (q / unit) * unit

example : roundBinary 3 18 = 16 ∧ roundBinary 3 22 = 24 := by decide +kernel

@[simp] theorem roundEven_intCast (z : ℤ) : roundEven z = z := by
  norm_num [roundEven]

/-- Rounding keeps integer bounds. -/
theorem le_roundEven {z : ℤ} {q : ℚ} (le : z ≤ q) : z ≤ roundEven q := by
  have floor := Int.le_floor.2 le
  unfold roundEven
  split_ifs <;> omega

theorem roundEven_le {z : ℤ} {q : ℚ} (le : q ≤ z) : roundEven q ≤ z := by
  have below := Int.floor_le q
  unfold roundEven
  split_ifs with low high
  · exact Int.floor_le_iff.2 (by linarith)
  all_goals
    have : (⌊q⌋ : ℚ) < z := by linarith
    have : ⌊q⌋ < z := by exact_mod_cast this
    omega

theorem le_abs_roundEven {z : ℤ} {q : ℚ} (le : z ≤ |q|) : z ≤ |roundEven q| := by
  rcases le_abs.1 le with le | le
  · exact (le_roundEven le).trans (le_abs_self _)
  · have := roundEven_le (q := q) (z := -z) (by push_cast; linarith)
    exact le_trans (by omega) (neg_le_abs _)

theorem abs_roundEven_le {z : ℤ} {q : ℚ} (le : |q| ≤ z) : |roundEven q| ≤ z := by
  obtain ⟨low, high⟩ := abs_le.1 le
  exact abs_le.2 ⟨le_roundEven (by push_cast; exact low), roundEven_le high⟩

/-- The leading digit stands at the exponent. -/
theorem binaryExponent_spec {q : ℚ} (nonzero : q ≠ 0) :
    2 ^ binaryExponent q ≤ |q| ∧ |q| < 2 ^ (binaryExponent q + 1) := by
  have den : (0 : ℚ) < q.den := by exact_mod_cast q.den_pos
  have num : q.num.natAbs ≠ 0 := by simpa using nonzero
  have value : |q| * q.den = q.num.natAbs := by
    rw [Nat.cast_natAbs, Int.cast_abs, ← Rat.mul_den_eq_num q, abs_mul, Nat.abs_cast]
  have lowN : (2 : ℚ) ^ (q.num.natAbs.log2 : ℤ) ≤ q.num.natAbs := by
    rw [zpow_natCast]; exact_mod_cast Nat.log2_self_le num
  have highN : (q.num.natAbs : ℚ) < 2 ^ ((q.num.natAbs.log2 : ℤ) + 1) := by
    rw [← Nat.cast_add_one, zpow_natCast]; exact_mod_cast Nat.lt_log2_self
  have lowD : (2 : ℚ) ^ (q.den.log2 : ℤ) ≤ q.den := by
    rw [zpow_natCast]; exact_mod_cast Nat.log2_self_le q.den_ne_zero
  have highD : (q.den : ℚ) < 2 ^ ((q.den.log2 : ℤ) + 1) := by
    rw [← Nat.cast_add_one, zpow_natCast]; exact_mod_cast Nat.lt_log2_self
  have high : |q| < 2 ^ ((q.num.natAbs.log2 : ℤ) - q.den.log2 + 1) := by
    apply lt_of_mul_lt_mul_right _ den.le
    rw [value]
    refine highN.trans_le ?_
    calc (2 : ℚ) ^ ((q.num.natAbs.log2 : ℤ) + 1)
        = 2 ^ ((q.num.natAbs.log2 : ℤ) - q.den.log2 + 1) * 2 ^ (q.den.log2 : ℤ) := by
          rw [← zpow_add₀ two_ne_zero]; congr 1; omega
      _ ≤ _ := by gcongr
  have low : 2 ^ ((q.num.natAbs.log2 : ℤ) - q.den.log2 - 1) < |q| := by
    apply lt_of_mul_lt_mul_right _ den.le
    rw [value]
    refine lt_of_lt_of_le ?_ lowN
    calc (2 : ℚ) ^ ((q.num.natAbs.log2 : ℤ) - q.den.log2 - 1) * q.den
        < 2 ^ ((q.num.natAbs.log2 : ℤ) - q.den.log2 - 1) * 2 ^ ((q.den.log2 : ℤ) + 1) := by gcongr
      _ = 2 ^ (q.num.natAbs.log2 : ℤ) := by rw [← zpow_add₀ two_ne_zero]; congr 1; omega
  unfold binaryExponent
  simp only
  split_ifs with small
  · exact ⟨low.le, by simpa using small⟩
  · exact ⟨not_lt.1 small, high⟩

theorem binaryExponent_eq {q : ℚ} {e : ℤ} (low : 2 ^ e ≤ |q|) (high : |q| < 2 ^ (e + 1)) : binaryExponent q = e := by
  have nonzero : q ≠ 0 := by
    rintro rfl
    have : (0 : ℚ) < 2 ^ e := by positivity
    simp only [abs_zero] at low
    linarith
  obtain ⟨low', high'⟩ := binaryExponent_spec nonzero
  have := (zpow_lt_zpow_iff_right₀ (one_lt_two (α := ℚ))).1 (low.trans_lt high')
  have := (zpow_lt_zpow_iff_right₀ (one_lt_two (α := ℚ))).1 (low'.trans_lt high)
  omega

/-- A number that is a multiple of the unit of its last digit is not rounded. -/
theorem roundBinary_of_multiple {digits : ℕ} {q : ℚ} {e z : ℤ} (low : 2 ^ e ≤ |q|) (high : |q| < 2 ^ (e + 1))
    (multiple : q = z * 2 ^ (e + 1 - digits)) : roundBinary digits q = q := by
  have exact : q / 2 ^ (e + 1 - digits) = z := by
    rw [multiple, mul_div_cancel_right₀ _ (by positivity)]
  rw [roundBinary, binaryExponent_eq low high, exact, roundEven_intCast, ← multiple]

/-- A multiple of the unit of the last digit bounds the rounded number if it bounds the number. -/
theorem roundBinary_le_of_multiple {digits : ℕ} {q y : ℚ} {m : ℤ} (multiple : y = m * 2 ^ (binaryExponent q + 1 - digits)) (le : q ≤ y) :
    roundBinary digits q ≤ y := by
  have unit : (0 : ℚ) < 2 ^ (binaryExponent q + 1 - digits) := by positivity
  have below := roundEven_le (z := m) ((div_le_iff₀ unit).2 (multiple ▸ le))
  rw [roundBinary, multiple]
  gcongr

theorem le_roundBinary_of_multiple {digits : ℕ} {q y : ℚ} {m : ℤ} (multiple : y = m * 2 ^ (binaryExponent q + 1 - digits)) (le : y ≤ q) :
    y ≤ roundBinary digits q := by
  have unit : (0 : ℚ) < 2 ^ (binaryExponent q + 1 - digits) := by positivity
  have above := le_roundEven (z := m) ((le_div_iff₀ unit).2 (multiple ▸ le))
  rw [roundBinary, multiple]
  gcongr

/-- An integer is a multiple of the unit of the last digit of a number below `2 ^ digits`. -/
theorem natCast_multiple {digits : ℕ} {q : ℚ} (low : binaryExponent q + 1 ≤ digits) (w : ℕ) :
    (w : ℚ) = (w * 2 ^ (digits - (binaryExponent q + 1)).toNat : ℤ) * 2 ^ (binaryExponent q + 1 - digits) := by
  push_cast
  rw [mul_assoc, ← zpow_natCast, ← zpow_add₀ two_ne_zero, Int.toNat_of_nonneg (by omega), show
    (digits : ℤ) - (binaryExponent q + 1) + (binaryExponent q + 1 - digits) = 0 by omega, zpow_zero, mul_one]

/-- Rounding keeps bounds that have no more digits. -/
theorem roundBinary_le_natCast {digits w : ℕ} {q : ℚ} (small : w < 2 ^ digits) (le : q ≤ w) :
    roundBinary digits q ≤ w := by
  rcases le_or_gt q 0 with negative | positive
  · exact (roundBinary_le_of_multiple (m := 0) (by simp) negative).trans (Nat.cast_nonneg w)
  · have lead := (binaryExponent_spec positive.ne').1
    rw [abs_of_pos positive] at lead
    have exponent : (2 : ℚ) ^ binaryExponent q < 2 ^ (digits : ℤ) := by
      rw [zpow_natCast]
      exact (lead.trans le).trans_lt (by exact_mod_cast small)
    have := (zpow_lt_zpow_iff_right₀ (one_lt_two (α := ℚ))).1 exponent
    exact roundBinary_le_of_multiple (natCast_multiple (by omega) w) le

theorem natCast_le_roundBinary {digits w : ℕ} {q : ℚ} (one : 1 ≤ digits) (small : w < 2 ^ digits) (le : w ≤ q) :
    w ≤ roundBinary digits q := by
  by_cases low : binaryExponent q + 1 ≤ digits
  · exact le_roundBinary_of_multiple (natCast_multiple low w) le
  · -- the number has more digits, and its leading digit alone is above the bound
    have nonneg : (0 : ℚ) ≤ q := (Nat.cast_nonneg w).trans le
    have nonzero : q ≠ 0 := by
      rintro rfl
      simp [binaryExponent] at low
    have lead := (binaryExponent_spec nonzero).1
    rw [abs_of_nonneg nonneg] at lead
    have multiple : (2 : ℚ) ^ binaryExponent q = (2 ^ (digits - 1) : ℤ) * 2 ^ (binaryExponent q + 1 - digits) := by
      push_cast
      rw [← zpow_natCast, ← zpow_add₀ two_ne_zero]
      congr 1
      omega
    calc (w : ℚ) ≤ 2 ^ (digits : ℤ) := by rw [zpow_natCast]; exact_mod_cast small.le
      _ ≤ 2 ^ binaryExponent q := zpow_le_zpow_right₀ one_le_two (by omega)
      _ ≤ _ := le_roundBinary_of_multiple multiple lead
/-- A rounded number is not rounded again. -/
theorem roundBinary_roundBinary {digits : ℕ} (one : 1 ≤ digits) (q : ℚ) :
    roundBinary digits (roundBinary digits q) = roundBinary digits q := by
  by_cases nonzero : q = 0
  · subst nonzero
    simp [roundBinary, roundEven]
  obtain ⟨low, high⟩ := binaryExponent_spec nonzero
  have value : roundBinary digits q = roundEven (q / 2 ^ (binaryExponent q + 1 - digits)) *
    2 ^ (binaryExponent q + 1 - digits) := rfl
  generalize binaryExponent q = e at low high value
  have unit : (0 : ℚ) < 2 ^ (e + 1 - digits) := by positivity
  have scale : ∀ k : ℕ, (2 ^ k : ℤ) * (2 : ℚ) ^ (e + 1 - digits) = 2 ^ (e + 1 - digits + k) := fun k => by
    push_cast
    rw [← zpow_natCast, mul_comm, zpow_add₀ two_ne_zero]
  have least : 2 ^ (digits - 1) ≤ |roundEven (q / 2 ^ (e + 1 - digits))| := by
    apply le_abs_roundEven
    rw [abs_div, abs_of_pos unit, le_div_iff₀ unit, scale, show e + 1 - digits + ((digits - 1 : ℕ) : ℤ) = e by omega]
    exact low
  have most : |roundEven (q / 2 ^ (e + 1 - digits))| ≤ 2 ^ digits := by
    apply abs_roundEven_le
    rw [abs_div, abs_of_pos unit, div_le_iff₀ unit, scale, sub_add_cancel]
    exact high.le
  generalize roundEven (q / 2 ^ (e + 1 - digits)) = m at value least most
  have size : |roundBinary digits q| = |m| * 2 ^ (e + 1 - digits) := by
    rw [value, abs_mul, abs_of_pos unit, Int.cast_abs]
  rcases most.lt_or_eq with below | top
  · refine roundBinary_of_multiple (e := e) (z := m) ?_ ?_ value
    · rw [size]
      calc (2 : ℚ) ^ e = (2 ^ (digits - 1) : ℤ) * 2 ^ (e + 1 - digits) := by rw [scale]; congr 1; omega
        _ ≤ _ := by gcongr
    · rw [size]
      calc _ < ((2 ^ digits : ℤ) : ℚ) * 2 ^ (e + 1 - digits) := by gcongr
        _ = 2 ^ (e + 1) := by rw [scale, sub_add_cancel]
  · -- rounding has reached the next power of two
    have whole : |roundBinary digits q| = 2 ^ (e + 1) := by
      rw [size, top, scale, sub_add_cancel]
    obtain ⟨z, rfl⟩ : 2 ∣ m := (dvd_abs 2 m).1 (top ▸ dvd_pow_self 2 (by omega))
    refine roundBinary_of_multiple (e := e + 1) (z := z) whole.ge ?_ ?_
    · rw [whole]
      exact zpow_lt_zpow_right₀ one_lt_two (by omega)
    · rw [value, show e + 1 + 1 - (digits : ℤ) = e + 1 - digits + 1 by omega, zpow_add_one₀ two_ne_zero]
      push_cast
      ring

end Osrm.Lib
