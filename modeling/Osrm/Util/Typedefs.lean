import Osrm.Lib.Walk
import Osrm.Lib.BinaryRounding

/-!
# Weights, durations and distances

Weights and durations are the source's 32-bit integers, and their sums wrap (`add32`);
distances are single-precision numbers, and their sums are rounded (`addFloat`). The
largest weight stands for "no connection". `IsDist` is the length of a shortest walk under
that reading: a walk that is not lighter than `invalidEdgeWeight` does not count as a
connection.
-/

namespace Osrm

open Lib

def invalidEdgeWeight : ℤ := 2147483647

def maximalEdgeDuration : ℤ := 2147483647

/-- A sum of 32-bit integers, in two's complement. -/
def add32 (a b : ℤ) : ℤ := (a + b).bmod (2 ^ 32)

/-- A sum in range is the sum. -/
theorem add32_eq {a b : ℤ} (low : -2 ^ 31 ≤ a + b) (high : a + b ≤ invalidEdgeWeight) : add32 a b = a + b :=
  Int.bmod_eq_of_le low (by unfold invalidEdgeWeight at high; omega)

/-- Sums may be wrapped once or at every step. -/
theorem add32_add32 (a b c : ℤ) : add32 (add32 a b) c = add32 a (b + c) := by
  rw [add32, add32, Int.bmod_add_bmod, add_assoc]
  rfl

/-- The numbers that a 32-bit integer holds. -/
def FitsInt (k : ℤ) : Prop := -2 ^ 31 ≤ k ∧ k < 2 ^ 31

instance (k : ℤ) : Decidable (FitsInt k) := inferInstanceAs (Decidable (_ ∧ _))

theorem FitsInt.of_abs {k : ℤ} (small : |k| < 2 ^ 31) : FitsInt k := by
  obtain ⟨low, high⟩ := abs_lt.1 small
  exact ⟨low.le, high⟩

theorem FitsInt.wrap {k : ℤ} (fits : FitsInt k) : k.bmod (2 ^ 32) = k := by
  obtain ⟨low, high⟩ := fits
  exact Int.bmod_eq_of_le (by omega) (by omega)

theorem fitsInt_wrap (k : ℤ) : FitsInt (k.bmod (2 ^ 32)) := by
  have low := @Int.le_bmod k (2 ^ 32) (by decide)
  have high := @Int.bmod_lt k (2 ^ 32) (by decide)
  exact ⟨by omega, by omega⟩

/-- With fewer penalties the sum stays between that without any and that with all. -/
theorem FitsInt.between {sum penalty : ℤ} {few all : ℕ} (none : FitsInt sum) (whole : FitsInt (sum + penalty * all)) (le : few ≤ all) :
    FitsInt (sum + penalty * few) := by
  obtain ⟨low, high⟩ := none
  obtain ⟨low', high'⟩ := whole
  have counts : (few : ℤ) ≤ all := Int.ofNat_le.2 le
  rcases le_total 0 penalty with charge | refund
  · have more := mul_le_mul_of_nonneg_left counts charge
    have some := mul_nonneg charge (Int.natCast_nonneg few)
    exact ⟨by omega, by omega⟩
  · have more := mul_le_mul_of_nonpos_left counts refund
    have some := mul_nonpos_of_nonpos_of_nonneg refund (Int.natCast_nonneg few)
    exact ⟨by omega, by omega⟩

/-- A sum of single-precision numbers. -/
def addFloat (a b : ℚ) : ℚ := roundBinary 24 (a + b)

theorem addFloat_zero (a b : ℚ) : addFloat (addFloat a b) 0 = addFloat a b := by
  rw [addFloat, add_zero]
  exact roundBinary_roundBinary (by decide) _

/-- `d` is the least weight in `S`, or `invalidEdgeWeight` when `S` has no lighter one. -/
def IsMinWeight (S : Set ℤ) (d : ℤ) : Prop := IsLeast (insert invalidEdgeWeight S) d

/-- Where some weight is below `invalidEdgeWeight` whenever there is one, the minimum is that of the set itself. -/
theorem IsMinWeight.of_fits {S : Set ℤ} {d : ℤ} (least : IsMinWeight S d) (fits : ∀ k ∈ S, ∃ k' ∈ S, k' < invalidEdgeWeight) :
    (S.Nonempty → IsLeast S d) ∧ (d = invalidEdgeWeight ↔ ¬ S.Nonempty) := by
  obtain ⟨mem, low⟩ := least
  have light : S.Nonempty → d < invalidEdgeWeight := by
    rintro ⟨k, hk⟩
    obtain ⟨k', hk', below⟩ := fits k hk
    exact (low (Set.mem_insert_of_mem _ hk')).trans_lt below
  have inside : d ≠ invalidEdgeWeight → d ∈ S := fun valid => mem.resolve_left valid
  refine ⟨fun some => ⟨inside (light some).ne, fun k hk => low (Set.mem_insert_of_mem _ hk)⟩, ?_⟩
  constructor
  · intro invalid some
    exact (light some).ne invalid
  · intro none
    by_contra valid
    exact none ⟨d, inside valid⟩

/-- `d` is the length of a shortest walk from `u` to `v`. -/
def IsDist {V : Type*} (A : Arcs V) (u v : V) (d : ℤ) : Prop := IsMinWeight {x | Walk A u v x} d

/-- Two sets of weights have the same minimum when each weight below `invalidEdgeWeight` is matched by one in
the other set that is no heavier. -/
theorem isMinWeight_congr {S T : Set ℤ} (st : ∀ x ∈ S, x < invalidEdgeWeight → ∃ y ∈ T, y ≤ x)
    (ts : ∀ x ∈ T, x < invalidEdgeWeight → ∃ y ∈ S, y ≤ x) {d : ℤ} :
    IsMinWeight S d ↔ IsMinWeight T d := by
  suffices half : ∀ S T : Set ℤ, (∀ x ∈ S, x < invalidEdgeWeight → ∃ y ∈ T, y ≤ x) →
      (∀ x ∈ T, x < invalidEdgeWeight → ∃ y ∈ S, y ≤ x) → IsMinWeight S d → IsMinWeight T d from
    ⟨half S T st ts, half T S ts st⟩
  intro S T st ts ⟨mem, least⟩
  have bound : d ≤ invalidEdgeWeight := least (Set.mem_insert _ _)
  have low : ∀ x ∈ T, d ≤ x := by
    intro x hx
    by_cases light : x < invalidEdgeWeight
    · obtain ⟨y, hy, le⟩ := ts x hx light
      exact (least (Set.mem_insert_of_mem _ hy)).trans le
    · exact bound.trans (not_lt.1 light)
  refine ⟨?_, fun x hx => ?_⟩
  · by_cases light : d < invalidEdgeWeight
    · rcases mem with rfl | inS
      · exact .inl rfl
      · obtain ⟨y, hy, le⟩ := st d inS light
        exact .inr ((le.antisymm (low y hy)) ▸ hy)
    · exact .inl (bound.antisymm (not_lt.1 light))
  · rcases hx with rfl | inT
    · exact bound
    · exact low x inT

end Osrm
