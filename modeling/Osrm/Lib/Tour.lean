import Mathlib.Algebra.BigOperators.Group.List.Basic
import Mathlib.Data.List.Rotate

/-!
# Paths and closed tours through a list

A list of places is travelled as a path, from its first place to its last, or as a closed tour
that returns to the first place. `pathLegs` and `tourLegs` are the steps made on the way. Turning
the list round leaves the steps of the tour as they are, up to their order.
-/

namespace Osrm.Lib.Tour

open List

variable {V : Type*} {leg : V × V} {r l : List V} {a : V}

/-- The steps of the path through a list. -/
def pathLegs (l : List V) : List (V × V) := l.zip l.tail

/-- The steps of the closed tour through a list. -/
def tourLegs (l : List V) : List (V × V) := l.zip (l.rotate 1)

theorem pathLegs_concat (r : List V) (a : V) : pathLegs (r ++ [a]) = r.zip (r ++ [a]).tail := by
  rw [pathLegs]
  conv_lhs => rw [← append_nil (r ++ [a]).tail]
  rw [zip_append (by simp), zip_nil_right, append_nil]

/-- The tour is the path with the step back from the last place to the first. -/
theorem tourLegs_eq (nonempty : l ≠ []) :
    tourLegs l = pathLegs l ++ [(l.getLast nonempty, l.head nonempty)] := by
  have turned : l.rotate 1 = l.tail ++ [l.head nonempty] := by
    obtain ⟨a, r, rfl⟩ := exists_cons_of_ne_nil nonempty
    rw [rotate_cons_succ, rotate_zero, tail_cons, head_cons]
  rw [tourLegs, turned]
  obtain rfl | ⟨r, a, rfl⟩ := l.eq_nil_or_concat'
  · exact absurd rfl nonempty
  · rw [zip_append (by simp), pathLegs_concat, getLast_append_singleton]
    rfl

theorem tourLegs_rotate (l : List V) (k : ℕ) : tourLegs (l.rotate k) = (tourLegs l).rotate k := by
  have rotated := zipWith_rotate_distrib Prod.mk l (l.rotate 1) k (length_rotate l 1).symm
  rw [tourLegs, rotate_rotate, Nat.add_comm k 1, ← rotate_rotate]
  exact rotated.symm

theorem tourLegs_rotate_perm (l : List V) (k : ℕ) : (tourLegs (l.rotate k)).Perm (tourLegs l) := by
  rw [tourLegs_rotate]
  exact rotate_perm _ _

theorem mem_of_mem_tourLegs (on : leg ∈ tourLegs l) : leg.1 ∈ l ∧ leg.2 ∈ l := by
  obtain ⟨first, second⟩ := of_mem_zip (show (leg.1, leg.2) ∈ l.zip (l.rotate 1) from on)
  exact ⟨first, mem_rotate.1 second⟩

theorem pathLegs_subset_tourLegs (l : List V) : pathLegs l ⊆ tourLegs l := by
  cases l with
  | nil => exact Subset.refl _
  | cons a r =>
    rw [tourLegs_eq (cons_ne_nil a r)]
    exact subset_append_left _ _

/-- No step of a path without repetitions leads back to its first place. -/
theorem snd_ne_of_mem_pathLegs (nodup : (a :: r).Nodup) (on : leg ∈ pathLegs (a :: r)) :
    leg.2 ≠ a := by
  have behind := (of_mem_zip (show (leg.1, leg.2) ∈ (a :: r).zip r from on)).2
  intro back
  exact (nodup_cons.1 nodup).1 (back ▸ behind)

/-- No step of a path without repetitions leaves its last place. -/
theorem fst_ne_of_mem_pathLegs (nodup : (r ++ [a]).Nodup)
    (on : leg ∈ pathLegs (r ++ [a])) : leg.1 ≠ a := by
  rw [pathLegs_concat] at on
  have front := (of_mem_zip (show (leg.1, leg.2) ∈ r.zip (r ++ [a]).tail from on)).1
  intro back
  exact (disjoint_of_nodup_append nodup) (back ▸ front) (mem_singleton_self a)

/-- Only a path of two places leads directly from its first place to its last. -/
theorem eq_of_mem_pathLegs {z : V} (nodup : (a :: r).Nodup) (last : (a :: r).getLast? = some z)
    (on : (a, z) ∈ pathLegs (a :: r)) : r = [z] := by
  cases r with
  | nil => cases on
  | cons b r =>
    obtain ⟨fresh, rest⟩ := nodup_cons.1 nodup
    have here : b = z := by
      rcases mem_cons.1 (show (a, z) ∈ (a, b) :: (b :: r).zip r from on) with same | later
      · exact (congrArg Prod.snd same).symm
      · exact absurd (of_mem_zip later).1 fresh
    subst here
    rw [getLast?_cons_cons] at last
    cases r with
    | nil => rfl
    | cons c r =>
      rw [getLast?_cons_cons] at last
      exact absurd (mem_of_getLast? last) (nodup_cons.1 rest).1

section Weights

variable {M : Type*} [AddCommMonoid M] (w : V → V → M)

/-- The total weight of a list of steps. -/
def total (legs : List (V × V)) : M := (legs.map fun leg => w leg.1 leg.2).sum

@[simp] theorem total_nil : total w [] = 0 := rfl

@[simp] theorem total_cons (leg : V × V) (legs : List (V × V)) :
    total w (leg :: legs) = w leg.1 leg.2 + total w legs := by
  rw [total, map_cons, sum_cons, total]

@[simp] theorem total_append (l r : List (V × V)) : total w (l ++ r) = total w l + total w r := by
  rw [total, map_append, sum_append, total, total]

end Weights

end Osrm.Lib.Tour
