import Mathlib.Data.Finset.Card
import Mathlib.Order.Bounds.Basic

/-!
# Running through a finite set in increasing order

A loop that works on one element, goes on to the next larger one and stops at the largest has
worked on every element of the set from its first one on. Its fuel is enough when it exceeds the
number of elements above the first.
-/

namespace Osrm.Lib.Enumeration

variable {α σ : Type*}

/-- A `do … while` loop: `body` runs on `a`, then on the elements that `next` gives, up to the last one. -/
def doWhile (next : α → Option α) (body : σ → α → σ) : ℕ → α → σ → Option σ
  | 0, _, _ => none
  | fuel + 1, a, s =>
    match next a with
    | none => some (body s a)
    | some b => doWhile next body fuel b (body s a)

variable [LinearOrder α] {next : α → Option α} {S : Finset α} {a : α}

/-- `next` gives the next larger element of `S`, and nothing at the largest. -/
structure Steps (next : α → Option α) (S : Finset α) : Prop where
  up : ∀ a ∈ S, ∀ b, next a = some b → IsLeast {c | c ∈ S ∧ a < c} b
  last : ∀ a ∈ S, next a = none → ∀ c ∈ S, c ≤ a

def above (S : Finset α) (a : α) : Finset α := S.filter (a < ·)

theorem card_above_lt_card (mem : a ∈ S) : (above S a).card < S.card := by
  apply Finset.card_lt_card
  exact Finset.filter_ssubset.2 ⟨a, mem, lt_irrefl a⟩

theorem card_above_lt {b : α} (least : IsLeast {c | c ∈ S ∧ a < c} b) : (above S b).card < (above S a).card := by
  apply Finset.card_lt_card
  rw [Finset.ssubset_iff_of_subset]
  · refine ⟨b, Finset.mem_filter.2 least.1, ?_⟩
    intro inside
    exact lt_irrefl b (Finset.mem_filter.1 inside).2
  · intro c inside
    obtain ⟨mem, larger⟩ := Finset.mem_filter.1 inside
    exact Finset.mem_filter.2 ⟨mem, least.1.2.trans larger⟩

/-- **The loop works on the elements from `a` on**, whatever its body and its fuel, once that is enough. -/
theorem Steps.doWhile_eq (steps : Steps next S) (mem : a ∈ S) :
    ∃ visited : List α, (∀ c, c ∈ visited ↔ c ∈ S ∧ a ≤ c) ∧
      ∀ {σ : Type} (body : σ → α → σ) (fuel : ℕ) (s : σ), (above S a).card < fuel →
        doWhile next body fuel a s = some (visited.foldl body s) := by
  induction size : (above S a).card using Nat.strong_induction_on generalizing a with
  | h size ih =>
    cases step : next a with
    | none =>
      refine ⟨[a], fun c => ?_, fun body fuel s enough => ?_⟩
      · rw [List.mem_singleton]
        constructor
        · rintro rfl
          exact ⟨mem, le_refl c⟩
        · intro ⟨inside, le⟩
          exact (steps.last a mem step c inside).antisymm le
      · obtain ⟨fuel, rfl⟩ := Nat.exists_eq_succ_of_ne_zero (Nat.ne_zero_of_lt enough)
        simp [doWhile, step]
    | some b =>
      have least := steps.up a mem b step
      have fewer := card_above_lt least
      obtain ⟨visited, members, run⟩ := ih _ (size ▸ fewer) least.1.1 rfl
      refine ⟨a :: visited, fun c => ?_, fun body fuel s enough => ?_⟩
      · rw [List.mem_cons, members]
        constructor
        · rintro (rfl | ⟨inside, le⟩)
          · exact ⟨mem, le_refl c⟩
          · exact ⟨inside, least.1.2.le.trans le⟩
        · intro ⟨inside, le⟩
          rcases le.eq_or_lt with rfl | lt
          · exact .inl rfl
          · exact .inr ⟨inside, least.2 ⟨inside, lt⟩⟩
      · obtain ⟨fuel, rfl⟩ := Nat.exists_eq_succ_of_ne_zero (Nat.ne_zero_of_lt enough)
        have rest := run body fuel (body s a) (by omega)
        simp only [doWhile, step]
        exact rest

end Osrm.Lib.Enumeration
