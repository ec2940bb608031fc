import Mathlib.Data.Nat.Notation

/-!
# Computations that may fail

Rules for computations in `Except` and `Option`. A computation that succeeds went through each of
its parts; a list of computations that all succeed gives the list of their results.
-/

namespace Osrm.Lib

variable {ε α β γ : Type} {f : α → Option β}

/-- A computation that succeeds with `then` went through its first part. -/
theorem bind_eq_ok {x : Except ε α} {f : α → Except ε β} {b : β} (done : x >>= f = .ok b) :
    ∃ a, x = .ok a ∧ f a = .ok b := by
  cases x with
  | error failure => cases done
  | ok a => exact ⟨a, rfl, done⟩

theorem mapM_ok {f : α → Except ε β} {g : α → β} : ∀ {xs : List α}, (∀ x ∈ xs, f x = .ok (g x)) → xs.mapM f = .ok (xs.map g)
  | [], _ => rfl
  | x :: xs, each => by
    rw [List.mapM_cons, each x List.mem_cons_self, mapM_ok fun y mem => each y (List.mem_cons_of_mem _ mem)]
    rfl

theorem mapM_eq_some {g : α → β} : ∀ {xs : List α}, (∀ x ∈ xs, f x = some (g x)) → xs.mapM f = some (xs.map g)
  | [], _ => rfl
  | x :: xs, each => by
    rw [List.mapM_cons, each x List.mem_cons_self, mapM_eq_some fun y mem => each y (List.mem_cons_of_mem _ mem)]
    rfl

/-- Reading a list and working on what is read. -/
theorem mapM_read {g : β → γ} : ∀ {xs : List α} {ys : List β}, xs.map f = ys.map some →
    (xs.mapM fun x => do let y ← f x; return g y) = some (ys.map g)
  | [], [], _ => rfl
  | x :: xs, y :: ys, same => by
    obtain ⟨first, rest⟩ := List.cons_eq_cons.1 same
    rw [List.mapM_cons, first, mapM_read rest]
    rfl

theorem exists_mapM_eq_some : ∀ {xs : List α}, (∀ x ∈ xs, ∃ y, f x = some y) →
    ∃ ys, xs.mapM f = some ys ∧ ys.map some = xs.map f
  | [], _ => ⟨[], rfl, rfl⟩
  | x :: xs, each => by
    obtain ⟨y, first⟩ := each x List.mem_cons_self
    obtain ⟨ys, rest, same⟩ := exists_mapM_eq_some fun z mem => each z (List.mem_cons_of_mem _ mem)
    refine ⟨y :: ys, ?_, ?_⟩
    · rw [List.mapM_cons, first, rest]
      rfl
    · rw [List.map_cons, List.map_cons, first, same]

end Osrm.Lib
