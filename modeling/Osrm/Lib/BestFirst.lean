import Mathlib.Data.List.Flatten
import Mathlib.Algebra.BigOperators.Group.List.Basic
import Mathlib.Algebra.GroupWithZero.Nat

/-!
# Best-first search

One priority queue holds items and nodes, which stand for the items below them. A node is replaced
by what is under it; an item is taken unless the search is to stop there. Where the key of each
candidate is a lower bound for the items below it, and that of an item its distance, the items come
out in order of distance, whichever of several least candidates the queue gives out.
-/

namespace Osrm.Lib

open List

variable {Q ι β : Type}

/-- The queue gives out a candidate of least key. -/
structure PopsLeast (key : Q → ℕ) (pop : List Q → Option (Q × List Q)) : Prop where
  empty : pop [] = none
  least : ∀ {queue}, queue ≠ [] → ∃ top rest, pop queue = some (top, rest) ∧ queue.Perm (top :: rest) ∧
    ∀ q ∈ rest, key top ≤ key q

/-- The first candidate of least key, and the others. -/
def popLeast (key : Q → ℕ) : List Q → Option (Q × List Q)
  | [] => none
  | q :: queue =>
    match popLeast key queue with
    | none => some (q, [])
    | some (top, rest) => if key q ≤ key top then some (q, queue) else some (top, q :: rest)

theorem popsLeast_popLeast (key : Q → ℕ) : PopsLeast key (popLeast key) := by
  refine ⟨rfl, fun {queue} => ?_⟩
  induction queue with
  | nil => exact fun some => absurd rfl some
  | cons q queue ih =>
    intro _
    rw [popLeast]
    by_cases empty : queue = []
    · subst empty
      exact ⟨q, [], rfl, .refl _, fun _ mem => absurd mem not_mem_nil⟩
    obtain ⟨top, rest, popped, perm, least⟩ := ih empty
    simp only [popped]
    split
    · next first =>
      refine ⟨q, queue, rfl, .refl _, fun q' mem => ?_⟩
      rcases mem_cons.1 (perm.mem_iff.1 mem) with rfl | mem
      · exact first
      · exact Nat.le_trans first (least q' mem)
    · next later =>
      refine ⟨top, q :: rest, rfl, (perm.cons q).trans (.swap top q rest), fun q' mem => ?_⟩
      rcases mem_cons.1 mem with rfl | mem
      · exact Nat.le_of_not_le later
      · exact least q' mem

/-- The loop over the queue. A candidate is an item, or it is replaced by others. -/
def bestFirst (pop : List Q → Option (Q × List Q)) (explore : Q → Option (ι ⊕ List Q)) (stop : β → ι → Bool)
    (take : β → ι → β) : ℕ → List Q → β → Option β
  | 0, _, _ => none
  | fuel + 1, queue, out =>
    match pop queue with
    | none => some out
    | some (top, rest) =>
      match explore top with
      | none => none
      | some (.inl item) => if stop out item then some out else bestFirst pop explore stop take fuel rest (take out item)
      | some (.inr next) => bestFirst pop explore stop take fuel (rest ++ next) out

/-- What stands for which items. -/
structure Bounds (explore : Q → Option (ι ⊕ List Q)) (key cost : Q → ℕ) (dist : ι → ℕ) (below : Q → List ι)
    (valid : Q → Prop) : Prop where
  lower : ∀ {q}, valid q → ∀ i ∈ below q, key q ≤ dist i
  step : ∀ {q}, valid q → 1 ≤ cost q ∧ (∃ i, explore q = some (.inl i) ∧ below q = [i] ∧ dist i ≤ key q) ∨
    ∃ next, explore q = some (.inr next) ∧ (∀ q' ∈ next, valid q') ∧ (below q).Perm (next.flatMap below) ∧
      1 + (next.map cost).sum ≤ cost q

/-- The items are visited in order of distance, up to one where the search stops. -/
structure Visits (stop : β → ι → Bool) (take : β → ι → β) (dist : ι → ℕ) (all : List ι) (out : β) (visited left : List ι) :
    Prop where
  perm : (visited ++ left).Perm all
  sorted : visited.Pairwise fun i j => dist i ≤ dist j
  nearer : ∀ i ∈ visited, ∀ j ∈ left, dist i ≤ dist j
  going : ∀ {front i back}, visited = front ++ i :: back → stop (front.foldl take out) i = false
  ends : left = [] ∨ ∃ i ∈ left, stop (visited.foldl take out) i = true

variable {pop : List Q → Option (Q × List Q)} {explore : Q → Option (ι ⊕ List Q)} {stop : β → ι → Bool} {take : β → ι → β}
  {key cost : Q → ℕ} {dist : ι → ℕ} {below : Q → List ι} {valid : Q → Prop}

/-- Nothing has been visited yet. -/
theorem Visits.nil {all : List ι} {out : β} (ends : all = [] ∨ ∃ i ∈ all, stop out i = true) :
    Visits stop take dist all out [] all where
  perm := .refl _
  sorted := .nil
  nearer _ mem := absurd mem not_mem_nil
  going {front _ _} split := by cases front <;> cases split
  ends := ends

/-- An item that is at most as far as all others goes in front. -/
theorem Visits.cons {i : ι} {rest visited left : List ι} {out : β}
    (visits : Visits stop take dist rest (take out i) visited left) (going : stop out i = false)
    (least : ∀ j ∈ rest, dist i ≤ dist j) : Visits stop take dist (i :: rest) out (i :: visited) left where
  perm := visits.perm.cons i
  sorted := pairwise_cons.2
    ⟨fun j mem => least j (visits.perm.mem_iff.1 (mem_append_left _ mem)), visits.sorted⟩
  nearer j mem j' mem' := by
    rcases mem_cons.1 mem with rfl | mem
    · exact least j' (visits.perm.mem_iff.1 (mem_append_right _ mem'))
    · exact visits.nearer j mem j' mem'
  going {front j back} split := by
    cases front with
    | nil =>
      cases split
      exact going
    | cons i' front =>
      obtain ⟨rfl, later⟩ := cons.inj split
      exact visits.going later
  ends := visits.ends

/-- The run lemma: with enough fuel the loop returns, and it has visited the items in order of distance. -/
theorem bestFirst_visits (pops : PopsLeast key pop) (bounds : Bounds explore key cost dist below valid) (fuel : ℕ) :
    ∀ (queue : List Q) (out : β), (∀ q ∈ queue, valid q) → (queue.map cost).sum < fuel → ∃ visited left,
      bestFirst pop explore stop take fuel queue out = some (visited.foldl take out) ∧
        Visits stop take dist (queue.flatMap below) out visited left := by
  induction fuel with
  | zero => exact fun _ _ _ enough => absurd enough (Nat.not_lt_zero _)
  | succ fuel ih =>
    intro queue out good enough
    by_cases empty : queue = []
    · subst empty
      exact ⟨[], [], by rw [bestFirst, pops.empty]; rfl, .nil (.inl rfl)⟩
    obtain ⟨top, rest, popped, perm, least⟩ := pops.least empty
    have goodTop := good top (perm.mem_iff.2 mem_cons_self)
    have goodRest : ∀ q ∈ rest, valid q := fun q mem => good q (perm.mem_iff.2 (mem_cons_of_mem _ mem))
    have all : (queue.flatMap below).Perm (below top ++ rest.flatMap below) := perm.flatMap_right below
    rw [(perm.map cost).sum_eq, map_cons, sum_cons] at enough
    rw [bestFirst, popped]
    dsimp only
    rcases bounds.step goodTop with ⟨positive, i, explored, one, exact'⟩ | ⟨next, explored, goodNext, same, cheaper⟩
    · rw [one] at all
      rw [explored]
      dsimp only
      cases stopped : stop out i with
      | true => exact ⟨[], queue.flatMap below, rfl, .nil (.inr ⟨i, all.mem_iff.2 mem_cons_self, stopped⟩)⟩
      | false =>
        obtain ⟨visited, left, done, visits⟩ := ih rest (take out i) goodRest (by omega)
        have nearest : ∀ j ∈ rest.flatMap below, dist i ≤ dist j := by
          intro j mem
          obtain ⟨q, here, mem⟩ := mem_flatMap.1 mem
          exact Nat.le_trans exact' (Nat.le_trans (least q here) (bounds.lower (goodRest q here) j mem))
        have visits := visits.cons stopped nearest
        exact ⟨i :: visited, left, done, { visits with perm := visits.perm.trans all.symm }⟩
    · rw [explored]
      obtain ⟨visited, left, done, visits⟩ := ih (rest ++ next) out
        (fun q mem => (mem_append.1 mem).elim (goodRest q) (goodNext q))
        (by rw [map_append, sum_append]; omega)
      refine ⟨visited, left, done, { visits with perm := visits.perm.trans ?_ }⟩
      rw [flatMap_append]
      exact perm_append_comm.trans ((same.symm.append_right _).trans all.symm)

end Osrm.Lib
