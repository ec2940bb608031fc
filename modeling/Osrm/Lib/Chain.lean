import Mathlib.Algebra.Order.BigOperators.Group.List

/-!
# Chains whose inner nodes are taken out in increasing order

A chain is given by its first node and the list of the others. `pairs` are its successive nodes.
When its inner nodes are taken out one by one in increasing order, each of them is seen at that
time behind the nearest node in front of it that is still there: the first node, or an inner node
that is greater. `tests` lists each inner node with that neighbour.
-/

namespace Osrm.Lib.Chain

open List

variable {V : Type*} (a b : V) (l r : List V)

def pairs (l : List V) : List (V × V) := (a :: l).zip l

@[simp] theorem pairs_nil : pairs a [] = [] := rfl

@[simp] theorem pairs_cons (l : List V) : pairs a (b :: l) = (a, b) :: pairs b l := rfl

theorem getLastD_append_cons : (l ++ b :: r).getLastD a = r.getLastD b := by
  induction l generalizing a with
  | nil => rw [nil_append, getLastD_cons]
  | cons c l ih => rw [cons_append, getLastD_cons, ih]

theorem pairs_append : pairs a (l ++ b :: r) = pairs a (l ++ [b]) ++ pairs b r := by
  induction l generalizing a with
  | nil => rfl
  | cons c l ih => simp [ih]

theorem pairs_concat (l : List V) : pairs a (l ++ [b]) = pairs a l ++ [(l.getLastD a, b)] := by
  induction l generalizing a with
  | nil => rfl
  | cons c l ih => rw [cons_append, pairs_cons, pairs_cons, ih, getLastD_cons, cons_append]

section Stops

variable [DecidableEq V]

/-- The nodes of a list without those that repeat the one before. -/
def stops (a : V) : List V → List V
  | [] => []
  | b :: l => if b = a then stops a l else b :: stops b l

theorem stops_append (a : V) (l r : List V) : stops a (l ++ r) = stops a l ++ stops (l.getLastD a) r := by
  induction l generalizing a with
  | nil => rfl
  | cons b l ih =>
    rw [cons_append, stops, stops, getLastD_cons]
    split
    · next same => rw [ih, same]
    · rw [ih, cons_append]

end Stops

section Tests

variable [LinearOrder V] (a : V) (before : List V)

/-- The nearest node in front of `x` that is still there when `x` is taken out. -/
def front (before : List V) (x : V) : V := (before.filter (x < ·)).getLastD a

/-- The inner nodes of a list, each with the node in front of it when it is taken out. -/
def testsFrom (a : V) : List V → List V → List (V × V)
  | _, [] => []
  | before, x :: l => (front a before x, x) :: testsFrom a (before ++ [x]) l

/-- The inner nodes of a chain, each with the node in front of it when it is taken out. -/
def tests (inner : List V) : List (V × V) := testsFrom a [] inner

theorem testsFrom_append (before l r : List V) :
    testsFrom a before (l ++ r) = testsFrom a before l ++ testsFrom a (before ++ l) r := by
  induction l generalizing before with
  | nil => rw [nil_append, append_nil, testsFrom, nil_append]
  | cons x l ih => rw [cons_append, testsFrom, testsFrom, ih, cons_append, append_assoc, singleton_append]

theorem front_of_le {a x : V} {before : List V} (low : ∀ y ∈ before, y < x) : front a before x = a := by
  have none : before.filter (x < ·) = [] := by
    apply filter_eq_nil_iff.2
    intro y here
    rw [decide_eq_true_iff]
    exact (low y here).not_gt
  rw [front, none]
  rfl

theorem front_append {v x : V} (lt : x < v) (l r : List V) : front a (l ++ v :: r) x = front v r x := by
  have kept : (v :: r).filter (x < ·) = v :: r.filter (x < ·) := filter_cons_of_pos (decide_eq_true lt)
  rw [front, front, filter_append, kept, getLastD_append_cons]

/-- What is behind a greater node does not see the nodes in front of it. -/
theorem testsFrom_behind (v : V) (l before : List V) {r : List V} (low : ∀ x ∈ r, x < v) :
    testsFrom a (l ++ v :: before) r = testsFrom v before r := by
  induction r generalizing before with
  | nil => rfl
  | cons x r ih =>
    rw [testsFrom, testsFrom, front_append a (low x mem_cons_self), append_assoc, cons_append,
      ih _ fun y here => low y (mem_cons_of_mem _ here)]

/-- Two chains that meet at a node which is taken out last. -/
theorem tests_merge {v : V} {l r : List V} (left : ∀ x ∈ l, x < v) (right : ∀ x ∈ r, x < v) :
    tests a (l ++ v :: r) = tests a l ++ (a, v) :: tests v r := by
  rw [tests, testsFrom_append, nil_append, testsFrom, front_of_le left, testsFrom_behind a v l [] right]
  rfl

theorem front_cases (x : V) : front a before x = a ∨ x < front a before x := by
  rw [front, getLastD_eq_getLast?]
  cases last : (before.filter (x < ·)).getLast? with
  | none => exact .inl rfl
  | some y =>
    have member := mem_of_getLast? last
    exact .inr (of_decide_eq_true (mem_filter.1 member).2)

theorem front_concat (c x : V) : front a (before ++ [c]) x = if x < c then c else front a before x := by
  split
  · next lt => exact front_append a lt before []
  · next not =>
    have dropped : [c].filter (x < ·) = [] := by simp [not]
    rw [front, filter_append, dropped, append_nil]
    rfl

/-- The node in front of `x` is its predecessor in the chain, if that is the first node or greater than `x`. -/
theorem testsFrom_pairs {a : V} (before l : List V) (fresh : a ∉ before ++ l) :
    Forall₂ (fun t p => t.2 = p.2 ∧ (t.1 = p.1 ↔ p.1 = a ∨ p.2 < p.1)) (testsFrom a before l) (pairs (before.getLastD a) l) := by
  induction l generalizing before with
  | nil => exact .nil
  | cons x l ih =>
    have rest := ih (before ++ [x]) (by simpa using fresh)
    rw [getLastD_append_cons] at rest
    refine .cons ⟨rfl, ?_⟩ rest
    dsimp only
    rcases eq_nil_or_concat before with rfl | ⟨before, c, rfl⟩
    · exact iff_of_true rfl (.inl rfl)
    · rw [concat_eq_append] at fresh ⊢
      have other : c ≠ a := by
        rintro rfl
        simp at fresh
      rw [getLastD_append_cons, getLastD_nil, front_concat, or_iff_right other]
      split
      · next lt => exact iff_of_true rfl lt
      · next not =>
        refine iff_of_false ?_ not
        intro same
        rcases front_cases a before x with first | lt
        · exact other (same.symm.trans first)
        · exact not (same ▸ lt)

end Tests

/-! ### Two lists side by side -/

section Forall

variable {A B : Type*} {f : A → Bool} {g : B → Bool} {l : List A} {m : List B}

theorem forall₂_and {R S : A → B → Prop} (first : Forall₂ R l m) (second : Forall₂ S l m) :
    Forall₂ (fun a b => R a b ∧ S a b) l m := by
  induction first with
  | nil => exact .nil
  | cons head _ ih =>
    obtain ⟨head', tail'⟩ := forall₂_cons.1 second
    exact .cons ⟨head, head'⟩ (ih tail')

/-- A relation that only depends on the second list. -/
theorem forall₂_iff_right {R : A → B → Prop} {P : B → Prop} (same : Forall₂ (fun a b => R a b ↔ P b) l m) :
    Forall₂ R l m ↔ ∀ b ∈ m, P b := by
  induction same with
  | nil => simp
  | cons head _ ih => rw [forall₂_cons, forall_mem_cons, head, ih]

theorem countP_le (within : Forall₂ (fun a b => f a = true → g b = true) l m) : l.countP f ≤ m.countP g := by
  induction within with
  | nil => exact le_rfl
  | cons head _ ih =>
    rw [countP_cons, countP_cons]
    split
    · next here =>
      rw [if_pos (head here)]
      omega
    · omega

/-- If one count includes the other, they are equal when the other includes it too. -/
theorem countP_eq_iff (within : Forall₂ (fun a b => f a = true → g b = true) l m) :
    l.countP f = m.countP g ↔ Forall₂ (fun a b => g b = true → f a = true) l m := by
  induction within with
  | nil => exact iff_of_true rfl .nil
  | @cons a b l m head tail ih =>
    have le := countP_le tail
    rw [forall₂_cons, countP_cons, countP_cons]
    by_cases here : f a = true
    · rw [if_pos here, if_pos (head here), Nat.add_right_cancel_iff, ih]
      exact (and_iff_right fun _ => here).symm
    · rw [if_neg here, Nat.add_zero]
      by_cases there : g b = true
      · rw [if_pos there]
        exact iff_of_false (by omega) fun both => here (both.1 there)
      · rw [if_neg there, Nat.add_zero, ih]
        exact (and_iff_right fun yes => absurd yes there).symm

end Forall

end Osrm.Lib.Chain
