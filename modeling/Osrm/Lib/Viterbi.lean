import Mathlib.Algebra.Order.Monoid.WithTop
import Mathlib.Data.List.Chain

/-!
# Best sequences of states

A sequence picks one state for each of a list of times. Its score is the emission of the first
state, plus emission and transition for each further one; an emission may be impossible (`⊥`).

The value of a state is to be the best score of the sequences over a list of times that end in
it: it is `Bounded` if no such sequence scores more, and `Reached` if the parents lead back along
one with that score. Both hold of the emissions for a list of one time, and go over from a column
of values to the next one.
-/

namespace Osrm.Lib

open List

/-- States of a hidden process: when each may hold, and what holding it and moving on score. -/
structure ScoredStates (σ ι K : Type*) where
  time : σ → ι
  Valid : σ → Prop
  Possible : σ → σ → Prop
  emission : σ → WithBot K
  transition : σ → σ → K

namespace ScoredStates

section Scores

variable {σ ι K : Type*} [AddCommMonoid K] (M : ScoredStates σ ι K)

def score : List σ → WithBot K
  | [] => 0
  | [a] => M.emission a
  | a :: b :: rest => M.emission a + M.transition a b + score (b :: rest)

/-- The score of a prolonged sequence. -/
theorem score_snoc (cs : List σ) (a b : σ) :
    M.score (cs ++ [a] ++ [b]) = M.score (cs ++ [a]) + (M.emission b + M.transition a b) := by
  induction cs with
  | nil =>
    simp only [nil_append, cons_append, score]
    rw [add_assoc, add_comm (M.transition a b : WithBot K)]
  | cons c cs ih =>
    cases cs <;>
    · simp only [nil_append, cons_append, score] at ih ⊢
      rw [ih, add_assoc (M.emission c + _)]

/-- A sequence with a score ends in a state with an emission. -/
theorem emission_ne_bot {cs : List σ} {b : σ} (scored : M.score (cs ++ [b]) ≠ ⊥) : M.emission b ≠ ⊥ := by
  intro none
  apply scored
  rcases eq_nil_or_concat cs with rfl | ⟨cs, a, rfl⟩
  · exact none
  · rw [concat_eq_append, score_snoc, none, WithBot.bot_add, WithBot.add_bot]

end Scores

section Paths

variable {σ ι K : Type*} {M : ScoredStates σ ι K} {times : List ι} {cs : List σ} {a b : σ} {p : ι}

variable (M times cs) in
/-- Valid states at the given times, with possible moves between them. -/
structure Path : Prop where
  times : cs.map M.time = times
  valid : ∀ c ∈ cs, M.Valid c
  possible : cs.IsChain M.Possible

theorem Path.single (valid : M.Valid b) : M.Path [M.time b] [b] :=
  ⟨rfl, by simpa using valid, isChain_singleton b⟩

/-- The last state of a sequence. -/
theorem Path.last (path : M.Path (times ++ [p]) (cs ++ [b])) : M.Valid b ∧ M.time b = p := by
  have times := path.times
  rw [map_append] at times
  obtain ⟨-, last⟩ := append_inj' times rfl
  exact ⟨path.valid b (by simp), by simpa using last⟩

theorem Path.exists_snoc (path : M.Path (times ++ [p]) cs) : ∃ before b, cs = before ++ [b] := by
  rcases eq_nil_or_concat cs with rfl | ⟨before, b, rfl⟩
  · have lengths := congrArg length path.times
    simp at lengths
  · exact ⟨before, b, concat_eq_append⟩

/-- A chain of states, prolonged by one. -/
theorem isChain_snoc_iff {R : σ → σ → Prop} : (cs ++ [a] ++ [b]).IsChain R ↔ (cs ++ [a]).IsChain R ∧ R a b := by
  rw [isChain_append]
  constructor
  · intro ⟨chain, _, step⟩
    exact ⟨chain, step a (by simp) b (by simp)⟩
  · intro ⟨chain, step⟩
    refine ⟨chain, isChain_singleton b, ?_⟩
    intro x last y first
    obtain rfl : a = x := by simpa using last
    obtain rfl : b = y := by simpa using first
    exact step

theorem path_snoc_iff :
    M.Path (times ++ [p]) (cs ++ [a] ++ [b]) ↔ M.Path times (cs ++ [a]) ∧ M.Valid b ∧ M.time b = p ∧ M.Possible a b := by
  constructor
  · intro path
    have times := path.times
    rw [map_append] at times
    obtain ⟨possible, step⟩ := isChain_snoc_iff.1 path.possible
    refine ⟨⟨(append_inj' times rfl).1, ?_, possible⟩, path.last.1, path.last.2, step⟩
    intro c here
    exact path.valid c (mem_append_left _ here)
  · intro ⟨path, valid, time, step⟩
    refine ⟨?_, ?_, isChain_snoc_iff.2 ⟨path.possible, step⟩⟩
    · rw [map_append, path.times, map_singleton, time]
    · intro c here
      rcases mem_append.1 here with here | here
      · exact path.valid c here
      · rwa [mem_singleton.1 here]

end Paths

section Reached

variable {σ ι K : Type*} [AddCommMonoid K] {M : ScoredStates σ ι K} {times : List ι} {b : σ} {p : ι}
  {value value' : σ → WithBot K} {parent parent' : σ → σ}

variable (M value parent) in
/-- A value of state `b` is the score of the sequence to which the parents lead back. -/
def Reached (times : List ι) (b : σ) : Prop :=
  value b ≠ ⊥ → ∃ cs, M.Path times (cs ++ [b]) ∧ (cs ++ [b]).IsChain (fun a b => parent b = a) ∧ M.score (cs ++ [b]) = value b

theorem reached_first (valid : M.Valid b) (start : value b = M.emission b) : M.Reached value parent [M.time b] b :=
  fun _ => ⟨[], .single valid, isChain_singleton b, start.symm⟩

/-- Values that a step from the last column gives are reached. -/
theorem Reached.next (column : ∀ a, M.Valid a → M.time a = p → M.Reached value parent (times ++ [p]) a) (valid : M.Valid b)
    (attained : value b ≠ ⊥ → ∃ a, M.Valid a ∧ M.time a = p ∧ M.Possible a b ∧ parent b = a ∧
      value b = value a + (M.emission b + M.transition a b)) :
    M.Reached value parent (times ++ [p] ++ [M.time b]) b := by
  intro found
  obtain ⟨a, valid', time, possible, link, best⟩ := attained found
  have found' : value a ≠ ⊥ := by
    intro none
    apply found
    rw [best, none, WithBot.bot_add]
  obtain ⟨cs, before, links, score⟩ := column a valid' time found'
  refine ⟨cs ++ [a], path_snoc_iff.2 ⟨before, valid, rfl, possible⟩, isChain_snoc_iff.2 ⟨links, link⟩, ?_⟩
  rw [score_snoc, score, best]

/-- Parents matter at the given times only. -/
theorem Reached.congr (reached : M.Reached value parent times b) (same : value' b = value b)
    (parents : ∀ a, M.time a ∈ times → parent' a = parent a) : M.Reached value' parent' times b := by
  intro found
  rw [same] at found ⊢
  obtain ⟨cs, path, links, score⟩ := reached found
  refine ⟨cs, path, ?_, score⟩
  apply links.imp_of_mem_imp
  intro x y _ member link
  rwa [parents y]
  rw [← path.times]
  exact mem_map_of_mem member

end Reached

section Bounded

variable {σ ι K : Type*} [AddCommMonoid K] [LinearOrder K] {M : ScoredStates σ ι K} {times : List ι} {cs : List σ} {b : σ} {p : ι}
  {value value' : σ → WithBot K}

variable (M value) in
/-- No sequence that ends in state `b` scores more than its value. -/
def Bounded (times : List ι) (b : σ) : Prop :=
  ∀ cs, M.Path times (cs ++ [b]) → M.score (cs ++ [b]) ≤ value b

theorem bounded_first (start : value b = M.emission b) : M.Bounded value [M.time b] b := by
  intro cs path
  obtain rfl : cs = [] := by
    have lengths := congrArg length path.times
    simpa using lengths
  exact start.ge

/-- Bounded values bound those of the next column, if each of them is at least what a step gives. -/
theorem Bounded.next [IsOrderedAddMonoid K] (column : ∀ a, M.Valid a → M.time a = p → M.Bounded value (times ++ [p]) a)
    (bound : ∀ a, M.Valid a → M.time a = p → M.Possible a b → value a + (M.emission b + M.transition a b) ≤ value b) :
    M.Bounded value (times ++ [p] ++ [M.time b]) b := by
  intro cs path
  rcases eq_nil_or_concat cs with rfl | ⟨cs, a, rfl⟩
  · have lengths := congrArg length path.times
    simp at lengths
  · rw [concat_eq_append] at path ⊢
    obtain ⟨before, -, -, possible⟩ := path_snoc_iff.1 path
    obtain ⟨valid, time⟩ := before.last
    calc M.score (cs ++ [a] ++ [b]) = M.score (cs ++ [a]) + (M.emission b + M.transition a b) := M.score_snoc cs a b
      _ ≤ value a + (M.emission b + M.transition a b) := by gcongr; exact column a valid time cs before
      _ ≤ value b := bound a valid time possible

theorem Bounded.congr (bounded : M.Bounded value times b) (same : value' b = value b) : M.Bounded value' times b := by
  intro cs path
  rw [same]
  exact bounded cs path

/-- A sequence with the best value of a bounded column is best of all. -/
theorem Bounded.best (column : ∀ a, M.Valid a → M.time a = p → M.Bounded value (times ++ [p]) a)
    (most : ∀ a, M.Valid a → M.time a = p → value a ≤ value b) (score : M.score cs = value b) {other : List σ}
    (path : M.Path (times ++ [p]) other) : M.score other ≤ M.score cs := by
  obtain ⟨before, a, rfl⟩ := path.exists_snoc
  obtain ⟨valid, time⟩ := path.last
  rw [score]
  exact (column a valid time before path).trans (most a valid time)

end Bounded

end ScoredStates

end Osrm.Lib
