import Mathlib.Data.Int.LeastGreatest
import Mathlib.Tactic.Linarith

/-!
# Weighted walks

A weighted digraph is a relation `A u v c`: an arc from `u` to `v` of weight `c`.
Parallel arcs are allowed. `Walk A u v d` says that some walk along `A` leads from
`u` to `v` with total weight `d`; the distance from `u` to `v` is the least such `d`.
Two digraphs are compared by translating each arc of one into a walk of the other
(`Walk.bind`, `Walk.bind_le`).
-/

namespace Osrm.Lib

/-- A weighted digraph on `V`, as its arc relation. -/
abbrev Arcs (V : Type*) := V → V → ℤ → Prop

/-- A walk along `A` with its total weight. -/
inductive Walk {V : Type*} (A : Arcs V) : V → V → ℤ → Prop
  | nil (u : V) : Walk A u u 0
  | cons {u v w : V} {c d : ℤ} : A u v c → Walk A v w d → Walk A u w (c + d)

def Positive {V : Type*} (A : Arcs V) : Prop := ∀ u v c, A u v c → 0 < c

def opposite {V : Type*} (A : Arcs V) : Arcs V := fun u v c => A v u c

section Walks

variable {V : Type*} {A B : Arcs V} {u v w : V} {c d e : ℤ} {l : List V}

theorem Walk.single (h : A u v c) : Walk A u v c := by
  simpa using Walk.cons h (.nil v)

theorem Walk.append (h : Walk A u v d) (h' : Walk A v w e) : Walk A u w (d + e) := by
  induction h with
  | nil u => simpa using h'
  | cons arc _ ih =>
    rw [add_assoc]
    exact .cons arc (ih h')

theorem Walk.snoc (h : Walk A u v d) (arc : A v w c) : Walk A u w (d + c) :=
  h.append (.single arc)

theorem Walk.mono (sub : ∀ u v c, A u v c → B u v c) (h : Walk A u v d) : Walk B u v d := by
  induction h with
  | nil u => exact .nil u
  | cons arc _ ih => exact .cons (sub _ _ _ arc) ih

/-- Each arc of `A` is a walk of `B` of the same weight. -/
theorem Walk.bind (sub : ∀ u v c, A u v c → Walk B u v c) (h : Walk A u v d) : Walk B u v d := by
  induction h with
  | nil u => exact .nil u
  | cons arc _ ih => exact (sub _ _ _ arc).append ih

/-- Each arc of `A` is matched by a walk of `B` that is no heavier. -/
theorem Walk.bind_le (sub : ∀ u v c, A u v c → ∃ c' ≤ c, Walk B u v c') (h : Walk A u v d) :
    ∃ d' ≤ d, Walk B u v d' := by
  induction h with
  | nil u => exact ⟨0, le_refl _, .nil u⟩
  | cons arc _ ih =>
    obtain ⟨c', hc, first⟩ := sub _ _ _ arc
    obtain ⟨d', hd, rest⟩ := ih
    exact ⟨c' + d', add_le_add hc hd, first.append rest⟩

/-- Each arc of `A` is matched by an arc of `B` that is no heavier. -/
theorem Walk.mono_le (sub : ∀ u v c, A u v c → ∃ c' ≤ c, B u v c') (h : Walk A u v d) :
    ∃ d' ≤ d, Walk B u v d' :=
  h.bind_le fun u v c arc =>
    let ⟨c', hc, arc'⟩ := sub u v c arc
    ⟨c', hc, .single arc'⟩

theorem Walk.reverse (h : Walk A u v d) : Walk (opposite A) v u d := by
  induction h with
  | nil u => exact .nil u
  | cons arc _ ih =>
    rw [add_comm]
    exact ih.snoc arc

theorem Walk.of_reverse (h : Walk (opposite A) u v d) : Walk A v u d := h.reverse

/-- A walk descends by its weight where every arc does. -/
theorem Walk.le_height {H : V → ℤ} (descends : ∀ u v c, A u v c → c + H v ≤ H u) (h : Walk A u v d) : d + H v ≤ H u := by
  induction h with
  | nil u => exact (zero_add _).le
  | cons arc _ ih =>
    have := descends _ _ _ arc
    omega

theorem Walk.nonneg (pos : Positive A) (h : Walk A u v d) : 0 ≤ d := by
  induction h with
  | nil u => exact le_refl _
  | cons arc _ ih =>
    have := pos _ _ _ arc
    omega

/-- Arcs from a node to itself never shorten a walk of positive arcs. -/
theorem Walk.loopless (pos : Positive A) (h : Walk A u v d) :
    ∃ d' ≤ d, Walk (fun u v c => u ≠ v ∧ A u v c) u v d' := by
  induction h with
  | nil u => exact ⟨0, le_refl _, .nil u⟩
  | @cons u v w c d arc _ ih =>
    obtain ⟨d', hd, rest⟩ := ih
    have hc := pos _ _ _ arc
    by_cases same : u = v
    · subst same
      exact ⟨d', by omega, rest⟩
    · exact ⟨c + d', by omega, .cons ⟨same, arc⟩ rest⟩

/-- A property of nodes that every arc carries from its start to its end holds along a walk. -/
theorem Walk.within {P : V → Prop} (step : ∀ u v c, A u v c → P u → P v) (h : Walk A u v d) (start : P u) :
    P v ∧ Walk (fun x y c => P x ∧ A x y c) u v d := by
  induction h with
  | nil u => exact ⟨start, .nil u⟩
  | cons arc _ ih =>
    obtain ⟨last, rest⟩ := ih (step _ _ _ arc start)
    exact ⟨last, .cons ⟨start, arc⟩ rest⟩

theorem Walk.map {W : Type*} {B : Arcs W} {f : V → W} (sub : ∀ u v c, A u v c → B (f u) (f v) c) (h : Walk A u v d) :
    Walk B (f u) (f v) d := by
  induction h with
  | nil u => exact .nil _
  | cons arc _ ih => exact .cons (sub _ _ _ arc) ih

/-- A walk along `A` with the nodes it comes to after its start. -/
inductive Trail (A : Arcs V) : V → List V → V → ℤ → Prop
  | nil (u : V) : Trail A u [] u 0
  | cons {u v w : V} {l : List V} {c d : ℤ} : A u v c → Trail A v l w d → Trail A u (v :: l) w (c + d)

theorem Trail.walk (h : Trail A u l v d) : Walk A u v d := by
  induction h with
  | nil u => exact .nil u
  | cons arc _ ih => exact .cons arc ih

theorem Trail.append {l' : List V} (h : Trail A u l v d) (h' : Trail A v l' w e) : Trail A u (l ++ l') w (d + e) := by
  induction h with
  | nil u => simpa using h'
  | cons arc _ ih =>
    rw [add_assoc]
    exact .cons arc (ih h')

theorem Trail.mono (sub : ∀ u v c, A u v c → B u v c) (h : Trail A u l v d) : Trail B u l v d := by
  induction h with
  | nil u => exact .nil u
  | cons arc _ ih => exact .cons (sub _ _ _ arc) ih

end Walks

/-- A nonempty set of integers with a lower bound has a least element. -/
theorem exists_isLeast_int {S : Set ℤ} (b : ℤ) (bound : ∀ x ∈ S, b ≤ x) (ne : S.Nonempty) :
    ∃ m, IsLeast S m := by
  obtain ⟨m, hm, least⟩ := Int.exists_least_of_bdd ⟨b, bound⟩ ne
  exact ⟨m, hm, least⟩

/-- With positive arcs a reachable node has a distance. -/
theorem exists_dist {V : Type*} {A : Arcs V} (pos : Positive A) {u v : V} {d : ℤ} (h : Walk A u v d) :
    ∃ m ≤ d, IsLeast {x | Walk A u v x} m := by
  obtain ⟨m, hm⟩ := exists_isLeast_int 0 (fun x hx => Walk.nonneg pos hx) ⟨d, h⟩
  exact ⟨m, hm.2 h, hm⟩

end Osrm.Lib
