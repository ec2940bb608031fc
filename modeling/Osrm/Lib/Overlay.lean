import Osrm.Lib.LabelSetting

/-!
# Overlay graphs

The nodes of a graph are divided into regions, the classes of `same`. An arc is `inner`
or `crossing`. The overlay keeps the crossing arcs and replaces what happens inside a
region by a `clique`: for an entry and an exit of the region one arc with the weight of a
lightest inner walk. Overlay walks are as light as walks (`Walk.overlay`), and a search on
the overlay need not follow a clique arc by another one (`Pruned.followed`).
-/

namespace Osrm.Lib

open KeyedQueue

variable {V D : Type*}

/-- The arcs that stay in their region. -/
def inner (A : Arcs V) (same : V → V → Prop) : Arcs V := fun u v c => A u v c ∧ same u v

/-- The arcs that lead to another region. -/
def crossing (A : Arcs V) (same : V → V → Prop) : Arcs V := fun u v c => A u v c ∧ ¬ same u v

/-- An arc from each of `entries` to each of `exits`, as light as the lightest walk along `B`. -/
def clique (B : Arcs V) (entries exits : V → Prop) : Arcs V := fun u v c =>
  entries u ∧ exits v ∧ u ≠ v ∧ IsLeast {w | Walk B u v w} c

/-- The crossing arcs and the cliques. -/
def overlay (A : Arcs V) (same : V → V → Prop) (entries exits : V → Prop) : Arcs V := fun u v c =>
  crossing A same u v c ∨ clique (inner A same) entries exits u v c

section Walks

variable {A B : Arcs V} {same : V → V → Prop} {entries exits : V → Prop} {u v w s t : V} {c c' d : ℤ}

/-- A walk between different nodes leaves its start. -/
theorem Walk.leaves (walk : Walk A u v d) (ne : u ≠ v) : ∃ x c, A u x c ∧ u ≠ x := by
  induction walk with
  | nil u => exact absurd rfl ne
  | @cons u x v c d arc _ ih =>
    by_cases stay : u = x
    · subst stay
      exact ih ne
    · exact ⟨x, c, arc, stay⟩

/-- A walk between different nodes enters its end. -/
theorem Walk.arrives (walk : Walk A u v d) (ne : u ≠ v) : ∃ x c, A x v c ∧ x ≠ v := by
  obtain ⟨x, c, arc, leaves⟩ := walk.reverse.leaves ne.symm
  exact ⟨x, c, arc, leaves.symm⟩

theorem clique_walk (arc : clique B entries exits u v c) : Walk B u v c := arc.2.2.2.1

theorem clique_positive (pos : Positive B) : Positive (clique B entries exits) := by
  intro u v c ⟨_, _, ne, least⟩
  obtain ⟨d', le, loopless⟩ := least.1.loopless pos
  cases loopless with
  | nil => exact absurd rfl ne
  | @cons _ x _ c d arc rest =>
    have first := pos _ _ _ arc.2
    have later := rest.nonneg fun u v c arc => pos u v c arc.2
    omega

/-- The triangle inequality of a clique. -/
theorem clique_trans (pos : Positive B) (first : clique B entries exits u v c) (second : clique B entries exits v w c') :
    u = w ∨ ∃ c'' ≤ c + c', clique B entries exits u w c'' := by
  by_cases ne : u = w
  · exact .inl ne
  · obtain ⟨c'', le, least⟩ := exists_dist pos ((clique_walk first).append (clique_walk second))
    exact .inr ⟨c'', le, first.1, second.2.1, ne, least⟩

/-- An arc of the overlay stands for a walk. -/
theorem overlay_walk (arc : overlay A same entries exits u v c) : Walk A u v c := by
  rcases arc with arc | arc
  · exact .single arc.1
  · exact (clique_walk arc).mono fun u v c arc => arc.1

theorem overlay_positive (pos : Positive A) : Positive (overlay A same entries exits) := by
  rintro u v c (arc | arc)
  · exact pos _ _ _ arc.1
  · exact clique_positive (fun u v c arc => pos u v c arc.1) _ _ _ arc

variable (A same entries exits s t) in
/-- The overlay has a clique arc for every inner walk that a walk from `s` to `t` may need: from a node where it
starts or comes in from another region to a node where it ends or leaves for another one. -/
structure Doors : Prop where
  entry : ∀ u x c, inner A same u x c → u ≠ x → (u = s ∨ ∃ y c, crossing A same y u c) → entries u
  exit : ∀ v x c, inner A same x v c → x ≠ v → (v = t ∨ ∃ y c, crossing A same v y c) → exits v

variable (doors : Doors A same entries exits s t) (pos : Positive A)

include doors pos

/-- An inner walk from a place where a region is entered to one where it is left. -/
theorem Doors.through (enters : u = s ∨ ∃ y c, crossing A same y u c) (leaves : v = t ∨ ∃ y c, crossing A same v y c)
    (walk : Walk (inner A same) u v d) : ∃ d' ≤ d, Walk (overlay A same entries exits) u v d' := by
  have positive : Positive (inner A same) := fun u v c arc => pos u v c arc.1
  by_cases ne : u = v
  · subst ne
    exact ⟨0, walk.nonneg positive, .nil u⟩
  · obtain ⟨x, c, out, away⟩ := walk.leaves ne
    obtain ⟨y, c', into, apart⟩ := walk.arrives ne
    obtain ⟨m, le, least⟩ := exists_dist positive walk
    exact ⟨m, le, .single (.inr ⟨doors.entry u x c out away enters, doors.exit v y c' into apart leaves, ne, least⟩)⟩

/-- The part of a walk that is still to come, after an inner walk from the last place where a region was entered. -/
theorem Doors.remainder {x : V} (walk : Walk A x t d) :
    ∀ u a, (u = s ∨ ∃ y c, crossing A same y u c) → Walk (inner A same) u x a →
      ∃ d' ≤ a + d, Walk (overlay A same entries exits) u t d' := by
  induction walk with
  | nil x =>
    intro u a enters before
    rw [add_zero]
    exact doors.through pos enters (.inl rfl) before
  | @cons x y t c d arc rest ih =>
    intro u a enters before
    by_cases stays : same x y
    · obtain ⟨d', le, walk⟩ := ih doors u (a + c) enters (before.snoc ⟨arc, stays⟩)
      exact ⟨d', by omega, walk⟩
    · have cross : crossing A same x y c := ⟨arc, stays⟩
      obtain ⟨a', le, first⟩ := doors.through pos enters (.inr ⟨y, c, cross⟩) before
      obtain ⟨d', le', second⟩ := ih doors y 0 (.inr ⟨x, c, cross⟩) (.nil y)
      exact ⟨a' + (c + d'), by omega, first.append (.cons (.inl cross) second)⟩

/-- **The overlay keeps the distances**: a walk is matched by an overlay walk that is no heavier. -/
theorem Walk.overlay (walk : Walk A s t d) :
    ∃ d' ≤ d, Walk (overlay A same entries exits) s t d' := by
  obtain ⟨d', le, walk⟩ := doors.remainder pos walk s 0 (.inl rfl) (.nil s)
  exact ⟨d', by omega, walk⟩

end Walks

/-- The offers of a search that follows the arcs `cross`, and the arcs `cli` only from labels that did not arise
from such an arc themselves; `flag` marks the labels that did. -/
structure Pruned (offers : Label V D → List (Label V D)) (flag : D → Bool) (cross cli : Arcs V) : Prop where
  crosses : ∀ p v c, cross p.node v c → v = p.node ∨ ∃ o ∈ offers p, o.node = v ∧ o.weight = p.weight + c
  jumps : ∀ p v c, flag p.data = false → cli p.node v c → ∃ o ∈ offers p, o.node = v ∧ o.weight = p.weight + c
  origin : ∀ p, ∀ o ∈ offers p, (flag o.data = false ∧ cross p.node o.node (o.weight - p.weight)) ∨
    (flag o.data = true ∧ flag p.data = false ∧ cli p.node o.node (o.weight - p.weight))

namespace Pruned

variable {offers : Label V D → List (Label V D)} {flag : D → Bool} {cross cli : Arcs V} {Root : Label V D → Prop}
  {q : KeyedQueue V D}

section

variable (pruned : Pruned offers flag cross cli) (posCross : Positive cross) (posCli : Positive cli)

include pruned posCross posCli

theorem ascending :
    Ascending offers := by
  intro p o offered
  rcases pruned.origin p o offered with ⟨-, arc⟩ | ⟨-, -, arc⟩
  · have := posCross _ _ _ arc
    omega
  · have := posCli _ _ _ arc
    omega

/-- Pruning loses nothing: a settled label has been carried along all arcs of both kinds. -/
theorem followed
    (trans : ∀ u v w c c', cli u v c → cli v w c' → u = w ∨ ∃ c'' ≤ c + c', cli u w c'')
    (unmarked : ∀ l, Root l → flag l.data = false) (inv : Settling offers Root (fun _ => False) q) :
    ∀ p ∈ q.entries, p.queued = false → ∀ v c, cross p.node v c ∨ cli p.node v c → q.Reached v (p.weight + c) := by
  have relaxed : ∀ p ∈ q.entries, p.queued = false → ∀ v c,
      (∃ o ∈ offers p.toLabel, o.node = v ∧ o.weight = p.weight + c) → q.Reached v (p.weight + c) := by
    intro p hp settled v c ⟨o, offered, node, weight⟩
    rcases inv.relaxed p hp settled with skipped | reached
    · exact skipped.elim
    · rw [← node, ← weight]
      exact reached o offered
  intro p hp settled v c arc
  rcases arc with arc | arc
  · rcases pruned.crosses p.toLabel v c arc with rfl | offered
    · have := posCross _ _ _ arc
      exact ⟨p, hp, rfl, by omega⟩
    · exact relaxed p hp settled v c offered
  · cases marked : flag p.data with
    | false => exact relaxed p hp settled v c (pruned.jumps p.toLabel v c marked arc)
    | true =>
      -- the label arose from a clique arc of an unmarked label, which has an arc to `v` of its own
      rcases inv.origin p hp with root | ⟨p', hp', settled', offered⟩
      · rw [unmarked _ root] at marked
        cases marked
      · rcases pruned.origin p'.toLabel p.toLabel offered with ⟨unmarked, -⟩ | ⟨-, unmarked', first⟩
        · rw [unmarked] at marked
          cases marked
        · have c_pos := posCli _ _ _ arc
          rcases trans _ _ _ _ _ first arc with rfl | ⟨c'', le, direct⟩
          · have := posCli _ _ _ first
            exact ⟨p', hp', rfl, by omega⟩
          · have reached := relaxed p' hp' settled' v c'' (pruned.jumps p'.toLabel v c'' unmarked' direct)
            exact reached.mono (by omega)

end

end Pruned

end Osrm.Lib
