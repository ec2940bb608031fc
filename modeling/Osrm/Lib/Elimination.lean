import Osrm.Lib.Walk

/-!
# Eliminating an independent set of nodes

One round of node elimination replaces the arcs `A` by the arcs `A'` on the nodes
outside `S`. A path `u → v → w` through an eliminated `v` is either bridged by an arc
of `A'`, or left out because of a witness: a walk of `A` from `u` to `w` that avoids
`v` and is no heavier. Witnesses may run through other nodes of `S`, so the witness of
one node may be destroyed by the elimination of another. The distance is kept all the
same when no two nodes of `S` are adjacent or have a common neighbour
(`Elimination.keeps`): the first step of a witness then leaves `S`, and the rest is
lighter.

Weights from the cap `M` on are not bridged, so only walks lighter than `M` are kept.

A `Hierarchy` records a whole sequence of rounds: every walk of the original arcs is
matched by arcs of eliminated nodes going up, a walk between remaining nodes, and arcs
of eliminated nodes going down.
-/

namespace Osrm.Lib

/-- One elimination round on the arcs `A`, with result `A'`. -/
structure Elimination {V : Type*} (A A' : Arcs V) (S : Set V) (M : ℤ) : Prop where
  pos : Positive A
  /-- No two nodes of `S` are adjacent. -/
  apart : ∀ u v c, A u v c → u ∈ S → v ∉ S
  /-- No node has arcs to two nodes of `S`. -/
  single : ∀ u v v' c c', A u v c → A u v' c' → v ∈ S → v' ∈ S → v = v'
  /-- Arcs between remaining nodes stay or get lighter. -/
  keep : ∀ u w c, A u w c → u ∉ S → w ∉ S → ∃ c' ≤ c, A' u w c'
  /-- A path through an eliminated node is bridged, or has a witness. -/
  bridge : ∀ u v w c c', v ∈ S → A u v c → A v w c' → u ≠ w → c + c' < M →
    (∃ e ≤ c + c', A' u w e) ∨ ∃ e ≤ c + c', Walk (fun x y a => A x y a ∧ y ≠ v) u w e

section Round

variable {V : Type*} {A A' : Arcs V} {S : Set V} {M : ℤ}

/-- Elimination keeps every walk lighter than `M` between remaining nodes. The induction is on
the weight: the step out of `u` and the witness of a bridged pair both leave a lighter rest. -/
theorem Elimination.keeps (round : Elimination A A' S M) {u w : V} {d : ℤ} (h : Walk A u w d)
    (hu : u ∉ S) (hw : w ∉ S) (light : d < M) : ∃ d' ≤ d, Walk A' u w d' := by
  obtain ⟨k, hk⟩ : ∃ k : ℕ, d.toNat = k := ⟨_, rfl⟩
  induction k using Nat.strong_induction_on generalizing u w d with
  | _ k ih =>
    have lighter : ∀ {x y : V} {e : ℤ}, Walk A x y e → x ∉ S → y ∉ S → e < d →
        ∃ e' ≤ e, Walk A' x y e' := by
      intro x y e walk hx hy less
      have := walk.nonneg round.pos
      exact ih e.toNat (by omega) walk hx hy (by omega) rfl
    cases h with
    | nil => exact ⟨0, le_refl _, .nil u⟩
    | @cons _ v _ c d₁ arc rest =>
      have hc := round.pos _ _ _ arc
      by_cases hv : v ∈ S
      · -- the walk enters `v ∈ S` and leaves it again to some `x`
        cases rest with
        | nil => exact absurd hv hw
        | @cons _ x _ c₂ d₂ arc₂ rest₂ =>
          have hc₂ := round.pos _ _ _ arc₂
          have hd₂ := rest₂.nonneg round.pos
          have hx := round.apart _ _ _ arc₂ hv
          obtain ⟨d', hd', tail⟩ := lighter rest₂ hx hw (by omega)
          by_cases same : u = x
          · subst same
            exact ⟨d', by omega, tail⟩
          · have bridged : ∃ e ≤ c + c₂, Walk A' u x e := by
              rcases round.bridge u v x c c₂ hv arc arc₂ same (by omega) with ⟨e, he, arc'⟩ | ⟨e, he, witness⟩
              · exact ⟨e, he, .single arc'⟩
              · cases witness with
                | nil => exact absurd rfl same
                | @cons _ y _ a b step remaining =>
                  have ha := round.pos _ _ _ step.1
                  have hy : y ∉ S := fun inS => step.2 (round.single _ _ _ _ _ step.1 arc inS hv)
                  obtain ⟨a', ha', first⟩ := round.keep _ _ _ step.1 hu hy
                  obtain ⟨b', hb', last⟩ := lighter (remaining.mono fun _ _ _ h => h.1) hy hx (by omega)
                  exact ⟨a' + b', by omega, .cons first last⟩
            obtain ⟨e, he, head⟩ := bridged
            exact ⟨e + d', by omega, head.append tail⟩
      · obtain ⟨c', hc', first⟩ := round.keep _ _ _ arc hu hv
        obtain ⟨d', hd', tail⟩ := lighter rest hv hw (by omega)
        exact ⟨c' + d', by omega, .cons first tail⟩

/-- A walk whose end points may be eliminated: at most its first and its last arc belong to
eliminated nodes, the part between them is kept. -/
theorem Elimination.splits (round : Elimination A A' S M) {x y : V} {d : ℤ} (h : Walk A x y d)
    (light : d < M) : ∃ x' y' a b c, Walk (fun u w e => u ∈ S ∧ A u w e) x x' a ∧ Walk A' x' y' b ∧
      Walk (fun u w e => w ∈ S ∧ A u w e) y' y c ∧ a + b + c ≤ d := by
  have nonneg := h.nonneg round.pos
  by_cases same : x = y
  · subst same
    exact ⟨x, x, 0, 0, 0, .nil x, .nil x, .nil x, by omega⟩
  -- the last arc, when `y` is eliminated
  have last : ∀ {z : V} {e : ℤ}, Walk A z y e → z ∉ S → e ≤ d →
      ∃ y' b c, Walk A' z y' b ∧ Walk (fun u w e => w ∈ S ∧ A u w e) y' y c ∧ b + c ≤ e := by
    intro z e walk hz he
    by_cases hy : y ∈ S
    · rcases walk.reverse with _ | ⟨arc, rest⟩
      · exact absurd hy hz
      · rename_i t c₂ e₂
        have ht : t ∉ S := fun inS => round.apart _ _ _ arc inS hy
        have hc := round.pos _ _ _ arc
        obtain ⟨b, hb, walk'⟩ := round.keeps rest.of_reverse hz ht (by omega)
        exact ⟨t, b, c₂, walk', .single ⟨hy, arc⟩, by omega⟩
    · obtain ⟨b, hb, walk'⟩ := round.keeps walk hz hy (by omega)
      exact ⟨y, b, 0, walk', .nil y, by omega⟩
  by_cases hx : x ∈ S
  · cases h with
    | nil => exact absurd rfl same
    | @cons _ z _ c₁ d₁ arc rest =>
      have hz := round.apart _ _ _ arc hx
      have hc := round.pos _ _ _ arc
      obtain ⟨y', b, c, walk', down, le⟩ := last rest hz (by omega)
      exact ⟨z, y', c₁, b, c, .single ⟨hx, arc⟩, walk', down, by omega⟩
  · obtain ⟨y', b, c, walk', down, le⟩ := last h hx (le_refl _)
    exact ⟨x, y', 0, b, c, .nil x, walk', down, by omega⟩

end Round

/-- After some rounds: every walk of `A₀` lighter than `M` is matched by a walk up along `U`, a
walk along the remaining arcs `R`, and a walk down along `D`. -/
def Hierarchy {V : Type*} (A₀ U R D : Arcs V) (M : ℤ) : Prop :=
  ∀ s t d, Walk A₀ s t d → d < M →
    ∃ x y a b c, Walk U s x a ∧ Walk R x y b ∧ Walk D y t c ∧ a + b + c ≤ d

section Rounds

variable {V : Type*} {A₀ U R D U' R' D' : Arcs V} {S : Set V} {M : ℤ}

/-- One more round: the arcs of the newly eliminated nodes join `U` and `D`. -/
theorem Hierarchy.eliminate (h : Hierarchy A₀ U R D M) (round : Elimination R R' S M)
    (posU : Positive U) (posD : Positive D)
    (up : ∀ u w c, U u w c → U' u w c) (newUp : ∀ u w c, u ∈ S → R u w c → ∃ c' ≤ c, U' u w c')
    (down : ∀ u w c, D u w c → D' u w c) (newDown : ∀ u w c, w ∈ S → R u w c → ∃ c' ≤ c, D' u w c') :
    Hierarchy A₀ U' R' D' M := by
  intro s t d walk light
  obtain ⟨x, y, a, b, c, upWalk, mid, downWalk, le⟩ := h s t d walk light
  have ha := upWalk.nonneg posU
  have hc := downWalk.nonneg posD
  obtain ⟨x', y', a', b', c', first, mid', last, le'⟩ := round.splits mid (by omega)
  obtain ⟨a₁, ha₁, first'⟩ := first.mono_le fun u w e h => newUp u w e h.1 h.2
  obtain ⟨c₁, hc₁, last'⟩ := last.mono_le fun u w e h => newDown u w e h.1 h.2
  exact ⟨x', y', a + a₁, b', c₁ + c, (upWalk.mono up).append first', mid',
    last'.append (downWalk.mono down), by omega⟩

/-- Without remaining arcs every walk is matched by one up and one down. -/
theorem Hierarchy.peak (h : Hierarchy A₀ U R D M) (done : ∀ u v c, ¬ R u v c) {s t : V} {d : ℤ}
    (walk : Walk A₀ s t d) (light : d < M) : ∃ m a c, Walk U s m a ∧ Walk D m t c ∧ a + c ≤ d := by
  obtain ⟨x, y, a, b, c, up, mid, down, le⟩ := h s t d walk light
  cases mid with
  | nil => exact ⟨x, a, c, up, down, by omega⟩
  | cons arc _ => exact absurd arc (done _ _ _)

/-- A hierarchy under other names for the nodes. -/
theorem Hierarchy.rename (h : Hierarchy A₀ U R D M) (f : Equiv.Perm V) {A₁ : Arcs V}
    (back : ∀ u v c, A₁ (f u) (f v) c → A₀ u v c) (up : ∀ u v c, U u v c → U' (f u) (f v) c)
    (mid : ∀ u v c, R u v c → R' (f u) (f v) c) (down : ∀ u v c, D u v c → D' (f u) (f v) c) :
    Hierarchy A₁ U' R' D' M := by
  intro s t d walk light
  have walk₀ : Walk A₀ (f.symm s) (f.symm t) d := walk.map fun u v c arc =>
    back _ _ c (by simpa using arc)
  obtain ⟨x, y, a, b, c, upWalk, midWalk, downWalk, le⟩ := h _ _ d walk₀ light
  refine ⟨f x, f y, a, b, c, ?_, midWalk.map mid, ?_, le⟩
  · simpa using upWalk.map up
  · simpa using downWalk.map down

end Rounds

end Osrm.Lib
