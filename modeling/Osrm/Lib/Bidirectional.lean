import Osrm.Lib.LabelSetting

/-!
# Searching from both ends

Two label-setting searches run towards each other, one along the arcs `A` from the
sources, one against them from the targets. The keys of the roots are part of a
connection's weight. `W` is the weight of the best connection found; once a node is
settled on both sides, `W` is at most the sum of its two labels (`Met`).

A search that looks at the labels of the other side, waiting or not, keeps more: `W` takes
into account every weight the other side offers to a settled node (`Touched`). It may then
stop as soon as two waiting labels cannot improve `W` (`Touched.stop`).

A label that a search settles is the least of its node (`Settling.least`), so the sums it
forms are bounded by those of least keys and arcs (`KeysWithin`).
-/

namespace Osrm.Lib

open KeyedQueue

variable {V D D' : Type*}

/-- The arcs as a search in one direction sees them. -/
def along (dir : Bool) (A : Arcs V) : Arcs V := if dir then A else opposite A

/-- `k` is the key of a root plus the weight of a walk from it to `x`. -/
def RealTo (A : Arcs V) (roots : List (Label V D)) (x : V) (k : ℤ) : Prop :=
  ∃ s ∈ roots, ∃ d, Walk A s.node x d ∧ s.weight + d = k

/-- `k` is the weight of a connection from a source to a target, keys included. -/
def Connects (A : Arcs V) (sources : List (Label V D)) (targets : List (Label V D')) (k : ℤ) : Prop :=
  ∃ s ∈ sources, ∃ t ∈ targets, ∃ d, Walk A s.node t.node d ∧ s.weight + d + t.weight = k

/-- The weights of all connections from a source to a target, given by their nodes and keys. -/
def Totals (A : Arcs V) (sources targets : List (V × ℤ)) : Set ℤ :=
  {k | ∃ s ∈ sources, ∃ t ∈ targets, ∃ d, Walk A s.1 t.1 d ∧ s.2 + d + t.2 = k}

/-- Nodes settled on both sides have been taken into account. -/
def Met (q : KeyedQueue V D) (r : KeyedQueue V D') (W : ℤ) : Prop :=
  ∀ a ∈ q.entries, ∀ b ∈ r.entries, a.queued = false → b.queued = false → a.node = b.node →
    W ≤ a.weight + b.weight

section Lemmas

variable {A B : Arcs V} {roots sources : List (Label V D)} {targets : List (Label V D')} {x y : V} {k k' d : ℤ}
  {r : KeyedQueue V D'} {q : KeyedQueue V D} {W : ℤ} {offers : Label V D → List (Label V D)}

theorem mem_totals_singleton {s t : V} {a b : ℤ} : k ∈ Totals A [(s, a)] [(t, b)] ↔ ∃ d, Walk A s t d ∧ a + d + b = k := by
  simp [Totals]

/-- Arcs that are no shorter than the ways between their ends in another graph make no shorter connections. -/
theorem Totals.bind_le {S T : List (V × ℤ)} (sub : ∀ u v c, A u v c → ∃ c' ≤ c, Walk B u v c') (total : k ∈ Totals A S T) :
    ∃ k' ∈ Totals B S T, k' ≤ k := by
  obtain ⟨s, hs, t, ht, d, walk, rfl⟩ := total
  obtain ⟨d', le, walk'⟩ := walk.bind_le sub
  exact ⟨_, ⟨s, hs, t, ht, d', walk', rfl⟩, by omega⟩

theorem RealTo.root {l : Label V D} (mem : l ∈ roots) : RealTo A roots l.node l.weight :=
  ⟨l, mem, 0, .nil _, by simp⟩

theorem RealTo.walk (h : RealTo A roots x k) (walk : Walk A x y d) : RealTo A roots y (k + d) := by
  obtain ⟨s, hs, d', walk', rfl⟩ := h
  exact ⟨s, hs, d' + d, walk'.append walk, by omega⟩

/-- Arcs that stand for walks carry the labels of those walks. -/
theorem RealTo.mono (h : RealTo B roots x k) (sound : ∀ u v c, B u v c → Walk A u v c) : RealTo A roots x k := by
  obtain ⟨s, hs, d, walk, rfl⟩ := h
  exact ⟨s, hs, d, walk.bind sound, rfl⟩

/-- A walk to `x` from the sources and one against the arcs from the targets make a connection. -/
theorem RealTo.connects (h : RealTo A sources x k) (h' : RealTo (opposite A) targets x k') :
    Connects A sources targets (k + k') := by
  obtain ⟨s, hs, d, walk, rfl⟩ := h
  obtain ⟨t, ht, d', walk', rfl⟩ := h'
  exact ⟨s, hs, t, ht, d + d', walk.append walk'.of_reverse, by omega⟩

theorem Met.symm (met : Met q r W) : Met r q W := by
  intro b hb a ha settledB settledA same
  rw [add_comm]
  exact met a ha b hb settledA settledB same.symm

theorem Met.mono {W' : ℤ} (met : Met q r W) (le : W' ≤ W) : Met q r W' :=
  fun a ha b hb settledA settledB same => le.trans (met a ha b hb settledA settledB same)

/-- Settling a node whose meeting has been taken into account. -/
theorem Met.settle [DecidableEq V] {Root skip : Label V D → Prop}
    {lt : Label V D → Label V D → Bool} {a : Entry V D}
    {rs : List (Label V D)} (better : Better lt) (inv : Settling offers Root skip q) (top : q.top? = some a)
    (heavy : ∀ l ∈ rs, a.weight < l.weight) (met : Met q r W)
    (here : ∀ b ∈ r.entries, b.queued = false → a.node = b.node → W ≤ a.weight + b.weight) :
    Met (q.settle lt a rs) r W := by
  intro e he b hb settledE settledB same
  rcases (inv.settled_iff better top heavy settledE).1 he with old | rfl
  · exact met e old b hb settledE settledB same
  · exact here b hb settledB same

/-- Every label stands for a walk, where offers follow walks. -/
theorem Settling.real {skip : Label V D → Prop} {q : KeyedQueue V D}
    (ascending : Ascending offers) (inv : Settling offers (· ∈ roots) skip q)
    (sound : ∀ p, ∀ o ∈ offers p, Walk A p.node o.node (o.weight - p.weight)) :
    ∀ e ∈ q.entries, RealTo A roots e.node e.weight := by
  refine inv.induction ascending (fun e _ root => .root root) ?_
  intro p _ _ real e _ offered
  have walk := real.walk (sound _ _ offered)
  rwa [add_sub_cancel] at walk

end Lemmas

section Touching

/-- A weight that the search offers to `v`: the key of a root, or what a settled label carries along an arc. -/
def Offers (A : Arcs V) (roots : List (Label V D)) (q : KeyedQueue V D) (v : V) (w : ℤ) : Prop :=
  (∃ l ∈ roots, l.node = v ∧ l.weight = w) ∨
    ∃ p ∈ q.entries, p.queued = false ∧ ∃ c, A p.node v c ∧ p.weight + c = w

/-- Settled labels have been carried along the arcs. -/
def Followed (A : Arcs V) (q : KeyedQueue V D) : Prop :=
  ∀ p ∈ q.entries, p.queued = false → ∀ v c, A p.node v c → q.Reached v (p.weight + c)

/-- What `q` offers to a node settled in `r` has been taken into account. -/
def Touched (A : Arcs V) (roots : List (Label V D)) (q : KeyedQueue V D) (r : KeyedQueue V D') (W : ℤ) : Prop :=
  ∀ b ∈ r.entries, b.queued = false → ∀ w, Offers A roots q b.node w → W ≤ w + b.weight

variable {A : Arcs V} {roots : List (Label V D)} {roots' : List (Label V D')} {q : KeyedQueue V D} {r : KeyedQueue V D'}
  {W : ℤ}

theorem Offers.reached {v : V} {w : ℤ} (rooted : ∀ l ∈ roots, q.Reached l.node l.weight) (followed : Followed A q)
    (offers : Offers A roots q v w) : q.Reached v w := by
  rcases offers with ⟨l, hl, rfl, rfl⟩ | ⟨p, hp, settled, c, arc, rfl⟩
  · exact rooted l hl
  · exact followed p hp settled v c arc

theorem Touched.mono {W' : ℤ} (touched : Touched A roots q r W) (le : W' ≤ W) : Touched A roots q r W' :=
  fun b hb settled w offers => le.trans (touched b hb settled w offers)

section Settle

variable [DecidableEq V] {offers : Label V D → List (Label V D)} {Root skip : Label V D → Prop}
  {lt : Label V D → Label V D → Bool} {a : Entry V D} {rs : List (Label V D)}

variable (better : Better lt) (inv : Settling offers Root skip q) (top : q.top? = some a)

include better inv top

/-- Settling a node of `q` whose labels in `r` have been taken into account. -/
theorem Touched.settle (heavy : ∀ l ∈ rs, a.weight < l.weight) (touched : Touched A roots q r W) (followed : Followed (opposite A) r)
    (here : ∀ b ∈ r.entries, b.node = a.node → W ≤ a.weight + b.weight) : Touched A roots (q.settle lt a rs) r W := by
  intro b hb settled w offered
  rcases offered with root | ⟨p, hp, out, c, arc, rfl⟩
  · exact touched b hb settled w (.inl root)
  · rcases (inv.settled_iff better top heavy out).1 hp with old | rfl
    · exact touched b hb settled _ (.inr ⟨p, old, out, c, arc, rfl⟩)
    · -- `r` has carried the label of `b` back along the arc
      obtain ⟨b', hb', node, le⟩ := followed b hb settled a.node c arc
      have := here b' hb' node
      simp only
      omega

/-- The same, seen from the other side. -/
theorem Touched.settle_other {roots : List (Label V D')} (heavy : ∀ l ∈ rs, a.weight < l.weight) (touched : Touched A roots r q W)
    (rooted : ∀ l ∈ roots, r.Reached l.node l.weight) (followed : Followed A r)
    (here : ∀ b ∈ r.entries, b.node = a.node → W ≤ a.weight + b.weight) : Touched A roots r (q.settle lt a rs) W := by
  intro e he settled w offered
  rcases (inv.settled_iff better top heavy settled).1 he with old | rfl
  · exact touched e old settled w offered
  · obtain ⟨b, hb, node, le⟩ := offered.reached rooted followed
    have := here b hb node
    simp only
    omega

end Settle

/-- **When to stop**: a connection is no lighter than `W`, or no lighter than two labels that still wait. -/
theorem Touched.stop (pos : Positive A) (touched : Touched A roots q r W) (touched' : Touched (opposite A) roots' r q W)
    (rooted : ∀ l ∈ roots, q.Reached l.node l.weight) (followed : Followed A q)
    (rooted' : ∀ l ∈ roots', r.Reached l.node l.weight) (followed' : Followed (opposite A) r)
    {t : Label V D'} (ht : t ∈ roots') {x : V} {d : ℤ} (walk : Walk A x t.node d) : ∀ {w : ℤ}, Offers A roots q x w →
      W ≤ w + d + t.weight ∨ ∃ e ∈ q.entries, ∃ e' ∈ r.entries, e.queued = true ∧ e'.queued = true ∧
        e.weight + e'.weight ≤ w + d + t.weight := by
  have positive : Positive (opposite A) := fun u v c arc => pos v u c arc
  -- the search in `r` has come back as far as the start of the walk, or a label waits on the way
  have back : ∀ {x d w}, Walk A x t.node d → Offers A roots q x w → W ≤ w + d + t.weight ∨
      ∃ e' ∈ r.entries, e'.queued = true ∧ e'.weight ≤ t.weight + d := by
    intro x d w walk offers
    rcases frontier_of_walk (fun e he settled _ _ _ => followed' e he settled) positive walk.reverse (rooted' t ht) le_rfl with
      ⟨b, hb, rfl, settled, le⟩ | waiting
    · have := touched b hb settled w offers
      exact .inl (by omega)
    · exact .inr waiting
  generalize last : t.node = y at walk back
  induction walk with
  | nil x =>
    intro w offers
    obtain ⟨e, he, rfl, le⟩ := offers.reached rooted followed
    cases queued : e.queued with
    | false =>
      have := touched' e he queued t.weight (.inl ⟨t, ht, last, rfl⟩)
      exact .inl (by omega)
    | true =>
      rcases back (.nil _) offers with done | ⟨e', he', queued', le'⟩
      · exact .inl done
      · exact .inr ⟨e, he, e', he', queued, queued', by omega⟩
  | @cons x v y c d arc rest ih =>
    intro w offers
    obtain ⟨e, he, rfl, le⟩ := offers.reached rooted followed
    cases queued : e.queued with
    | false =>
      rcases ih last back (.inr ⟨e, he, queued, c, arc, rfl⟩) with done | ⟨e₁, he₁, e₂, he₂, q₁, q₂, sum⟩
      · exact .inl (by omega)
      · exact .inr ⟨e₁, he₁, e₂, he₂, q₁, q₂, by omega⟩
    | true =>
      rcases back (.cons arc rest) offers with done | ⟨e', he', queued', le'⟩
      · exact .inl done
      · exact .inr ⟨e, he, e', he', queued, queued', by omega⟩

end Touching

section Within

variable {A E : Arcs V} {roots : List (Label V D)} {q : KeyedQueue V D} {offers : Label V D → List (Label V D)}
  {skip : Label V D → Prop} {B : ℤ} {e : Entry V D}

variable (A E roots B) in
/-- What a search along `A` adds up stays below `B`: the keys of the roots, and the least key of a node continued by an
arc of `E`. -/
structure KeysWithin : Prop where
  root : ∀ l ∈ roots, -B < l.weight ∧ l.weight < B
  sum : ∀ u k v c, IsLeast {k | RealTo A roots u k} k → E u v c → k + c < B

/-- Where all arcs go down a height, the height bounds the keys. -/
theorem KeysWithin.of_height (h : V → ℤ) (arc : ∀ u v c, A u v c → c + h v ≤ h u) (arc' : ∀ u v c, E u v c → c + h v ≤ h u)
    (root : ∀ l ∈ roots, -B < l.weight ∧ l.weight < B ∧ ∀ v, l.weight + (h l.node - h v) < B) : KeysWithin A E roots B where
  root l hl := ⟨(root l hl).1, (root l hl).2.1⟩
  sum u k v c least last := by
    obtain ⟨s, hs, d, walk, rfl⟩ := least.1
    have climbed := walk.le_height arc
    have := arc' u v c last
    have := (root s hs).2.2 v
    omega

section Least

variable (pos : Positive A) (inv : Settling offers (· ∈ roots) skip q)
  (along : ∀ p, ∀ o ∈ offers p, A p.node o.node (o.weight - p.weight)) (followed : Followed A q)

include pos inv along followed

/-- A label that is settled, or is settled next, is the least of its node. -/
theorem Settling.least (he : e ∈ q.entries) (next : e.queued = false ∨ q.top? = some e) :
    IsLeast {k | RealTo A roots e.node k} e.weight := by
  have ascending : Ascending offers := fun p o offered => sub_pos.1 (pos _ _ _ (along p o offered))
  refine ⟨Settling.real ascending inv (fun p o offered => .single (along p o offered)) e he, ?_⟩
  rintro _ ⟨s, hs, d, walk, rfl⟩
  rcases frontier_of_walk (fun e he settled _ _ _ => followed e he settled) pos walk (inv.rooted s hs) le_rfl with
    ⟨e', he', node, -, light⟩ | ⟨e', he', queued, light⟩
  · rwa [inv.unique.eq he he' node.symm]
  · rcases next with settled | top
    · exact (inv.floor e he e' he' settled queued).trans light
    · exact (top?_le top he' queued).trans light

/-- No label exceeds the bound. -/
theorem Settling.within (keys : KeysWithin A E roots B) (sub : ∀ u v c, A u v c → E u v c) :
    ∀ e ∈ q.entries, -B < e.weight ∧ e.weight < B := by
  have ascending : Ascending offers := fun p o offered => sub_pos.1 (pos _ _ _ (along p o offered))
  refine inv.induction ascending (fun e _ isRoot => keys.root _ isRoot) ?_
  intro p hp settled above e _ offered
  have heavier := ascending _ _ offered
  have sum := keys.sum _ _ _ _ (Settling.least pos inv along followed hp (.inl settled)) (sub _ _ _ (along _ _ offered))
  omega

end Least

end Within

end Osrm.Lib
