import Osrm.Lib.Walk
import Osrm.Lib.KeyedQueue
import Mathlib.Order.Interval.Finset.Defs
import Mathlib.Data.Set.Finite.Lattice

/-!
# Label-setting searches

A search takes the lightest waiting label, settles its node and offers labels to the
neighbours. What a settled label offers is a function `offers` of the label alone and
is strictly heavier than the label itself. Settled labels are then final, they are
settled in the order of their weights, and every label is a root or was offered by a
settled label (`Settling`). A search may leave a settled label unexpanded when `skip`
allows it.

`Settling.step` is the step of the loop, `Settling.remaining_step` bounds the number
of iterations, `Settling.induction` reads a property off the way labels arise, and
`frontier_of_walk` follows a walk through expanded labels to the first that waits.
-/

namespace Osrm.Lib

open List

open KeyedQueue

variable {V D : Type*} {q : KeyedQueue V D} {e a : Entry V D} {rs : List (Label V D)} {w : ℤ} {v : V}

/-- A test for "better" that refines the order of the weights. -/
structure Better (lt : Label V D → Label V D → Bool) : Prop where
  le : ∀ a b, lt a b = true → a.weight ≤ b.weight
  of_lt : ∀ a b, a.weight < b.weight → lt a b = true

def lighter (a b : Label V D) : Bool := a.weight < b.weight

theorem lighter_better : Better (lighter (V := V) (D := D)) where
  le _ _ h := (of_decide_eq_true h).le
  of_lt _ _ h := decide_eq_true h

/-- Settle `a` and offer the labels `rs`. -/
def KeyedQueue.settle [DecidableEq V] (lt : Label V D → Label V D → Bool) (q : KeyedQueue V D) (a : Entry V D)
    (rs : List (Label V D)) : KeyedQueue V D :=
  rs.foldl (relax lt) (q.dequeue a.node)

def KeyedQueue.insertAll (q : KeyedQueue V D) (rs : List (Label V D)) : KeyedQueue V D := rs.foldl .insert q

/-- What offering the labels `rs` does to a queue. -/
structure Offered (q q' : KeyedQueue V D) (rs : List (Label V D)) : Prop where
  unique : q'.Unique
  settled : ∀ e : Entry V D, e.queued = false → (e ∈ q'.entries ↔ e ∈ q.entries)
  improved : ∀ e ∈ q.entries, q'.Reached e.node e.weight
  reached : ∀ o ∈ rs, q'.Reached o.node o.weight
  origin : ∀ e ∈ q'.entries, e.queued = true → e ∈ q.entries ∨ e.toLabel ∈ rs

theorem Offered.refl (unique : q.Unique) : Offered q q [] where
  unique := unique
  settled _ _ := Iff.rfl
  improved e he := ⟨e, he, rfl, le_rfl⟩
  reached := by simp
  origin _ he _ := .inl he

theorem Offered.improves {q' : KeyedQueue V D} (h : Offered q q' rs)
    (reached : q.Reached v w) : q'.Reached v w := by
  obtain ⟨e, he, rfl, le⟩ := reached
  exact (h.improved e he).mono le

theorem Offered.trans {q₁ q₂ : KeyedQueue V D} {rs' : List (Label V D)} (h : Offered q q₁ rs)
    (h' : Offered q₁ q₂ rs') : Offered q q₂ (rs ++ rs') where
  unique := h'.unique
  settled e settled := (h'.settled e settled).trans (h.settled e settled)
  improved e he := h'.improves (h.improved e he)
  reached o ho := by
    rcases mem_append.1 ho with first | second
    · exact h'.improves (h.reached o first)
    · exact h'.reached o second
  origin e he queued := by
    rcases h'.origin e he queued with old | new
    · rcases h.origin e old queued with old | new
      · exact .inl old
      · exact .inr (mem_append_left _ new)
    · exact .inr (mem_append_right _ new)

section Relax

variable [DecidableEq V] {lt : Label V D → Label V D → Bool}

/-- Relaxing a label heavier than every settled one. -/
theorem relax_offered (better : Better lt) (unique : q.Unique) (l : Label V D)
    (heavy : ∀ e ∈ q.entries, e.queued = false → e.weight < l.weight) : Offered q (q.relax lt l) [l] := by
  rcases relax_cases lt q l with ⟨fresh, eq⟩ | ⟨e, found, isBetter, eq⟩ | ⟨e, found, worse, eq⟩
  · refine ⟨unique.relax, ?_, ?_, ?_, ?_⟩ <;> rw [eq]
    · rintro e settled
      rw [mem_insert, or_iff_right]
      rintro rfl
      cases settled
    · intro e he
      exact ⟨e, mem_insert.2 (.inr he), rfl, le_rfl⟩
    · rintro o ho
      obtain rfl := mem_singleton.1 ho
      exact ⟨⟨o, true⟩, mem_insert.2 (.inl rfl), rfl, le_rfl⟩
    · rintro e he -
      rcases mem_insert.1 he with rfl | old
      · exact .inr (by simp)
      · exact .inl old
  · obtain ⟨he, node⟩ := find?_mem found
    have le := better.le _ _ isBetter
    -- a settled entry would be lighter than the offered label
    have queued : e.queued = true := by
      by_contra settled
      have := heavy e he (by simpa using settled)
      omega
    have mem : ∀ e', e' ∈ (q.relax lt l).entries ↔ (e' ∈ q.entries ∧ e'.node ≠ l.node) ∨ e' = ⟨l, true⟩ := by
      intro e'
      rw [eq, mem_update]
      constructor
      · rintro ⟨e₀, he₀, rfl⟩
        by_cases same : e₀.node = l.node
        · obtain rfl := unique.eq he he₀ (node.trans same.symm)
          simp [same, queued]
        · simp [same, he₀]
      · rintro (⟨he', other⟩ | rfl)
        · exact ⟨e', he', by simp [other]⟩
        · exact ⟨e, he, by simp [node, queued]⟩
    refine ⟨unique.relax, ?_, ?_, ?_, ?_⟩
    · intro e' settled
      rw [mem]
      constructor
      · rintro (⟨he', -⟩ | rfl)
        · exact he'
        · cases settled
      · intro he'
        refine .inl ⟨he', fun same => ?_⟩
        obtain rfl := unique.eq he he' (node.trans same.symm)
        rw [queued] at settled
        cases settled
    · intro e' he'
      by_cases same : e'.node = l.node
      · obtain rfl := unique.eq he he' (node.trans same.symm)
        exact ⟨⟨l, true⟩, (mem _).2 (.inr rfl), same.symm, le⟩
      · exact ⟨e', (mem _).2 (.inl ⟨he', same⟩), rfl, le_rfl⟩
    · intro o ho
      obtain rfl := mem_singleton.1 ho
      exact ⟨⟨o, true⟩, (mem _).2 (.inr rfl), rfl, le_rfl⟩
    · intro e' he' _
      rcases (mem e').1 he' with ⟨old, -⟩ | rfl
      · exact .inl old
      · exact .inr (by simp)
  · obtain ⟨he, node⟩ := find?_mem found
    have le : e.weight ≤ l.weight := by
      by_contra lighter
      rw [better.of_lt l e.toLabel (by omega)] at worse
      cases worse
    rw [eq]
    refine ⟨unique, fun _ _ => Iff.rfl, fun e he => ⟨e, he, rfl, le_rfl⟩, ?_, fun _ he _ => .inl he⟩
    intro o ho
    obtain rfl := mem_singleton.1 ho
    exact ⟨e, he, node, le⟩

/-- Relaxing a list of labels, each heavier than every settled one. -/
theorem relaxAll_offered (better : Better lt) (rs : List (Label V D)) : ∀ {q : KeyedQueue V D}, q.Unique →
    (∀ l ∈ rs, ∀ e ∈ q.entries, e.queued = false → e.weight < l.weight) →
    Offered q (rs.foldl (relax lt) q) rs := by
  induction rs with
  | nil => intro q unique _; exact .refl unique
  | cons l rs ih =>
    intro q unique heavy
    have first := relax_offered better unique l (heavy l (by simp))
    refine first.trans (ih first.unique fun l' hl' e he settled => ?_)
    exact heavy l' (mem_cons_of_mem _ hl') e ((first.settled e settled).1 he) settled

/-- Offers to the settled node itself that are not better than its label change nothing. -/
theorem settle_filter (unique : q.Unique) (mem : a ∈ q.entries)
    (own : ∀ o ∈ rs, o.node = a.node → lt o a.toLabel = false) :
    q.settle lt a rs = q.settle lt a (rs.filter (·.node ≠ a.node)) := by
  have main : ∀ (rs : List (Label V D)) (r : KeyedQueue V D), r.find? a.node = some { a with queued := false } →
      (∀ o ∈ rs, o.node = a.node → lt o a.toLabel = false) →
      rs.foldl (relax lt) r = (rs.filter (·.node ≠ a.node)).foldl (relax lt) r := by
    intro rs
    induction rs with
    | nil => intro r _ _; rfl
    | cons o rs ih =>
      intro r found own
      have later := fun o ho => own o (mem_cons_of_mem _ ho)
      rw [foldl_cons]
      by_cases here : o.node = a.node
      · have known : r.find? o.node = some { a with queued := false } := by
          rw [here]
          exact found
        rw [relax_of_worse known (own o (by simp) here)]
        simpa [here] using ih r found later
      · simpa [here] using ih _ ((find?_relax_of_ne here).trans found) later
  refine main rs _ ?_ own
  have settled : { a with queued := false } ∈ (q.dequeue a.node).entries := mem_dequeue.2 (.inr ⟨a, mem, rfl, rfl⟩)
  exact find?_of_mem (unique.dequeue a.node) settled

end Relax

/-- The invariant of a label-setting search. -/
structure Settling (offers : Label V D → List (Label V D)) (Root skip : Label V D → Prop)
    (q : KeyedQueue V D) : Prop where
  unique : q.Unique
  floor : ∀ a ∈ q.entries, ∀ b ∈ q.entries, a.queued = false → b.queued = true → a.weight ≤ b.weight
  rooted : ∀ l, Root l → q.Reached l.node l.weight
  origin : ∀ e ∈ q.entries, Root e.toLabel ∨
    ∃ p ∈ q.entries, p.queued = false ∧ e.toLabel ∈ offers p.toLabel
  relaxed : ∀ p ∈ q.entries, p.queued = false → skip p.toLabel ∨
    ∀ o ∈ offers p.toLabel, q.Reached o.node o.weight

/-- The offers of a label are heavier than the label. -/
def Ascending (offers : Label V D → List (Label V D)) : Prop := ∀ p, ∀ o ∈ offers p, p.weight < o.weight

namespace Settling

variable {offers : Label V D → List (Label V D)} {Root skip : Label V D → Prop} {q : KeyedQueue V D}
  {rs : List (Label V D)}

theorem mem_insertAll : ∀ {q : KeyedQueue V D} {e : Entry V D},
    e ∈ (q.insertAll rs).entries ↔ (e.toLabel ∈ rs ∧ e.queued = true) ∨ e ∈ q.entries := by
  induction rs with
  | nil => simp [insertAll]
  | cons l rs ih =>
    intro q e
    have head : e = ⟨l, true⟩ ↔ e.toLabel = l ∧ e.queued = true := by
      cases e
      simp
    simp only [insertAll, foldl_cons] at ih ⊢
    rw [ih, mem_insert, mem_cons]
    tauto

theorem insertAll_nodes : ∀ {q : KeyedQueue V D},
    (q.insertAll rs).entries.map (·.node) = (rs.map (·.node)).reverse ++ q.entries.map (·.node) := by
  induction rs with
  | nil => simp [insertAll]
  | cons l rs ih =>
    intro q
    simp only [insertAll, foldl_cons] at ih ⊢
    rw [ih]
    simp [KeyedQueue.insert]

theorem mem_start :
    e ∈ (empty.insertAll rs).entries ↔ e.toLabel ∈ rs ∧ e.queued = true := by
  simp [mem_insertAll, empty]

theorem start_isEmpty : (empty.insertAll rs).isEmpty = true ↔ rs = [] := by
  rw [isEmpty_iff_settled]
  constructor
  · intro settled
    cases rs with
    | nil => rfl
    | cons l rs =>
      have := settled ⟨l, true⟩ (mem_start.2 ⟨by simp, rfl⟩)
      cases this
  · rintro rfl e he
    have := (mem_start.1 he).1
    cases this

variable (offers skip) in
/-- The queue a search starts with: its roots, on pairwise different nodes. -/
theorem start {roots : List (Label V D)}
    (distinct : (roots.map (·.node)).Nodup) : Settling offers (· ∈ roots) skip (empty.insertAll roots) := by
  have mem : ∀ e, e ∈ (empty.insertAll roots).entries ↔ e.toLabel ∈ roots ∧ e.queued = true := fun e => mem_start
  refine ⟨?_, ?_, ?_, ?_, ?_⟩
  · unfold KeyedQueue.Unique
    rw [insertAll_nodes]
    simpa [empty] using distinct
  · intro a ha _ _ settled
    rw [((mem a).1 ha).2] at settled
    cases settled
  · intro l root
    exact ⟨⟨l, true⟩, (mem _).2 ⟨root, rfl⟩, rfl, le_rfl⟩
  · intro e he
    exact .inl ((mem e).1 he).1
  · intro p hp settled
    rw [((mem p).1 hp).2] at settled
    cases settled

/-- Labels arise from the roots by offers. -/
theorem induction (ascending : Ascending offers) (inv : Settling offers Root skip q) {P : Entry V D → Prop}
    (root : ∀ e ∈ q.entries, Root e.toLabel → P e)
    (offer : ∀ p ∈ q.entries, p.queued = false → P p → ∀ e ∈ q.entries, e.toLabel ∈ offers p.toLabel → P e) :
    ∀ e ∈ q.entries, P e := by
  obtain ⟨m, bound⟩ := (finite_toSet (q.entries.map (·.weight))).bddBelow
  have low : ∀ e ∈ q.entries, m ≤ e.weight := fun e he => bound (mem_map.2 ⟨e, he, rfl⟩)
  -- by induction on how far the weight lies above the lightest one
  have main : ∀ (k : ℕ), ∀ e ∈ q.entries, e.weight < m + k → P e := by
    intro k
    induction k with
    | zero =>
      intro e he lt
      have := low e he
      omega
    | succ k ih =>
      intro e he lt
      rcases inv.origin e he with isRoot | ⟨p, hp, settled, offered⟩
      · exact root e he isRoot
      · have := ascending _ _ offered
        exact offer p hp settled (ih p hp (by push_cast at lt; omega)) e he offered
  intro e he
  refine main ((e.weight - m).toNat + 1) e he ?_
  omega

section Step

variable [DecidableEq V] {lt : Label V D → Label V D → Bool} {a : Entry V D} {rs : List (Label V D)}

theorem mem_dequeue_top (inv : Settling offers Root skip q) (top : q.top? = some a) :
    e ∈ (q.dequeue a.node).entries ↔ (e ∈ q.entries ∧ e.node ≠ a.node) ∨ e = { a with queued := false } := by
  rw [mem_dequeue]
  have mem := (top?_mem top).1
  constructor
  · rintro (other | ⟨e', he', same, rfl⟩)
    · exact .inl other
    · rw [inv.unique.eq he' mem same]
      exact .inr rfl
  · rintro (other | rfl)
    · exact .inl other
    · exact .inr ⟨a, mem, rfl, rfl⟩

section Settle

variable (better : Better lt) (inv : Settling offers Root skip q) (top : q.top? = some a)
  (heavy : ∀ l ∈ rs, a.weight < l.weight)

include better inv top heavy

/-- What settling the lightest waiting label does. -/
theorem settle_offered : Offered (q.dequeue a.node) (q.settle lt a rs) rs := by
  refine relaxAll_offered better rs (inv.unique.dequeue _) fun l hl e he settled => ?_
  refine lt_of_le_of_lt ?_ (heavy l hl)
  rcases (inv.mem_dequeue_top top).1 he with ⟨old, -⟩ | rfl
  · exact inv.floor e old a (top?_mem top).1 settled (top?_mem top).2
  · exact le_rfl

/-- Settling a label changes no label that was settled before. -/
theorem settled_iff (settled : e.queued = false) :
    e ∈ (q.settle lt a rs).entries ↔ e ∈ q.entries ∨ e = { a with queued := false } := by
  rw [(settle_offered better inv top heavy).settled e settled, inv.mem_dequeue_top top]
  constructor
  · rintro (⟨old, -⟩ | new)
    · exact .inl old
    · exact .inr new
  · rintro (old | new)
    · refine .inl ⟨old, fun same => ?_⟩
      rw [inv.unique.eq old (top?_mem top).1 same, (top?_mem top).2] at settled
      cases settled
    · exact .inr new

/-- Labels only improve. -/
theorem settle_improves (reached : q.Reached v w) :
    (q.settle lt a rs).Reached v w := by
  refine (settle_offered better inv top heavy).improves ?_
  obtain ⟨e, he, rfl, le⟩ := reached
  by_cases same : e.node = a.node
  · obtain rfl := inv.unique.eq he (top?_mem top).1 same
    exact ⟨_, (inv.mem_dequeue_top top).2 (.inr rfl), rfl, le⟩
  · exact ⟨e, (inv.mem_dequeue_top top).2 (.inl ⟨he, same⟩), rfl, le⟩

/-- A waiting label was waiting before or has just been offered. -/
theorem queued_cases (he : e ∈ (q.settle lt a rs).entries)
    (queued : e.queued = true) : e ∈ q.entries ∨ e.toLabel ∈ rs := by
  rcases (settle_offered better inv top heavy).origin e he queued with old | new
  · rcases (inv.mem_dequeue_top top).1 old with ⟨old, -⟩ | rfl
    · exact .inl old
    · cases queued
  · exact .inr new

end Settle

/-- **One iteration keeps the invariant**, whether the settled label is expanded or may be skipped. -/
theorem step (better : Better lt) (ascending : Ascending offers) (inv : Settling offers Root skip q)
    (top : q.top? = some a) (expand : rs = offers a.toLabel ∨ rs = [] ∧ skip a.toLabel) :
    Settling offers Root skip (q.settle lt a rs) := by
  have sub : ∀ l ∈ rs, l ∈ offers a.toLabel := by
    rcases expand with rfl | ⟨rfl, -⟩
    · exact fun l hl => hl
    · simp
  have heavy : ∀ l ∈ rs, a.weight < l.weight := fun l hl => ascending _ _ (sub l hl)
  have offered := settle_offered better inv top heavy
  have improves : ∀ {v w}, q.Reached v w → (q.settle lt a rs).Reached v w :=
    settle_improves better inv top heavy
  have keeps : ∀ {e : Entry V D}, e.queued = false → e ∈ q.entries → e ∈ (q.settle lt a rs).entries :=
    fun settled he => (settled_iff better inv top heavy settled).2 (.inl he)
  have here : { a with queued := false } ∈ (q.settle lt a rs).entries :=
    (settled_iff better inv top heavy rfl).2 (.inr rfl)
  have originOld : ∀ e : Entry V D, ∀ e' ∈ q.entries, e'.toLabel = e.toLabel → Root e.toLabel ∨
      ∃ p ∈ (q.settle lt a rs).entries, p.queued = false ∧ e.toLabel ∈ offers p.toLabel := by
    intro e e' he' same
    rw [← same]
    rcases inv.origin e' he' with root | ⟨p, hp, settled, mem⟩
    · exact .inl root
    · exact .inr ⟨p, keeps settled hp, settled, mem⟩
  refine ⟨offered.unique, ?_, fun l root => improves (inv.rooted l root), ?_, ?_⟩
  · intro x hx y hy settled queued
    have xa : x.weight ≤ a.weight := by
      rcases (settled_iff better inv top heavy settled).1 hx with old | rfl
      · exact inv.floor x old a (top?_mem top).1 settled (top?_mem top).2
      · exact le_rfl
    have ay : a.weight ≤ y.weight := by
      rcases queued_cases better inv top heavy hy queued with old | new
      · exact top?_le top old queued
      · exact (heavy _ new).le
    exact xa.trans ay
  · intro e he
    cases queued : e.queued with
    | true =>
      rcases queued_cases better inv top heavy he queued with old | new
      · exact originOld e e old rfl
      · exact .inr ⟨_, here, rfl, sub _ new⟩
    | false =>
      rcases (settled_iff better inv top heavy queued).1 he with old | rfl
      · exact originOld e e old rfl
      · exact originOld _ a (top?_mem top).1 rfl
  · intro p hp settled
    rcases (settled_iff better inv top heavy settled).1 hp with old | rfl
    · rcases inv.relaxed p old settled with skipped | done
      · exact .inl skipped
      · exact .inr fun o ho => improves (done o ho)
    · rcases expand with rfl | ⟨-, skipped⟩
      · exact .inr offered.reached
      · exact .inl skipped

end Step

end Settling

section Termination

variable [DecidableEq V] [Fintype V] {q : KeyedQueue V D}

def KeyedQueue.settledNodes (q : KeyedQueue V D) : Finset V := (q.settled.map (·.node)).toFinset

/-- How many nodes may still be settled. -/
def KeyedQueue.remaining (q : KeyedQueue V D) : ℕ := Fintype.card V - q.settledNodes.card

omit [Fintype V] in
@[simp] theorem mem_settledNodes :
    v ∈ q.settledNodes ↔ ∃ e ∈ q.entries, e.queued = false ∧ e.node = v := by
  simp [settledNodes, and_assoc]

omit [Fintype V] in
/-- Giving up a queue settles every label. -/
theorem mem_deleteAll_dequeue (he : e ∈ q.entries) (v : V) :
    { e with queued := false } ∈ (q.dequeue v).deleteAll.entries := by
  apply mem_deleteAll.2
  by_cases same : e.node = v
  · exact ⟨{ e with queued := false }, mem_dequeue.2 (.inr ⟨e, he, same, rfl⟩), rfl⟩
  · exact ⟨e, mem_dequeue.2 (.inl ⟨he, same⟩), rfl⟩

omit [Fintype V] in
theorem top?_notMem_settledNodes (unique : q.Unique) (top : q.top? = some a) : a.node ∉ q.settledNodes := by
  rw [mem_settledNodes]
  rintro ⟨e, he, settled, same⟩
  rw [unique.eq he (top?_mem top).1 same, (top?_mem top).2] at settled
  cases settled

/-- Each iteration settles one more node. -/
theorem Settling.remaining_step {offers : Label V D → List (Label V D)} {Root skip : Label V D → Prop}
    {lt : Label V D → Label V D → Bool}
    (better : Better lt) (inv : Settling offers Root skip q) (top : q.top? = some a)
    (heavy : ∀ l ∈ rs, a.weight < l.weight) : (q.settle lt a rs).remaining < q.remaining := by
  have nodes : (q.settle lt a rs).settledNodes = insert a.node q.settledNodes := by
    ext v
    rw [Finset.mem_insert, mem_settledNodes, mem_settledNodes]
    constructor
    · rintro ⟨e, he, settled, rfl⟩
      rcases (inv.settled_iff better top heavy settled).1 he with old | rfl
      · exact .inr ⟨e, old, settled, rfl⟩
      · exact .inl rfl
    · rintro (rfl | ⟨e, he, settled, rfl⟩)
      · exact ⟨{ a with queued := false }, (inv.settled_iff better top heavy rfl).2 (.inr rfl), rfl, rfl⟩
      · exact ⟨e, (inv.settled_iff better top heavy settled).2 (.inl he), settled, rfl⟩
  have bound := Finset.card_le_univ (insert a.node q.settledNodes)
  have card := Finset.card_insert_of_notMem (top?_notMem_settledNodes inv.unique top)
  unfold remaining
  rw [nodes]
  omega

/-- Giving up a queue that is not empty settles at least one more node. -/
theorem remaining_deleteAll (unique : q.Unique) (top : q.top? = some a) :
    (q.dequeue a.node).deleteAll.remaining < q.remaining := by
  have sub : insert a.node q.settledNodes ⊆ (q.dequeue a.node).deleteAll.settledNodes := by
    intro v hv
    rw [mem_settledNodes]
    rcases Finset.mem_insert.1 hv with rfl | hv
    · exact ⟨_, mem_deleteAll_dequeue (top?_mem top).1 a.node, rfl, rfl⟩
    · obtain ⟨e, he, -, rfl⟩ := mem_settledNodes.1 hv
      exact ⟨_, mem_deleteAll_dequeue he a.node, rfl, rfl⟩
  have grown := Finset.card_le_card sub
  rw [Finset.card_insert_of_notMem (top?_notMem_settledNodes unique top)] at grown
  have bound := Finset.card_le_univ (q.dequeue a.node).deleteAll.settledNodes
  unfold remaining
  omega

omit [DecidableEq V] [Fintype V] in
/-- How many labels are lighter than `w`. -/
def KeyedQueue.below (q : KeyedQueue V D) (w : ℤ) : ℕ := (q.entries.filter (·.weight < w)).length

omit [DecidableEq V] [Fintype V] in
theorem below_lt_below {p : Entry V D} (hp : p ∈ q.entries) (lt : p.weight < w) :
    q.below p.weight < q.below w := by
  have part : q.entries.filter (·.weight < p.weight) = (q.entries.filter (·.weight < w)).filter (·.weight < p.weight) := by
    rw [filter_filter]
    refine filter_congr fun e _ => ?_
    simp only [Bool.and_eq_decide, decide_eq_true_eq, decide_eq_decide]
    omega
  unfold below
  rw [part, length_filter_lt_length_iff_exists]
  exact ⟨p, by simpa using ⟨hp, lt⟩, by simp⟩

omit [DecidableEq V] in
theorem below_lt_card (unique : q.Unique) (he : e ∈ q.entries) :
    q.below e.weight < Fintype.card V := by
  have fewer : q.below e.weight < q.entries.length :=
    length_filter_lt_length_iff_exists.2 ⟨e, he, by simp⟩
  have bound := Nodup.length_le_card unique
  rw [length_map] at bound
  omega

end Termination

/-- A walk from a labelled node to `m`, along arcs that the search has followed wherever they could lead to
`m` with a weight of at most `K`: either `m` is settled with such a weight, or such a label still waits. -/
theorem frontier_of_walk {A : Arcs V} {m : V} {K : ℤ}
    (followed : ∀ e ∈ q.entries, e.queued = false → ∀ a, Walk A e.node m a → e.weight + a ≤ K →
      ∀ v c, A e.node v c → q.Reached v (e.weight + c))
    (pos : Positive A) {u : V} {d : ℤ} (walk : Walk A u m d) : ∀ {w : ℤ}, q.Reached u w → w + d ≤ K →
      (∃ e ∈ q.entries, e.node = m ∧ e.queued = false ∧ e.weight ≤ K) ∨
        ∃ e ∈ q.entries, e.queued = true ∧ e.weight ≤ K := by
  induction walk with
  | nil u =>
    intro w reached le
    obtain ⟨e, he, rfl, ew⟩ := reached
    cases queued : e.queued with
    | true => exact .inr ⟨e, he, queued, by omega⟩
    | false => exact .inl ⟨e, he, rfl, queued, by omega⟩
  | @cons u x m c d arc rest ih =>
    intro w reached le
    obtain ⟨e, he, rfl, ew⟩ := reached
    cases queued : e.queued with
    | true =>
      have c_pos := pos _ _ _ arc
      have d_nonneg := rest.nonneg pos
      exact .inr ⟨e, he, queued, by omega⟩
    | false =>
      have next := followed e he queued (c + d) (.cons arc rest) (by omega) x c arc
      exact ih followed next (by omega)

end Osrm.Lib
