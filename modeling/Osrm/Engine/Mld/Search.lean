import Osrm.Engine.Mld.Overlay

/-!
# The two searches of the multi-level query

Both searches run on the overlay of the regions. A settled node is compared with whatever
label the other heap has for it, so every weight that one side offers to a node settled on
the other has been taken into account (`Query`). The loop stops when two waiting labels
cannot make a lighter connection; the sum of the last heap minima bounds them, also where
one of the heaps has run empty (`searchLoop_query`). At that point the best meeting is a
lightest connection, and its two labels lead back to their roots (`packed_path`).
-/

namespace Osrm.Mld

open Lib Lib.KeyedQueue MultiLevelPartition CellStorage

variable {n : ℕ} {F : Facade n} {args : Args n} {dir : Bool} {heap other : QueryHeap n} {best : Meeting n}
  {roots : Bool → List (Label (Fin n) (HeapData n))} {bound : ℤ}

variable (F args roots) in
/-- The roots of both searches: permitted nodes that are their own parents. -/
structure Rooted : Prop where
  data : ∀ dir, ∀ l ∈ roots dir, l.data = ⟨l.node, false⟩
  permitted : ∀ dir, ∀ l ∈ roots dir, permitted F args l.node = true
  keys : ∀ dir, KeysWithin (along dir (overlayArcs F args)) (addedArcs F args dir) (roots dir) (2 ^ 30)
  nonneg : ∀ k, Connects (flatArcs F args) (roots true) (roots false) k → 0 ≤ k

variable (F args roots) in
/-- The invariant of one search. -/
abbrev Side (dir : Bool)
    (heap : QueryHeap n) : Prop :=
  Settling (offers F args dir) (· ∈ roots dir) (fun _ => False) heap

variable (F args roots bound) in
/-- The state of the query as the search in direction `dir` sees it; `bound` is the upper bound it started with. -/
structure Query (dir : Bool)
    (heap other : QueryHeap n) (best : Meeting n) : Prop where
  mine : Side F args roots dir heap
  their : Side F args roots (!dir) other
  touched : Touched (along dir (overlayArcs F args)) (roots dir) heap other best.upperBound
  touched' : Touched (along (!dir) (overlayArcs F args)) (roots (!dir)) other heap best.upperBound
  found : best = ⟨none, bound⟩ ∨ best.upperBound < bound ∧ ∃ m x y, best.middle = some m ∧ heap.Reached m x ∧
    other.Reached m y ∧ x + y ≤ best.upperBound

theorem Query.swap (query : Query F args roots bound dir heap other best) :
    Query F args roots bound (!dir) other heap best := by
  have back := query.mine
  have touched := query.touched
  refine ⟨query.their, ?_, query.touched', ?_, ?_⟩
  · rw [Bool.not_not]
    exact back
  · rw [Bool.not_not]
    exact touched
  · refine query.found.imp_right ?_
    rintro ⟨light, m, x, y, middle, reached, reached', sum⟩
    exact ⟨light, m, y, x, middle, reached', reached, by omega⟩

theorem along_not {A : Arcs (Fin n)} : along (!dir) A = opposite (along dir A) := by
  cases dir <;> rfl

section Side

variable (leveled : Leveled F args) (exact : F.Exact) (rooted : Rooted F args roots)

include leveled exact rooted

variable (side : Side F args roots dir heap)

include side

theorem Side.followed : Followed (along dir (overlayArcs F args)) heap := by
  apply offers_followed leveled exact _ side
  intro l hl
  rw [rooted.data dir l hl]

omit rooted in
theorem Side.real : ∀ e ∈ heap.entries,
    RealTo (along dir (flatArcs F args)) (roots dir) e.node e.weight :=
  Settling.real (offers_ascending leveled exact) side (offers_sound leveled exact)

theorem Side.permitted {e : Entry (Fin n) (HeapData n)} (he : e ∈ heap.entries) :
    permitted F args e.node = true := by
  obtain ⟨r, hr, d, walk, -⟩ := Side.real leveled exact side e he
  have start := rooted.permitted dir r hr
  have step : ∀ u v c, along dir (flatArcs F args) u v c → Mld.permitted F args u = true → Mld.permitted F args v = true := by
    intro u v c arc _
    cases dir
    · exact arc.2.1
    · exact arc.2.2
  exact (walk.within step start).1

/-- Two labels can be added. -/
theorem Side.within : ∀ e ∈ heap.entries, -2 ^ 30 < e.weight ∧ e.weight < 2 ^ 30 := by
  refine Settling.within (along_positive (overlay_positive (flatArcs_positive exact))) side (offers_arcs leveled exact)
    (Side.followed leveled exact rooted side) (rooted.keys dir) fun u v c arc => ?_
  rcases along_overlay.1 arc with cross | clique
  · refine .inl ?_
    cases dir
    · exact cross.1
    · exact cross.1
  · exact .inr clique

/-- `relaxOutgoingEdges` offers what lies ahead of the node it settles. -/
theorem relaxOutgoingEdges_settles {a : Entry (Fin n) (HeapData n)}
    (top : heap.top? = some a) :
    relaxOutgoingEdges F dir args a.toLabel (heap.dequeue a.node) = heap.settle lighter a (offers F args dir a.toLabel) := by
  have mem := (top?_mem top).1
  have start := Side.permitted leveled exact rooted side mem
  have least := Settling.least (along_positive (overlay_positive (flatArcs_positive exact))) side (offers_arcs leveled exact)
    (Side.followed leveled exact rooted side) mem (.inr top)
  have sums : ∀ v c, addedArcs F args dir a.node v c → add32 a.weight c = a.weight + c := by
    intro v c arc
    have high := (rooted.keys dir).sum _ _ v c least arc
    have low := (Side.within leveled exact rooted side a mem).1
    have positive : 0 < c := by
      rcases arc with edge | clique
      · exact along_positive (flatArcs_positive exact) _ _ _ edge
      · exact cliques_positive exact _ _ _ clique
    exact add32_eq (by omega) (by unfold invalidEdgeWeight; omega)
  rw [relaxOutgoingEdges_eq, allOffers_add32 leveled exact start sums, offers, if_pos start]
  apply settle_filter side.unique mem
  intro o ho here
  cases List.mem_append.1 ho with
  | inl scanned =>
    split at scanned
    · simp only [List.mem_map, List.mem_filter, Bool.and_eq_true, decide_eq_true_eq] at scanned
      obtain ⟨s, ⟨-, -, differ⟩, rfl⟩ := scanned
      exact absurd here.symm differ
    · cases scanned
  | inr edge =>
    -- an edge from a node to itself has a positive weight
    simp only [List.mem_map, List.mem_filter, Bool.and_eq_true] at edge
    obtain ⟨e, ⟨he, flag, -⟩, rfl⟩ := edge
    have listed := ((MultiLevelGraph.mem_borderEdgeRange (exact.few _) (leveled.lt a.node)).1 he).1
    have heavier := along_positive (flatArcs_positive exact) _ _ _ (flat_of_edge exact start listed flag
      (show permitted F args e.target = true from (show e.target = a.node from here) ▸ start))
    simp only [lighter, decide_eq_false_iff_not]
    omega

end Side

/-- The meeting test without forced loops. -/
theorem meet_nil (a : Entry (Fin n) (HeapData n)) (other : QueryHeap n) (best : Meeting n) :
    meet [] [] a other best = best ∧ (∀ b, other.find? a.node = some b → add32 a.weight b.weight < 0 ∨
        best.upperBound ≤ add32 a.weight b.weight) ∨
      ∃ b, other.find? a.node = some b ∧ add32 a.weight b.weight < best.upperBound ∧
        meet [] [] a other best = ⟨some a.node, add32 a.weight b.weight⟩ := by
  unfold meet
  cases found : other.find? a.node with
  | none => exact .inl ⟨rfl, by simp⟩
  | some b =>
    simp only [forceLoop, List.any_nil, Bool.false_and, Bool.not_false, Bool.true_and, Bool.and_eq_true, decide_eq_true_eq]
    split_ifs with better
    · exact .inr ⟨b, rfl, better.2, rfl⟩
    · refine .inl ⟨rfl, fun b' same => ?_⟩
      cases same
      omega

section Step

variable (leveled : Leveled F args) (exact : F.Exact) (rooted : Rooted F args roots)

include leveled exact rooted

section Step

variable (query : Query F args roots bound dir heap other best)

include query

omit rooted in
/-- Labels of one node on both sides make a connection. -/
theorem Query.connects {a b : Entry (Fin n) (HeapData n)}
    (ha : a ∈ heap.entries) (hb : b ∈ other.entries) (same : b.node = a.node) :
    Connects (flatArcs F args) (roots true) (roots false) (a.weight + b.weight) := by
  have real := Side.real leveled exact query.mine a ha
  have real' := Side.real leveled exact query.their b hb
  rw [same] at real'
  cases dir
  · rw [add_comm]
    exact real'.connects real
  · exact real.connects real'

/-- The meeting test takes the popped label into account. -/
theorem meet_spec {a : Entry (Fin n) (HeapData n)}
    (ha : a ∈ heap.entries) :
    (meet [] [] a other best).upperBound ≤ best.upperBound ∧
    (∀ b ∈ other.entries, b.node = a.node → (meet [] [] a other best).upperBound ≤ a.weight + b.weight) ∧
    (meet [] [] a other best = best ∨ (meet [] [] a other best).upperBound < best.upperBound ∧
      (meet [] [] a other best).middle = some a.node ∧
      ∃ b ∈ other.entries, b.node = a.node ∧ a.weight + b.weight ≤ (meet [] [] a other best).upperBound) := by
  have known : ∀ b ∈ other.entries, b.node = a.node → other.find? a.node = some b := by
    intro b hb same
    rw [← same]
    exact find?_of_mem query.their.unique hb
  have sum : ∀ b ∈ other.entries, add32 a.weight b.weight = a.weight + b.weight := by
    intro b hb
    have := Side.within leveled exact rooted query.mine a ha
    have := Side.within leveled exact rooted query.their b hb
    exact add32_eq (by omega) (by unfold invalidEdgeWeight; omega)
  rcases meet_nil a other best with ⟨eq, low⟩ | ⟨b, found, better, eq⟩
  · refine ⟨by rw [eq], fun b hb same => ?_, .inl eq⟩
    rw [eq]
    have := rooted.nonneg _ (Query.connects leveled exact query ha hb same)
    have := low b (known b hb same)
    rw [sum b hb] at this
    omega
  · obtain ⟨hb, node⟩ := find?_mem found
    rw [sum b hb] at better eq
    rw [eq]
    refine ⟨better.le, fun b' hb' same => ?_, .inr ⟨better, rfl, b, hb, node, le_rfl⟩⟩
    have := known b' hb' same
    rw [found] at this
    cases this
    exact le_rfl

/-- **The step lemma**: one routing step keeps the state of the query and settles a node. -/
theorem routingStep_query (nonempty : heap.isEmpty = false) :
    Query F args roots bound dir (routingStep F dir [] [] args heap other best).1 other
        (routingStep F dir [] [] args heap other best).2 ∧
      (routingStep F dir [] [] args heap other best).1.remaining < heap.remaining := by
  obtain ⟨a, top⟩ := exists_top nonempty
  have ascending : Ascending (offers F args dir) := offers_ascending leveled exact
  have mem := (top?_mem top).1
  have heavy := ascending a.toLabel
  obtain ⟨le, here, news⟩ := meet_spec leveled exact rooted query mem
  have theirs := Side.followed leveled exact rooted query.their
  unfold routingStep
  simp only [top]
  rw [relaxOutgoingEdges_settles leveled exact rooted query.mine top]
  have improves : ∀ {v w}, heap.Reached v w → (heap.settle lighter a (offers F args dir a.toLabel)).Reached v w :=
    fun reached => query.mine.settle_improves lighter_better top heavy reached
  refine ⟨⟨?_, query.their, ?_, ?_, ?_⟩, query.mine.remaining_step lighter_better top heavy⟩
  · exact Settling.step lighter_better ascending query.mine top (.inl rfl)
  · apply (query.touched.mono le).settle lighter_better query.mine top heavy _ here
    rw [← along_not]
    exact theirs
  · exact (query.touched'.mono le).settle_other lighter_better query.mine top heavy
      (fun l hl => query.their.rooted l hl) theirs here
  · cases news with
    | inl same =>
      rw [same]
      refine query.found.imp_right ?_
      rintro ⟨light, m, x, y, middle, reached, reached', sum⟩
      exact ⟨light, m, x, y, middle, improves reached, reached', sum⟩
    | inr meets =>
      obtain ⟨better, middle, b, hb, node, sum⟩ := meets
      refine .inr ⟨?_, a.node, a.weight, b.weight, middle, improves ⟨a, mem, rfl, le_rfl⟩, ⟨b, hb, node, le_rfl⟩, sum⟩
      rcases query.found with start | ⟨light, -⟩
      · have same : best.upperBound = bound := by rw [start]
        omega
      · omega

end Step

/-- `least` bounds the labels that wait, and can be added to another such bound. -/
structure Minimum (heap : QueryHeap n) (least : ℤ) : Prop where
  range : -2 ^ 30 < least ∧ least < 2 ^ 30
  le : ∀ e ∈ heap.entries, e.queued = true → least ≤ e.weight

/-- The minima that the loop keeps. -/
structure Minima (st : SearchState n) : Prop where
  forward : Minimum st.forward st.forwardHeapMin
  reverse : Minimum st.reverse st.reverseHeapMin

omit leveled exact rooted in
theorem minKey_minimum {heap : QueryHeap n} {old : ℤ} (within : ∀ e ∈ heap.entries, -2 ^ 30 < e.weight ∧ e.weight < 2 ^ 30)
    (range : -2 ^ 30 < old ∧ old < 2 ^ 30) : Minimum heap (heap.minKey?.getD old) := by
  cases top : heap.top? with
  | none =>
    refine ⟨by simpa [minKey?, top] using range, fun e he queued => ?_⟩
    rw [isEmpty_iff_settled.1 (top?_eq_none.1 top) e he] at queued
    cases queued
  | some a =>
    refine ⟨by simpa [minKey?, top] using within a (top?_mem top).1, fun e he queued => ?_⟩
    have := top?_le top he queued
    simpa [minKey?, top] using this

/-- The body of the loop keeps the state of the query, and makes progress while a heap is not empty. -/
theorem searchStep_query {st st' : SearchState n} (query : Query F args roots bound true st.forward st.reverse st.best)
    (minima : Minima st) (body : st' = reverseStep F [] [] args (forwardStep F [] [] args st)) :
    Query F args roots bound true st'.forward st'.reverse st'.best ∧ Minima st' ∧
      (st.forward.isEmpty = false ∨ st.reverse.isEmpty = false →
        st'.forward.remaining + st'.reverse.remaining < st.forward.remaining + st.reverse.remaining) := by
  subst body
  unfold reverseStep forwardStep
  cases empty : st.forward.isEmpty with
  | true =>
    cases empty' : st.reverse.isEmpty with
    | true => simpa [empty'] using ⟨query, minima⟩
    | false =>
      obtain ⟨next, less⟩ := routingStep_query leveled exact rooted query.swap empty'
      simp only [if_true, empty']
      exact ⟨next.swap, ⟨minima.forward, minKey_minimum (Side.within leveled exact rooted next.mine) minima.reverse.range⟩,
        fun _ => Nat.add_lt_add_left less _⟩
  | false =>
    obtain ⟨first, less⟩ := routingStep_query leveled exact rooted query empty
    cases empty' : st.reverse.isEmpty with
    | true =>
      simp only [Bool.false_eq_true, if_false, empty']
      exact ⟨first, ⟨minKey_minimum (Side.within leveled exact rooted first.mine) minima.forward.range, minima.reverse⟩,
        fun _ => Nat.add_lt_add_right less _⟩
    | false =>
      obtain ⟨second, less'⟩ := routingStep_query leveled exact rooted first.swap empty'
      simp only [Bool.false_eq_true, if_false, empty']
      exact ⟨second.swap, ⟨minKey_minimum (Side.within leveled exact rooted first.mine) minima.forward.range,
        minKey_minimum (Side.within leveled exact rooted second.mine) minima.reverse.range⟩, fun _ => Nat.add_lt_add less less'⟩

/-- **The run lemma**: the loop ends, and then no two waiting labels can improve the best meeting. -/
theorem searchLoop_query (fuel : ℕ) : ∀ st : SearchState n, Query F args roots bound true st.forward st.reverse st.best →
    Minima st → st.forward.remaining + st.reverse.remaining ≤ fuel → ∀ st', st' = searchLoop F [] [] args fuel st →
    Query F args roots bound true st'.forward st'.reverse st'.best ∧
      ∀ e ∈ st'.forward.entries, ∀ e' ∈ st'.reverse.entries, e.queued = true → e'.queued = true →
        st'.best.upperBound ≤ e.weight + e'.weight := by
  have busy : ∀ {heap : QueryHeap n}, heap.isEmpty ≠ true → heap.isEmpty = false := fun h => by simpa using h
  induction fuel with
  | zero =>
    intro st query minima enough st' ends
    obtain rfl : st = st' := ends.symm
    refine ⟨query, fun e he e' he' queued _ => ?_⟩
    have nonempty : st.forward.isEmpty = false := by
      apply busy
      intro empty
      rw [isEmpty_iff_settled.1 empty e he] at queued
      cases queued
    have := (searchStep_query leveled exact rooted query minima rfl).2.2 (.inl nonempty)
    omega
  | succ fuel ih =>
    intro st query minima enough st' ends
    unfold searchLoop at ends
    split at ends
    · rename_i running
      simp only [Bool.and_eq_true, decide_eq_true_eq] at running
      obtain ⟨next, minima', less⟩ := searchStep_query leveled exact rooted query minima rfl
      have progress := less (by
        by_contra idle
        have sizes : st.forward.size + st.reverse.size = 0 := by
          simpa [size, isEmpty, List.isEmpty_iff] using idle
        omega)
      exact ih _ next minima' (by omega) st' ends
    · rename_i stopped
      obtain rfl : st = st' := ends.symm
      refine ⟨query, fun e he e' he' queued queued' => ?_⟩
      have low := minima.forward.le e he queued
      have low' := minima.reverse.le e' he' queued'
      have sum : add32 st.forwardHeapMin st.reverseHeapMin = st.forwardHeapMin + st.reverseHeapMin := by
        have := minima.forward.range
        have := minima.reverse.range
        exact add32_eq (by omega) (by unfold invalidEdgeWeight; omega)
      have waiting : 0 < st.forward.size := List.length_pos_of_mem (mem_waiting.2 ⟨he, queued⟩)
      simp only [sum, Bool.and_eq_true, decide_eq_true_eq] at stopped
      omega

/-- When no two waiting labels can improve it, the best meeting is no heavier than any connection. -/
theorem Query.complete (query : Query F args roots bound true heap other best)
    (stopped : ∀ e ∈ heap.entries, ∀ e' ∈ other.entries, e.queued = true → e'.queued = true →
      best.upperBound ≤ e.weight + e'.weight)
    (doors : ∀ s ∈ roots true, ∀ t ∈ roots false, Doors (flatArcs F args) (SameRegion F args) (IsEntry F args)
      (IsExit F args) s.node t.node) :
    ∀ k, Connects (flatArcs F args) (roots true) (roots false) k → best.upperBound ≤ k := by
  rintro k ⟨s, hs, t, ht, d, walk, rfl⟩
  have positive : Positive (flatArcs F args) := flatArcs_positive exact
  obtain ⟨d', le, above⟩ := walk.overlay (doors s hs t ht) positive
  have followed := Side.followed leveled exact rooted query.mine
  have followed' := Side.followed leveled exact rooted query.their
  have stop := query.touched.stop (overlay_positive positive) query.touched' (fun l hl => query.mine.rooted l hl) followed
    (fun l hl => query.their.rooted l hl) followed' ht above (w := s.weight) (.inl ⟨s, hs, rfl, rfl⟩)
  cases stop with
  | inl done => omega
  | inr waiting =>
    obtain ⟨e, he, e', he', queued, queued', sum⟩ := waiting
    have := stopped e he e' he' queued queued'
    omega

end Step

end Osrm.Mld
