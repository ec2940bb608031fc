import Osrm.Lib.Bidirectional
import Osrm.Contractor.Distances
import Osrm.Engine.Ch.RoutingBase

/-!
# The query on a contracted graph is exact

The graph under the query only has to be a hierarchy over the original arcs
(`Climbs`): listed arcs stand for walks, and every walk is matched by a climb from its
start and a climb from its end to a common peak. A completely contracted graph is one
(`Contracted.climbs`).

Sums of keys and weights wrap at 32 bits. `KeysFit` bounds the keys of both searches, so
that no sum the query forms does.

A node on the two slopes of a shortest connection carries the true distance, so it is never
stalled. A heap is given up only when what waits in it is too heavy to improve the best
meeting. Hence the slopes are settled up to their peak, where both searches meet.
-/

namespace Osrm

open Lib Lib.KeyedQueue ContractorState

variable {n : ℕ} {q : QueryGraph n} {g : ContractorGraph n}

/-- Some edge listed at `u` leads to (or, with `dir = false`, from) `w`. -/
def QueryGraph.Listed (q : QueryGraph n) (dir : Bool) : Arcs (Fin n) := fun u w c =>
  ∃ e ∈ q.edges u, e.target = w ∧ e.data.weight = c ∧ e.data.flag dir = true

theorem QueryGraph.Of.mem (query : q.Of g) {u : Fin n}
    {e : DynamicEdge n QueryEdgeData} :
    e ∈ q.edges u ↔ ∃ e₀ ∈ g.edges u, ⟨e₀.target, toQueryEdgeData e₀.data⟩ = e := by
  rw [(query u).mem_iff, List.mem_map]

theorem QueryGraph.Of.listed (query : q.Of g) {dir : Bool} {u w : Fin n}
    {c : ℤ} : q.Listed dir u w c ↔ g.Listed dir u w c := by
  constructor
  · rintro ⟨e, he, rfl, rfl, flag⟩
    obtain ⟨e₀, he₀, rfl⟩ := query.mem.1 he
    refine ⟨e₀, he₀, rfl, rfl, ?_⟩
    cases dir <;> exact flag
  · rintro ⟨e₀, he₀, rfl, rfl, flag⟩
    refine ⟨_, query.mem.2 ⟨e₀, he₀, rfl⟩, rfl, rfl, ?_⟩
    cases dir <;> exact flag

/-- The query graph is a hierarchy over the arcs `A`. -/
structure Climbs (A : Arcs (Fin n)) (q : QueryGraph n) : Prop where
  positive : ∀ dir, Positive (q.Listed dir)
  sound : ∀ dir u w c, q.Listed dir u w c → Walk (along dir A) u w c
  peak : ∀ s t d, Walk A s t d → d < invalidEdgeWeight →
    ∃ m a b, Walk (q.Listed true) s m a ∧ Walk (q.Listed false) t m b ∧ a + b ≤ d

/-- A completely contracted graph is a hierarchy over the input graph. -/
theorem ContractorState.Contracted.climbs {g₀ : ContractorGraph n} {s : ContractorState n} (inv : Contracted g₀ s)
    (done : ∀ u, s.isCore u = false) (query : q.Of s.graph) : Climbs (s.original g₀) q where
  positive dir u w c listed := inv.listed_positive u w c (query.listed.1 listed)
  sound dir u w c listed := by
    have walk := inv.sound dir u w c (query.listed.1 listed)
    cases dir
    · exact walk.reverse
    · exact walk
  peak x y d walk light := by
    have flat : ∀ u w c, ¬ s.links u w c := by
      rintro u w c ⟨-, core, -⟩
      rw [done u] at core
      cases core
    obtain ⟨m, a, b, up, down, le⟩ := inv.hierarchy.peak flat walk light
    refine ⟨m, a, b, up.mono fun u w c arc => query.listed.2 arc.2, ?_, le⟩
    exact down.reverse.mono fun u w c arc => query.listed.2 arc.2

namespace Ch

/-- The labels that `relaxOutgoingEdges` offers. -/
def offers (q : QueryGraph n) (dir : Bool) (p : Label (Fin n) (HeapData n)) : List (Label (Fin n) (HeapData n)) :=
  (q.edges p.node).filterMap fun edge =>
    if edge.data.flag dir then some ⟨edge.target, p.weight + edge.data.weight, ⟨p.node⟩⟩ else none

section Side

variable {A : Arcs (Fin n)} {q : QueryGraph n} {dir : Bool}

theorem mem_offers {p o : Label (Fin n) (HeapData n)} : o ∈ offers q dir p ↔
    ∃ c, q.Listed dir p.node o.node c ∧ o.weight = p.weight + c ∧ o.data = ⟨p.node⟩ := by
  simp only [offers, List.mem_filterMap, Option.ite_none_right_eq_some, Option.some.injEq]
  constructor
  · rintro ⟨edge, he, flag, rfl⟩
    exact ⟨_, ⟨edge, he, rfl, rfl, flag⟩, rfl, rfl⟩
  · rintro ⟨c, ⟨edge, he, target, rfl, flag⟩, weight, data⟩
    refine ⟨edge, he, flag, ?_⟩
    cases o
    simp_all

theorem relaxOutgoingEdges_eq (heapNode : Entry (Fin n) (HeapData n)) (heap : QueryHeap n)
    (sums : ∀ w c, q.Listed dir heapNode.node w c → add32 heapNode.weight c = heapNode.weight + c) :
    relaxOutgoingEdges q dir heapNode heap = (offers q dir heapNode.toLabel).foldl (relax lighter) heap := by
  have listed : ∀ edge ∈ q.edges heapNode.node, edge.data.flag dir = true →
      add32 heapNode.weight edge.data.weight = heapNode.weight + edge.data.weight :=
    fun edge he flag => sums _ _ ⟨edge, he, rfl, rfl, flag⟩
  unfold relaxOutgoingEdges offers
  generalize q.edges heapNode.node = edges at listed ⊢
  induction edges generalizing heap with
  | nil => rfl
  | cons edge rest ih =>
    rw [List.foldl_cons, ih _ fun e he => listed e (List.mem_cons_of_mem _ he), List.filterMap_cons]
    split
    · rw [listed edge List.mem_cons_self ‹_›]
      rfl
    · rfl

theorem offers_ascending (climbs : Climbs A q) : Ascending (offers q dir) := by
  intro p o offered
  obtain ⟨c, listed, weight, -⟩ := mem_offers.1 offered
  have := climbs.positive dir _ _ _ listed
  omega

theorem offers_sound (climbs : Climbs A q) (p : Label (Fin n) (HeapData n)) :
    ∀ o ∈ offers q dir p, Walk (along dir A) p.node o.node (o.weight - p.weight) := by
  intro o offered
  obtain ⟨c, listed, weight, -⟩ := mem_offers.1 offered
  have walk := climbs.sound dir _ _ _ listed
  rwa [weight, add_sub_cancel_left]

theorem offers_listed (p : Label (Fin n) (HeapData n)) :
    ∀ o ∈ offers q dir p, Walk (q.Listed dir) p.node o.node (o.weight - p.weight) := by
  intro o offered
  obtain ⟨c, listed, weight, -⟩ := mem_offers.1 offered
  rw [weight, add_sub_cancel_left]
  exact .single listed

variable (q) in
/-- The keys that the two searches can give their nodes, and what is added to them, fit into 32 bits: two keys
are added where the searches meet, and `stallAtNode` adds the weight of an edge that leads down. -/
structure KeysFit (roots : Bool → List (Label (Fin n) (HeapData n))) : Prop where
  key : ∀ dir v k, RealTo (q.Listed dir) (roots dir) v k → -2 ^ 30 < k ∧ k < 2 ^ 30
  stall : ∀ dir v k, RealTo (q.Listed dir) (roots dir) v k → ∀ u c, q.Listed (!dir) u v c → k + c ≤ invalidEdgeWeight

/-- Keys fit where nothing climbs higher than some height allows. -/
theorem KeysFit.of_height {roots : Bool → List (Label (Fin n) (HeapData n))} (H : Bool → Fin n → ℤ)
    (climb : ∀ dir u, 0 ≤ H dir u ∧ ∀ e ∈ q.edges u, e.data.flag dir = true →
      0 < e.data.weight ∧ e.data.weight < 2 ^ 30 ∧ e.data.weight + H dir e.target ≤ H dir u)
    (start : ∀ dir, ∀ r ∈ roots dir, -2 ^ 30 < r.weight ∧ r.weight + H dir r.node < 2 ^ 30) : KeysFit q roots := by
  have key : ∀ dir v k, RealTo (q.Listed dir) (roots dir) v k → -2 ^ 30 < k ∧ k < 2 ^ 30 := by
    rintro dir v k ⟨r, hr, d, walk, rfl⟩
    have low := walk.nonneg fun u w c ⟨e, he, _, weight, flag⟩ => weight ▸ ((climb dir u).2 e he flag).1
    have high := walk.le_height (H := H dir) fun u w c ⟨e, he, target, weight, flag⟩ =>
      target ▸ weight ▸ ((climb dir u).2 e he flag).2.2
    have := start dir r hr
    have := (climb dir v).1
    omega
  refine ⟨key, ?_⟩
  rintro dir v k real u c ⟨e, he, -, rfl, flag⟩
  have := (key dir v k real).2
  have := ((climb (!dir) u).2 e he flag).2.1
  unfold invalidEdgeWeight
  omega

/-- A label may be left unexpanded when it is not the lightest way to its node. -/
def skip (A : Arcs (Fin n)) (dir : Bool) (roots : List (Label (Fin n) (HeapData n))) (p : Label (Fin n) (HeapData n)) :
    Prop :=
  ∃ k < p.weight, RealTo (along dir A) roots p.node k

variable (A q dir) in
/-- One of the two searches: `h` is the heap as the search proper leaves it; the heap of the query is `h`
itself, or `h` given up because all that waits in it is too heavy for the bound `W`. -/
structure Side (roots : List (Label (Fin n) (HeapData n)))
    (offset W : ℤ) (heap h : QueryHeap n) : Prop where
  settling : Settling (offers q dir) (· ∈ roots) (skip A dir roots) h
  view : heap = h ∨ heap.isEmpty = true ∧ (∀ e ∈ h.entries, e.queued = true → W < e.weight + offset) ∧
    (∀ e ∈ h.entries, ∃ e' ∈ heap.entries, e'.toLabel = e.toLabel) ∧
    (∀ e ∈ heap.entries, ∃ e' ∈ h.entries, e'.toLabel = e.toLabel) ∧ heap.Unique

variable {roots : List (Label (Fin n) (HeapData n))} {offset W : ℤ} {heap h : QueryHeap n}

section Side

variable (side : Side A q dir roots offset W heap h)

include side

theorem Side.mono {W' : ℤ} (le : W' ≤ W) :
    Side A q dir roots offset W' heap h := by
  refine ⟨side.settling, side.view.imp_right ?_⟩
  rintro ⟨empty, heavy, rest⟩
  exact ⟨empty, fun e he queued => le.trans_lt (heavy e he queued), rest⟩

/-- A heap that is not empty has not been given up. -/
theorem Side.running (nonempty : heap.isEmpty = false) : heap = h := by
  rcases side.view with same | ⟨empty, -⟩
  · exact same
  · rw [empty] at nonempty
    cases nonempty

omit side in
theorem Side.real (climbs : Climbs A q) (side : Side A q dir roots offset W heap h) {e : Entry (Fin n) (HeapData n)}
    (he : e ∈ h.entries) : RealTo (along dir A) roots e.node e.weight :=
  side.settling.real (offers_ascending climbs) (offers_sound climbs) e he

omit side in
/-- The climb that a label stands for. -/
theorem Side.climbed (climbs : Climbs A q) (side : Side A q dir roots offset W heap h) {e : Entry (Fin n) (HeapData n)}
    (he : e ∈ h.entries) : RealTo (q.Listed dir) roots e.node e.weight :=
  side.settling.real (offers_ascending climbs) offers_listed e he

/-- What the query finds in a heap is a label of the search. -/
theorem Side.found {v : Fin n} {e : Entry (Fin n) (HeapData n)}
    (found : heap.find? v = some e) : ∃ e' ∈ h.entries, e'.toLabel = e.toLabel ∧ e'.node = v := by
  obtain ⟨mem, rfl⟩ := find?_mem found
  rcases side.view with rfl | ⟨-, -, -, back, -⟩
  · exact ⟨e, mem, rfl, rfl⟩
  · obtain ⟨e', he', same⟩ := back e mem
    exact ⟨e', he', same, by rw [same]⟩

/-- The query finds every label of the search. -/
theorem Side.finds {e : Entry (Fin n) (HeapData n)} (he : e ∈ h.entries) :
    ∃ e', heap.find? e.node = some e' ∧ e'.toLabel = e.toLabel := by
  rcases side.view with rfl | ⟨-, -, forth, -, unique⟩
  · exact ⟨e, find?_of_mem side.settling.unique he, rfl⟩
  · obtain ⟨e', he', same⟩ := forth e he
    refine ⟨e', ?_, same⟩
    rw [show e.node = e'.node by rw [same]]
    exact find?_of_mem unique he'

end Side

variable {a : Entry (Fin n) (HeapData n)}

/-- A stalled label is not the lightest way to its node. -/
theorem stall_skips (climbs : Climbs A q) (real : ∀ e ∈ heap.entries, RealTo (along dir A) roots e.node e.weight)
    (sums : ∀ e ∈ heap.entries, ∀ u c, q.Listed (!dir) u e.node c → add32 e.weight c = e.weight + c)
    (stalled : stallAtNode q dir a heap = true) : skip A dir roots a.toLabel := by
  simp only [stallAtNode, List.any_eq_true, Bool.and_eq_true] at stalled
  obtain ⟨edge, he, flag, better⟩ := stalled
  cases found : heap.find? edge.target with
  | none => simp [found] at better
  | some known =>
    obtain ⟨mem, node⟩ := find?_mem found
    have walk := climbs.sound (!dir) a.node edge.target _ ⟨edge, he, rfl, rfl, flag⟩
    have back : Walk (along dir A) edge.target a.node edge.data.weight := by
      cases dir
      · exact walk.reverse
      · exact walk.of_reverse
    have reached := real known mem
    rw [node] at reached
    refine ⟨known.weight + edge.data.weight, ?_, reached.walk back⟩
    rw [← sums known mem a.node _ ⟨edge, he, node.symm, rfl, flag⟩]
    simpa [found] using better

/-- The climb from a root to a peak, where the root's key and the climb are the lightest way there: the peak is
settled with that weight, or a label that is no heavier still waits. -/
theorem Side.climb (climbs : Climbs A q) (side : Side A q dir roots offset W heap h) {s : Label (Fin n) (HeapData n)}
    (root : s ∈ roots) {m : Fin n} {a : ℤ} (up : Walk (q.Listed dir) s.node m a)
    (lightest : ∀ k, RealTo (along dir A) roots m k → s.weight + a ≤ k) :
    (∃ e ∈ h.entries, e.node = m ∧ e.queued = false ∧ e.weight ≤ s.weight + a) ∨
      ∃ e ∈ h.entries, e.queued = true ∧ e.weight ≤ s.weight + a := by
  refine frontier_of_walk ?_ (climbs.positive dir) up (side.settling.rooted s root) le_rfl
  intro e he settled a' rest le v c arc
  rcases side.settling.relaxed e he settled with ⟨k, lighter, real⟩ | relaxed
  · -- a lighter way to `e` would be a lighter way to the peak
    have := lightest _ (real.walk (rest.bind (climbs.sound dir)))
    omega
  · exact relaxed ⟨v, e.weight + c, ⟨e.node⟩⟩ (mem_offers.2 ⟨c, arc, rfl, rfl⟩)

end Side

section Query

variable {A : Arcs (Fin n)} {q : QueryGraph n} {offset : ℤ} {roots : Bool → List (Label (Fin n) (HeapData n))} {dir : Bool}
  {heap other h o : QueryHeap n} {best : Meeting n}

/-- Both searches know `m`, with keys that add up to at most `W`. -/
def MeetsAt (h o : QueryHeap n) (m : Fin n) (W : ℤ) : Prop := ∃ w w', h.Reached m w ∧ o.Reached m w' ∧ w + w' ≤ W

theorem MeetsAt.symm {m : Fin n} {W : ℤ} (meets : MeetsAt h o m W) : MeetsAt o h m W := by
  obtain ⟨w, w', here, there, le⟩ := meets
  exact ⟨w', w, there, here, by omega⟩

variable (A q offset roots dir heap other best) in
/-- The state of the query as the search in direction `dir` sees it. The roots are the sources for `true` and
the targets for `false`. -/
structure Query (h o : QueryHeap n) : Prop where
  mine : Side A q dir (roots dir) offset best.upperBound heap h
  their : Side A q (!dir) (roots (!dir)) offset best.upperBound other o
  met : Met h o best.upperBound
  found : best = ⟨none, invalidEdgeWeight⟩ ∨ best.middle ≠ none ∧ best.upperBound < invalidEdgeWeight ∧
    Connects A (roots true) (roots false) best.upperBound
  middle : ∀ m, best.middle = some m → MeetsAt h o m best.upperBound

theorem Query.swap (query : Query A q offset roots dir heap other best h o) :
    Query A q offset roots (!dir) other heap best o h := by
  refine ⟨query.their, ?_, query.met.symm, query.found, fun m middle => (query.middle m middle).symm⟩
  rw [Bool.not_not]
  exact query.mine

/-- Labels of one node on both sides make a connection. -/
theorem Query.connects (climbs : Climbs A q) (query : Query A q offset roots dir heap other best h o)
    {b : Entry (Fin n) (HeapData n)} (ha : a ∈ h.entries) (hb : b ∈ o.entries) (same : b.node = a.node) :
    Connects A (roots true) (roots false) (b.weight + a.weight) := by
  have real := query.mine.real climbs ha
  have real' := query.their.real climbs hb
  rw [same] at real'
  cases dir
  · exact real'.connects real
  · rw [add_comm]
    exact real.connects real'

section Steps

variable (climbs : Climbs A q) (nonneg : ∀ k, Connects A (roots true) (roots false) k → 0 ≤ k) (keys : KeysFit q roots)

include climbs nonneg keys

variable {st : SearchState n}

/-- The meeting test takes the popped label into account. -/
theorem meet_spec (query : Query A q offset roots dir heap other best h o) (ha : a ∈ h.entries) :
    (meet q dir [] [] a other best).upperBound ≤ best.upperBound ∧
      (meet q dir [] [] a other best = ⟨none, invalidEdgeWeight⟩ ∨ (meet q dir [] [] a other best).middle ≠ none ∧
        (meet q dir [] [] a other best).upperBound < invalidEdgeWeight ∧
        Connects A (roots true) (roots false) (meet q dir [] [] a other best).upperBound) ∧
      (∀ b ∈ o.entries, a.node = b.node → (meet q dir [] [] a other best).upperBound ≤ a.weight + b.weight) ∧
      ∀ m, (meet q dir [] [] a other best).middle = some m → MeetsAt h o m (meet q dir [] [] a other best).upperBound := by
  unfold meet
  cases found : other.find? a.node with
  | none =>
    refine ⟨le_rfl, query.found, fun b hb same => ?_, query.middle⟩
    obtain ⟨e, known, -⟩ := query.their.finds hb
    rw [← same, found] at known
    cases known
  | some r =>
    obtain ⟨r', hr', label, node⟩ := query.their.found found
    have weight : r'.weight = r.weight := by rw [label]
    have connects := query.connects climbs ha hr' node
    have sum := nonneg _ connects
    have mine := keys.key _ _ _ (query.mine.climbed climbs ha)
    have their := keys.key _ _ _ (query.their.climbed climbs hr')
    rw [weight] at connects sum their
    have total : add32 r.weight a.weight = r.weight + a.weight :=
      add32_eq (by omega) (by unfold invalidEdgeWeight; omega)
    simp only [total]
    have known : ∀ b ∈ o.entries, a.node = b.node → r.weight = b.weight := by
      intro b hb same
      rw [← weight, query.their.settling.unique.eq hr' hb (node.trans same)]
    have free : ¬ r.weight + a.weight < 0 := by omega
    simp only [forceLoop, List.any_nil, decide_false, Bool.false_and, Bool.or_self, free,
      Bool.false_eq_true, if_false]
    split_ifs with better
    · have bound : best.upperBound ≤ invalidEdgeWeight := by
        rcases query.found with rfl | ⟨-, light, -⟩
        · exact le_rfl
        · exact light.le
      refine ⟨better.le, .inr ⟨by simp, by simpa using better.trans_le bound, connects⟩, fun b hb same => ?_, fun m middle => ?_⟩
      · simp only [known b hb same]
        omega
      · cases middle
        exact ⟨a.weight, r.weight, ⟨a, ha, rfl, le_rfl⟩, ⟨r', hr', node, weight.le⟩, by simp only; omega⟩
    · refine ⟨le_rfl, query.found, fun b hb same => ?_, query.middle⟩
      rw [← known b hb same]
      omega

/-- **The step lemma**: one routing step keeps the state of the query and settles a node. -/
theorem routingStep_query (small : -2 ^ 30 < offset) (offset_zero : offset ≤ 0)
    (query : Query A q offset roots dir heap other best h o) (nonempty : heap.isEmpty = false) :
    (∃ h', Query A q offset roots dir (routingStep q dir offset [] [] heap other best).1 other
      (routingStep q dir offset [] [] heap other best).2 h' o) ∧
      (routingStep q dir offset [] [] heap other best).1.remaining < heap.remaining := by
  obtain rfl := query.mine.running nonempty
  obtain ⟨a, top⟩ := exists_top nonempty
  have settling := query.mine.settling
  have mem := (top?_mem top).1
  have climbed : ∀ e ∈ (heap.dequeue a.node).entries, RealTo (q.Listed dir) (roots dir) e.node e.weight := by
    intro e he
    rcases mem_dequeue.1 he with ⟨old, -⟩ | ⟨e₀, he₀, -, rfl⟩
    · exact query.mine.climbed climbs old
    · exact (query.mine.climbed climbs he₀ : RealTo _ _ e₀.node e₀.weight)
  have key := keys.key _ _ _ (query.mine.climbed climbs mem)
  have bounded : add32 a.weight offset = a.weight + offset := add32_eq (by omega) (by unfold invalidEdgeWeight; omega)
  obtain ⟨le, found, here, middle⟩ := meet_spec climbs nonneg keys query mem
  have step : ∀ rs, rs = offers q dir a.toLabel ∨ rs = [] ∧ skip A dir (roots dir) a.toLabel →
      Query A q offset roots dir (heap.settle lighter a rs) other (meet q dir [] [] a other best)
        (heap.settle lighter a rs) o ∧ (heap.settle lighter a rs).remaining < heap.remaining := by
    intro rs expand
    have heavy : ∀ l ∈ rs, a.weight < l.weight := by
      rcases expand with rfl | ⟨rfl, -⟩
      · exact offers_ascending climbs a.toLabel
      · simp
    refine ⟨⟨⟨settling.step lighter_better (offers_ascending climbs) top expand, .inl rfl⟩, query.their.mono le, ?_, found, ?_⟩,
      settling.remaining_step lighter_better top heavy⟩
    · exact (query.met.mono le).settle lighter_better settling top heavy fun b hb _ same => here b hb same
    · intro m isMiddle
      obtain ⟨w, w', mine, their, sum⟩ := middle m isMiddle
      exact ⟨w, w', settling.settle_improves lighter_better top heavy mine, their, sum⟩
  unfold routingStep
  simp only [top, bounded]
  split
  · -- the heap is given up: what waits in it is at least as heavy as the popped label
    refine ⟨⟨heap, ⟨settling, .inr ⟨?_, ?_, ?_, ?_, ?_⟩⟩, query.their.mono le, query.met.mono le, found, middle⟩,
      remaining_deleteAll settling.unique top⟩
    · refine isEmpty_iff_settled.2 fun e he => ?_
      obtain ⟨e', -, rfl⟩ := mem_deleteAll.1 he
      rfl
    · intro e he queued
      have := top?_le top he queued
      simp only
      omega
    · intro e he
      exact ⟨_, mem_deleteAll_dequeue he a.node, rfl⟩
    · intro e he
      obtain ⟨e₁, he₁, rfl⟩ := mem_deleteAll.1 he
      rcases mem_dequeue.1 he₁ with ⟨old, -⟩ | ⟨e₀, he₀, -, rfl⟩
      · exact ⟨e₁, old, rfl⟩
      · exact ⟨e₀, he₀, rfl⟩
    · exact (settling.unique.dequeue a.node).deleteAll
  · split_ifs with stalled
    · have sums : ∀ e ∈ (heap.dequeue a.node).entries, ∀ u c, q.Listed (!dir) u e.node c → add32 e.weight c = e.weight + c := by
        intro e he u c listed
        have := keys.key _ _ _ (climbed e he)
        have := climbs.positive _ _ _ _ listed
        exact add32_eq (by omega) (keys.stall _ _ _ (climbed e he) u c listed)
      have skipped := stall_skips climbs (fun e he => (climbed e he).mono (climbs.sound dir)) sums stalled
      obtain ⟨next, less⟩ := step [] (.inr ⟨rfl, skipped⟩)
      exact ⟨⟨_, next⟩, less⟩
    · have sums : ∀ w c, q.Listed dir a.node w c → add32 a.weight c = a.weight + c := by
        intro w c listed
        have := climbs.positive _ _ _ _ listed
        have := keys.key _ _ _ ((query.mine.climbed climbs mem).walk (.single listed))
        exact add32_eq (by omega) (by unfold invalidEdgeWeight; omega)
      obtain ⟨next, less⟩ := step _ (.inl rfl)
      rw [relaxOutgoingEdges_eq _ _ sums]
      exact ⟨⟨_, next⟩, less⟩

variable (small : -2 ^ 30 < offset) (offset_zero : offset ≤ 0)

include small offset_zero

/-- The body of the loop keeps the state of the query, and makes progress while a heap is not empty. -/
theorem searchStep_query (query : Query A q offset roots true st.forward st.reverse st.best h o) {st' : SearchState n}
    (body : st' = reverseStep q offset [] [] (forwardStep q offset [] [] st)) :
    (∃ h' o', Query A q offset roots true st'.forward st'.reverse st'.best h' o') ∧
    (st.forward.isEmpty = false ∨ st.reverse.isEmpty = false →
      st'.forward.remaining + st'.reverse.remaining < st.forward.remaining + st.reverse.remaining) := by
  subst body
  unfold reverseStep forwardStep
  cases empty : st.forward.isEmpty with
  | true =>
    cases empty' : st.reverse.isEmpty with
    | true => simpa [empty'] using ⟨h, o, query⟩
    | false =>
      obtain ⟨⟨o', next⟩, less⟩ := routingStep_query climbs nonneg keys small offset_zero query.swap empty'
      simp only [if_true, empty']
      exact ⟨⟨h, o', next.swap⟩, fun _ => Nat.add_lt_add_left less _⟩
  | false =>
    obtain ⟨⟨h', first⟩, less⟩ := routingStep_query climbs nonneg keys small offset_zero query empty
    cases empty' : st.reverse.isEmpty with
    | true =>
      simp only [Bool.false_eq_true, if_false, empty']
      exact ⟨⟨h', o, first⟩, fun _ => Nat.add_lt_add_right less _⟩
    | false =>
      obtain ⟨⟨o', second⟩, less'⟩ := routingStep_query climbs nonneg keys small offset_zero first.swap empty'
      simp only [Bool.false_eq_true, if_false, empty']
      exact ⟨⟨h', o', second.swap⟩, fun _ => Nat.add_lt_add less less'⟩

/-- **The run lemma**: with enough fuel the loop ends with both heaps empty. -/
theorem searchLoop_query (fuel : ℕ) :
    ∀ (st : SearchState n) {h o}, Query A q offset roots true st.forward st.reverse st.best h o →
      st.forward.remaining + st.reverse.remaining ≤ fuel →
      ∃ h' o', Query A q offset roots true (searchLoop q offset [] [] fuel st).forward
          (searchLoop q offset [] [] fuel st).reverse (searchLoop q offset [] [] fuel st).best h' o' ∧
        (searchLoop q offset [] [] fuel st).forward.isEmpty = true ∧
        (searchLoop q offset [] [] fuel st).reverse.isEmpty = true := by
  have some_busy : ∀ {x y : Bool}, ¬ (x = true ∧ y = true) → x = false ∨ y = false := by decide
  have sizes : ∀ st : SearchState n, st.forward.size + st.reverse.size = 0 ↔
      st.forward.isEmpty = true ∧ st.reverse.isEmpty = true := by
    intro st
    simp [size, isEmpty]
  induction fuel with
  | zero =>
    intro st h o query enough
    refine ⟨h, o, query, ?_⟩
    by_contra busy
    have := (searchStep_query climbs nonneg keys small offset_zero query rfl).2 (some_busy busy)
    omega
  | succ fuel ih =>
    intro st h o query enough
    unfold searchLoop
    split
    · rename_i empty
      exact ⟨h, o, query, (sizes st).1 empty⟩
    · rename_i busy
      obtain ⟨⟨h', o', next⟩, less⟩ := searchStep_query climbs nonneg keys small offset_zero query rfl
      have := less (some_busy fun empty => busy ((sizes st).2 empty))
      exact ih _ next (by omega)

end Steps

/-- When both heaps are empty, no connection is lighter than the bound. -/
theorem Query.complete (climbs : Climbs A q) (query : Query A q offset roots true heap other best h o)
    (empty : heap.isEmpty = true) (empty' : other.isEmpty = true) (offset_le : ∀ s ∈ roots true, offset ≤ s.weight)
    (offset_zero : offset ≤ 0) (targets_nonneg : ∀ t ∈ roots false, 0 ≤ t.weight)
    {s t : Label (Fin n) (HeapData n)} (hs : s ∈ roots true) (ht : t ∈ roots false) {d : ℤ}
    (walk : Walk A s.node t.node d) (light : d < invalidEdgeWeight)
    (least : ∀ k, Connects A (roots true) (roots false) k → s.weight + d + t.weight ≤ k) :
    best.upperBound ≤ s.weight + d + t.weight := by
  obtain ⟨m, a, b, up, up', le⟩ := climbs.peak _ _ _ walk light
  have ha := up.nonneg (climbs.positive true)
  have hb := up'.nonneg (climbs.positive false)
  have hs' := offset_le s hs
  have ht' := targets_nonneg t ht
  have realS : RealTo A (roots true) m (s.weight + a) := (RealTo.root hs).walk (up.bind (climbs.sound true))
  have realT : RealTo (opposite A) (roots false) m (t.weight + b) := (RealTo.root ht).walk (up'.bind (climbs.sound false))
  -- nothing waits any more, except in a heap that was given up
  have waits : ∀ {dir : Bool} {roots' : List (Label (Fin n) (HeapData n))} {x y : QueryHeap n},
      Side A q dir roots' offset best.upperBound x y → x.isEmpty = true → ∀ e ∈ y.entries, e.queued = true →
        best.upperBound < e.weight + offset := by
    intro dir roots' x y side emptyX e he queued
    rcases side.view with rfl | ⟨-, heavy, -⟩
    · rw [isEmpty_iff_settled.1 emptyX e he] at queued
      cases queued
    · exact heavy e he queued
  rcases query.mine.climb climbs hs up (fun k real => by have := least _ (real.connects realT); omega) with
    ⟨e, he, node, settled, ew⟩ | ⟨e, he, queued, ew⟩
  · rcases query.their.climb climbs ht up' (fun k real => by have := least _ (realS.connects real); omega) with
      ⟨e', he', node', settled', ew'⟩ | ⟨e', he', queued', ew'⟩
    · have := query.met e he e' he' settled settled' (node.trans node'.symm)
      omega
    · have := waits query.their empty' e' he' queued'
      omega
  · have := waits query.mine empty e he queued
    omega

end Query

/-- The labels that `insertNodesInHeaps` inserts: each root is its own parent. -/
def rootLabels (roots : List (Fin n × ℤ)) : List (Label (Fin n) (HeapData n)) := roots.map fun r => ⟨r.1, r.2, ⟨r.1⟩⟩

def rootHeap (roots : List (Fin n × ℤ)) : QueryHeap n := empty.insertAll (rootLabels roots)

theorem connects_totals {A : Arcs (Fin n)} {sources targets : List (Fin n × ℤ)} {k : ℤ} :
    Connects A (rootLabels sources) (rootLabels targets) k ↔ k ∈ Totals A sources targets := by
  simp [Connects, Totals, rootLabels]

variable {roots : List (Fin n × ℤ)}

theorem rootHeap_settling (offers : Label (Fin n) (HeapData n) → List (Label (Fin n) (HeapData n)))
    (skip : Label (Fin n) (HeapData n) → Prop) (distinct : (roots.map (·.1)).Nodup) :
    Settling offers (· ∈ rootLabels roots) skip (rootHeap roots) := by
  refine .start offers skip ?_
  simpa [rootLabels, Function.comp_def] using distinct

theorem mem_rootHeap {e : Entry (Fin n) (HeapData n)} :
    e ∈ (rootHeap roots).entries ↔ e.toLabel ∈ rootLabels roots ∧ e.queued = true := Settling.mem_start

theorem rootHeap_isEmpty : (rootHeap roots).isEmpty = true ↔ roots = [] := by
  rw [rootHeap, Settling.start_isEmpty, rootLabels, List.map_eq_nil_iff]

section Exact

variable {A : Arcs (Fin n)} {q : QueryGraph n} {sources targets : List (Fin n × ℤ)}

/-- The labels of the roots of both searches. -/
abbrev rootsOf (sources targets : List (Fin n × ℤ)) (dir : Bool) : List (Label (Fin n) (HeapData n)) :=
  if dir then rootLabels sources else rootLabels targets

variable (climbs : Climbs A q) (distinct : (sources.map (·.1)).Nodup) (distinct' : (targets.map (·.1)).Nodup)
  (targets_nonneg : ∀ t ∈ targets, 0 ≤ t.2) (nonneg : ∀ k ∈ Totals A sources targets, 0 ≤ k)
  (fits : ∀ s ∈ sources, ∀ t ∈ targets, ∀ d, Walk A s.1 t.1 d →
    ∃ d' ≤ d, Walk A s.1 t.1 d' ∧ d' < invalidEdgeWeight)
  (keys : KeysFit q (rootsOf sources targets))

include climbs distinct distinct' targets_nonneg nonneg fits keys

/-- The state in which the loop of `search` ends: no connection is lighter than its bound. -/
theorem searchLoop_ends {st : SearchState n}
    (ends : st = searchLoop q (min 0 ((rootHeap sources).minKey?.getD 0)) [] [] (2 * n)
      ⟨rootHeap sources, rootHeap targets, ⟨none, invalidEdgeWeight⟩⟩) :
    (∀ k ∈ Totals A sources targets, st.best.upperBound ≤ k) ∧
      ∃ offset h o, Query A q offset (rootsOf sources targets) true st.forward st.reverse st.best h o := by
  subst ends
  generalize start : min 0 ((rootHeap sources).minKey?.getD 0) = offset
  have offset_zero : offset ≤ 0 := by omega
  have small : -2 ^ 30 < offset := by
    cases top : (rootHeap sources).top? with
    | none =>
      simp only [minKey?, top, Option.map_none, Option.getD_none] at start
      omega
    | some a =>
      have := keys.key true _ _ (.root (mem_rootHeap.1 (top?_mem top).1).1)
      simp only [minKey?, top, Option.map_some, Option.getD_some] at start
      omega
  have offset_le : ∀ s ∈ rootLabels sources, offset ≤ s.weight := by
    intro s hs
    have mem : (⟨s, true⟩ : Entry (Fin n) (HeapData n)) ∈ (rootHeap sources).entries := mem_rootHeap.2 ⟨hs, rfl⟩
    have nonempty : (rootHeap sources).isEmpty = false := by
      by_contra empty
      have := isEmpty_iff_settled.1 (by simpa using empty) _ mem
      cases this
    obtain ⟨a, top⟩ := exists_top nonempty
    have : a.weight ≤ s.weight := top?_le top mem rfl
    simp only [minKey?, top, Option.map_some, Option.getD_some] at start
    omega
  have start_query : Query A q offset (rootsOf sources targets) true (rootHeap sources)
      (rootHeap targets) ⟨none, invalidEdgeWeight⟩ (rootHeap sources) (rootHeap targets) := by
    refine ⟨⟨rootHeap_settling _ _ distinct, .inl rfl⟩, ⟨rootHeap_settling _ _ distinct', .inl rfl⟩, ?_, .inl rfl, nofun⟩
    intro a ha _ _ settled
    rw [(mem_rootHeap.1 ha).2] at settled
    cases settled
  have nonneg' : ∀ k, Connects A (rootLabels sources) (rootLabels targets) k → 0 ≤ k := fun k connects =>
    nonneg k (connects_totals.1 connects)
  have enough : ∀ heap : QueryHeap n, heap.remaining ≤ n := by
    intro heap
    have := Fintype.card_fin n
    unfold KeyedQueue.remaining
    omega
  obtain ⟨h, o, query, empty, empty'⟩ := searchLoop_query climbs nonneg' keys small offset_zero (2 * n)
    ⟨rootHeap sources, rootHeap targets, ⟨none, invalidEdgeWeight⟩⟩ start_query (by
      have := enough (rootHeap sources)
      have := enough (rootHeap targets)
      simp only
      omega)
  refine ⟨fun k hk => ?_, offset, h, o, query⟩
  -- compare with a lightest connection, along a walk that fits
  obtain ⟨least, ⟨s, hs, t, ht, d, walk, rfl⟩, low⟩ := exists_isLeast_int 0 nonneg ⟨k, hk⟩
  obtain ⟨d', le, walk', light⟩ := fits s hs t ht d walk
  have targets_nonneg' : ∀ l ∈ rootLabels targets, 0 ≤ l.weight := by
    intro l hl
    obtain ⟨t, ht, rfl⟩ := List.mem_map.1 hl
    exact targets_nonneg t ht
  have bound := query.complete climbs empty empty' offset_le offset_zero targets_nonneg'
    (s := ⟨s.1, s.2, ⟨s.1⟩⟩) (t := ⟨t.1, t.2, ⟨t.1⟩⟩) (List.mem_map.2 ⟨s, hs, rfl⟩) (List.mem_map.2 ⟨t, ht, rfl⟩)
    walk' light (by
      intro k' connects
      have := low (connects_totals.1 connects)
      simp only
      omega)
  have := low hk
  simp only at bound
  omega

/-- `search` on a hierarchy returns the weight of a lightest connection. -/
theorem search_exact :
    IsMinWeight (Totals A sources targets)
      (search q (rootHeap sources) (rootHeap targets) [] [] invalidEdgeWeight).1 := by
  unfold search
  split_ifs with empty
  · have none : ∀ k, k ∉ Totals A sources targets := by
      rintro k ⟨s, hs, t, ht, -⟩
      rcases Bool.or_eq_true_iff.1 empty with h | h
      · rw [rootHeap_isEmpty.1 h] at hs
        cases hs
      · rw [rootHeap_isEmpty.1 h] at ht
        cases ht
    refine ⟨.inl rfl, ?_⟩
    rintro k (rfl | hk)
    · exact le_rfl
    · exact absurd hk (none k)
  · simp only
    generalize ends : searchLoop q (min 0 ((rootHeap sources).minKey?.getD 0)) [] [] (2 * n)
      ⟨rootHeap sources, rootHeap targets, ⟨none, invalidEdgeWeight⟩⟩ = st
    obtain ⟨low, offset, h, o, query⟩ := searchLoop_ends climbs distinct distinct' targets_nonneg nonneg fits keys ends.symm
    rcases query.found with none | ⟨middle, light, connects⟩
    · rw [none] at low ⊢
      refine ⟨.inl rfl, ?_⟩
      rintro k (rfl | hk)
      · exact le_rfl
      · exact low k hk
    · obtain ⟨m, hm⟩ := Option.ne_none_iff_exists'.1 middle
      simp only [hm, not_le.2 light, if_false]
      have least : IsMinWeight (Totals A sources targets) st.best.upperBound := by
        refine ⟨.inr (connects_totals.1 connects), ?_⟩
        rintro k (rfl | hk)
        · exact light.le
        · exact low k hk
      split <;> exact least

end Exact

end Ch

open Ch

/-- The one-way street with all of its nodes contracted. -/
def lineDone : ContractorState 3 :=
  let s := lineContracted.contract (lineRound lineContracted ⟨0, by decide⟩ [])
  s.contract (lineRound s ⟨2, by decide⟩ [])

theorem lineRound_valid_first : (lineRound lineContracted ⟨0, by decide⟩ []).Valid lineContracted :=
  have sums : ∀ m ∈ [(0 : Fin 3)], SumsFit lineContracted.graph m := by decide
  ⟨by decide, by decide, by decide +kernel, fun _ => le_rfl, sums,
    fun m hm => searchWitness_finds (by decide) (sums m hm), by decide⟩

theorem lineRound_valid_last :
    let s := lineContracted.contract (lineRound lineContracted ⟨0, by decide⟩ [])
    (lineRound s ⟨2, by decide⟩ []).Valid s :=
  have sums : ∀ m ∈ [(2 : Fin 3)],
      SumsFit (lineContracted.contract (lineRound lineContracted ⟨0, by decide⟩ [])).graph m := by decide
  ⟨by decide, by decide, by decide, fun _ => le_rfl, sums,
    fun m hm => searchWitness_finds (by decide) (sums m hm), by decide⟩

theorem lineDone_reachable : Reachable lineGraph (fun _ => true) lineDone :=
  (lineContracted_reachable.tail (.round _ lineRound_valid_first)).tail (.round _ lineRound_valid_last)

def lineQuery : QueryGraph 3 := ⟨fun u => (lineDone.graph.edges u).map fun e => ⟨e.target, toQueryEdgeData e.data⟩⟩

theorem line_walk : Walk lineGraph.Forward 0 2 5 :=
  .cons (c := 2) (d := 3) (v := 1) (by decide) (.single (by decide))

theorem line_positive : Positive lineGraph.Forward := by
  rintro u w c ⟨e, he, -, rfl, -⟩
  revert u e
  decide

theorem lineQuery_keys : KeysFit lineQuery (rootsOf [(0, -1)] [(2, 1)]) :=
  .of_height (fun _ => ![5, 7, 0]) (by decide) (by decide)

end Osrm
