import Osrm.Lib.Bidirectional
import Osrm.Customizer.CellCustomizer

/-!
# Customized cells hold the distances inside them

By induction over the levels. The search of a cell runs on the overlay of its subcells,
whose cliques are the rows of the level below; so it settles every destination with the
length of a shortest walk inside the cell (`exploreFrom_exact`). A row holds valid weights
for allowed destinations only, hence the iterators of the search above it stay in step.
-/

namespace Osrm.Customizer

open List MultiLevelGraph

open Lib Lib.KeyedQueue MultiLevelPartition CellStorage

variable {n : ℕ} {P : MultiLevelPartition n} {g : MultiLevelGraph n} {allowed : Fin n → Bool} {metric : CellMetric n}
  {k l : ℕ}

variable (P g allowed metric l) in
/-- The rows of the cells of level `l` are filled. -/
structure Customized : Prop where
  exact : ExactLevel P g allowed g.arcs metric l
  own : ∀ s, IsSource P g l s → IsDestination P g l s → allowed s = true → metric.value l s s = ⟨0, 0, 0⟩
  blocked : ∀ s d, Stored P g l s d → allowed s = false → (metric.value l s d).weight = invalidEdgeWeight

/-- A valid weight leads between allowed nodes. -/
theorem Customized.allowed_of_valid (customized : Customized P g allowed metric l) {s d : Fin n} (stored : Stored P g l s d)
    (valid : (metric.value l s d).weight ≠ invalidEdgeWeight) :
    allowed s = true ∧ allowed d = true := by
  have start : allowed s = true := by
    cases permitted : allowed s with
    | true => rfl
    | false => exact absurd (customized.blocked s d stored permitted) valid
  refine ⟨start, ?_⟩
  by_cases ne : s = d
  · exact ne ▸ start
  · rcases customized.exact s d stored.source stored.destination ((sameCell_pos stored.pos).2 stored.same) ne with ⟨-, least⟩ | ⟨invalid, -⟩
    · exact allowed_of_walk least.1 start
    · exact absurd invalid valid

variable (P g l) in
/-- The destinations of the row of a node: none where it has no row. -/
def rowTargets (u : Fin n) : List (Fin n) :=
  if (sourceNodes P g l (P.cell l u)).any (· = u) then destinationNodes P g l (P.cell l u) else []

theorem mem_rowTargets {u v : Fin n} (pos : 1 ≤ l) :
    v ∈ rowTargets P g l u ↔ IsSource P g l u ∧ IsDestination P g l v ∧ P.SameCell l u v := by
  have any : (sourceNodes P g l (P.cell l u)).any (· = u) = true ↔ IsSource P g l u := by
    simp [IsSource]
  rw [rowTargets, sameCell_pos pos]
  by_cases source : IsSource P g l u
  · rw [if_pos (any.2 source), mem_destinationNodes_iff]
    simp [source, and_comm, eq_comm]
  · rw [if_neg (mt any.1 source)]
    simp [source]

variable (P g allowed metric k) in
/-- All labels `RelaxNode` offers at level `k + 1`, each made by `label`. -/
def allOffers (label : Label (Fin n) HeapData → Bool → Fin n → CellValue → Label (Fin n) HeapData) (p : Label (Fin n) HeapData) :
    List (Label (Fin n) HeapData) :=
  (if k ≠ 0 ∧ p.data.fromClique = false then rowOffers label (metric.value k p.node) p (rowTargets P g k p.node) else []) ++
    edgeOffers P g allowed (k + 1) label p

variable (P g allowed metric k) in
/-- The labels an allowed node offers to other nodes. -/
def offers (p : Label (Fin n) HeapData) : List (Label (Fin n) HeapData) :=
  if allowed p.node then (allOffers P g allowed metric k fullOffer p).filter (·.node ≠ p.node) else []

theorem relaxNode_eq (lt : k + 1 < P.numLevels) (customized : 1 ≤ k → Customized P g allowed metric k) (p : Label (Fin n) HeapData)
    (heap : Heap n) : relaxNode P g allowed metric (k + 1) p heap =
      (allOffers P g allowed metric k offer p).foldl (relax tieLess) heap := by
  have scan : 1 ≤ k → relaxSubcell allowed p ((row P g metric k p.node).map (·.weight))
      (destinationNodes P g k (P.cell k p.node)) ((row P g metric k p.node).map (·.duration))
      ((row P g metric k p.node).map (·.distance)) heap =
      (rowOffers offer (metric.value k p.node) p (rowTargets P g k p.node)).foldl (relax tieLess) heap := by
    intro pos
    have safe : ∀ t ∈ rowTargets P g k p.node, (metric.value k p.node t).weight ≠ invalidEdgeWeight → allowed t = true := by
      intro t ht valid
      obtain ⟨hs, hd, same⟩ := (mem_rowTargets pos).1 ht
      exact ((customized pos).allowed_of_valid ⟨pos, by omega, hs, hd, (sameCell_pos pos).1 same⟩ valid).2
    unfold row outRange
    unfold rowTargets at safe ⊢
    by_cases source : (sourceNodes P g k (P.cell k p.node)).any (· = p.node) = true
    · simp only [source, if_true, map_map] at safe ⊢
      exact relaxSubcell_eq p _ heap safe
    · simp only [source]
      rfl
  rw [allOffers]
  simp only [relaxNode, relaxInternal_eq, Nat.add_sub_cancel]
  by_cases first : k = 0
  · simp [first]
  · rw [scan (by omega)]
    cases p.data.fromClique <;> simp [first]

/-- What a node offers: the valid entries of its row, unless it was reached along a row itself, and the edges
that leave its subcell but not its cell. -/
theorem mem_offers (few : ∀ u, (g.edges u).length ≤ 255) (lt : k + 1 < P.numLevels) {p o : Label (Fin n) HeapData} :
    o ∈ offers P g allowed metric k p ↔
    allowed p.node = true ∧ o.node ≠ p.node ∧
      ((1 ≤ k ∧ p.data.fromClique = false ∧ tableArcs P g metric k p.node o.node (metric.value k p.node o.node).weight ∧
          o = fullOffer p true o.node (metric.value k p.node o.node)) ∨
        ∃ e ∈ g.edges p.node, e.target = o.node ∧ e.data.forward = true ∧ allowed o.node = true ∧
          P.SameCell (k + 1) p.node o.node ∧ ¬ P.SameCell k p.node o.node ∧ o = fullOffer p false o.node (edgeValue e.data)) := by
  have sub : ∀ v, v ≠ p.node → ((k + 1 = 1 ∨ P.cell k p.node ≠ P.cell k v) ↔ ¬ P.SameCell k p.node v) := by
    intro v ne
    by_cases zero : k = 0
    · subst zero
      simp [sameCell_zero, ne.symm]
    · rw [sameCell_pos (by omega)]
      simp [zero]
  have rows : o ∈ (if k ≠ 0 ∧ p.data.fromClique = false then rowOffers fullOffer (metric.value k p.node) p (rowTargets P g k p.node)
      else []) ↔ (k ≠ 0 ∧ p.data.fromClique = false) ∧ ∃ t ∈ rowTargets P g k p.node,
        (metric.value k p.node t).weight ≠ invalidEdgeWeight ∧ fullOffer p true t (metric.value k p.node t) = o := by
    split
    · rename_i scanned
      simp [rowOffers, scanned, and_assoc]
    · rename_i skipped
      simp [skipped]
  unfold offers
  by_cases permitted : allowed p.node = true
  · rw [if_pos permitted, mem_filter, decide_eq_true_eq, allOffers, mem_append, rows]
    simp only [permitted, true_and]
    rw [and_comm]
    refine and_congr_right fun ne => or_congr ⟨?_, ?_⟩ ⟨?_, ?_⟩
    · rintro ⟨⟨nonzero, flag⟩, t, ht, valid, rfl⟩
      have pos := Nat.pos_of_ne_zero nonzero
      obtain ⟨hs, hd, same⟩ := (mem_rowTargets pos).1 ht
      exact ⟨pos, flag, ⟨hs, hd, same, ne.symm, rfl, valid⟩, rfl⟩
    · rintro ⟨pos, flag, ⟨hs, hd, same, -, -, valid⟩, eq⟩
      exact ⟨⟨by omega, flag⟩, o.node, (mem_rowTargets pos).2 ⟨hs, hd, same⟩, valid, eq.symm⟩
    · intro mem
      simp only [edgeOffers, mem_map, mem_filter, Bool.and_eq_true, Bool.or_eq_true, decide_eq_true_eq] at mem
      obtain ⟨e, ⟨he, target, forward, leaves⟩, rfl⟩ := mem
      obtain ⟨he, same⟩ := (mem_internalEdgeRange (few _) (by omega) lt).1 he
      exact ⟨e, he, rfl, forward, target, same, (sub _ ne).1 leaves, rfl⟩
    · rintro ⟨e, he, target, forward, permitted', same, leaves, eq⟩
      simp only [edgeOffers, mem_map, mem_filter, Bool.and_eq_true, Bool.or_eq_true, decide_eq_true_eq]
      rw [← target] at permitted' same leaves ne eq
      refine ⟨e, ⟨(mem_internalEdgeRange (few _) (by omega) lt).2 ⟨he, same⟩, permitted', forward, ?_⟩, eq.symm⟩
      exact (sub _ ne).2 leaves
  · simp [permitted]

variable (P g allowed k) in
/-- The edges between the subcells of a cell. -/
abbrev subcellEdges : Arcs (Fin n) :=
  crossing (cellArcs P allowed g.arcs (k + 1)) (P.SameCell k)

variable (P g allowed k) in
abbrev subcellCliques : Arcs (Fin n) :=
  clique (cellArcs P allowed g.arcs k) (IsSource P g k) (IsDestination P g k)

variable (P g allowed k) in
/-- The arcs along which the search of a cell finds its way. -/
def subcellArcs : Arcs (Fin n) := fun u v c => subcellEdges P g allowed k u v c ∨ subcellCliques P g allowed k u v c

variable (P g allowed k) in
/-- The arcs whose weights the search of a cell adds to its labels: also an edge from a node to itself. -/
def addedArcs : Arcs (Fin n) := fun u v c => cellArcs P allowed g.arcs (k + 1) u v c ∨ subcellCliques P g allowed k u v c

/-- The search of a cell follows the edges between its subcells and their cliques. -/
theorem offers_pruned (few : ∀ u, (g.edges u).length ≤ 255) (lt : k + 1 < P.numLevels) (customized : 1 ≤ k → Customized P g allowed metric k) :
    Pruned (offers P g allowed metric k) HeapData.fromClique (subcellEdges P g allowed k) (subcellCliques P g allowed k) where
  crosses p v c arc := by
    obtain ⟨⟨⟨e, he, rfl, rfl, forward⟩, start, permitted, same⟩, leaves⟩ := arc
    by_cases ne : e.target = p.node
    · exact .inl ne
    · refine .inr ⟨fullOffer p false e.target (edgeValue e.data), (mem_offers few lt).2 ⟨start, ne, .inr ?_⟩, rfl, rfl⟩
      exact ⟨e, he, rfl, forward, permitted, same, leaves, rfl⟩
  jumps p v c flag arc := by
    obtain ⟨x, _, first, -⟩ := (clique_walk arc).leaves arc.2.2.1
    have pos : 1 ≤ k := by
      by_contra zero
      obtain rfl : k = 0 := by omega
      exact arc.2.2.1 (sameCell_zero.1 (sameCell_of_walk (clique_walk arc)))
    have table : tableArcs P g metric k p.node v c := (customized pos).exact.tableArcs_eq ▸ arc
    obtain ⟨hs, hd, same, ne, rfl, valid⟩ := table
    refine ⟨fullOffer p true v (metric.value k p.node v), (mem_offers few lt).2 ⟨first.2.1, ne.symm, .inl ?_⟩, rfl, rfl⟩
    exact ⟨pos, flag, ⟨hs, hd, same, ne, rfl, valid⟩, rfl⟩
  origin p o offered := by
    obtain ⟨start, ne, ⟨pos, flag, table, eq⟩ | ⟨e, he, target, forward, permitted, same, leaves, eq⟩⟩ := (mem_offers few lt).1 offered
    · refine .inr ⟨by rw [eq]; rfl, flag, ?_⟩
      have weight : o.weight - p.weight = (metric.value k p.node o.node).weight := by
        rw [congrArg Label.weight eq]
        exact add_sub_cancel_left _ _
      rw [weight, subcellCliques, ← (customized pos).exact.tableArcs_eq]
      exact table
    · refine .inl ⟨by rw [eq]; rfl, ?_⟩
      have weight : o.weight - p.weight = e.data.weight := by
        rw [congrArg Label.weight eq]
        exact add_sub_cancel_left _ _
      rw [weight]
      exact ⟨⟨⟨e, he, target, rfl, forward⟩, start, permitted, same⟩, leaves⟩

section Search

variable (few : ∀ u, (g.edges u).length ≤ 255) (pos : Positive g.arcs) (lt : k + 1 < P.numLevels)
  (customized : 1 ≤ k → Customized P g allowed metric k)

include few pos lt customized

theorem offers_ascending : Ascending (offers P g allowed metric k) := by
  apply (offers_pruned few lt customized).ascending
  · intro u v c arc
    exact pos _ _ _ arc.1.1
  · exact clique_positive (cellArcs_positive pos)

omit few pos customized in
theorem subcellArcs_eq : subcellArcs P g allowed k =
    overlay (cellArcs P allowed g.arcs (k + 1)) (P.SameCell k) (IsSource P g k) (IsDestination P g k) := by
  unfold overlay
  rw [inner_cellArcs lt]
  rfl

omit few customized in
theorem subcellArcs_positive : Positive (subcellArcs P g allowed k) := by
  rw [subcellArcs_eq lt]
  exact overlay_positive (cellArcs_positive pos)

omit pos in
/-- What is offered stands for an arc of the overlay. -/
theorem offers_arcs (p : Label (Fin n) HeapData) : ∀ o ∈ offers P g allowed metric k p,
    subcellArcs P g allowed k p.node o.node (o.weight - p.weight) := by
  intro o offered
  rcases (offers_pruned few lt customized).origin p o offered with ⟨-, arc⟩ | ⟨-, -, arc⟩
  · exact .inl arc
  · exact .inr arc

variable (P g allowed metric k) in
/-- The invariant of the search from `s`. -/
abbrev Searching (s : Fin n) (heap : Heap n) : Prop :=
  Settling (offers P g allowed metric k) (· ∈ [root s]) (fun _ => False) heap

variable {s : Fin n} {heap : Heap n}

section

variable (inv : Searching P g allowed metric k s heap)

include inv

theorem Searching.real {e : Entry (Fin n) HeapData} (he : e ∈ heap.entries) :
    Walk (cellArcs P allowed g.arcs (k + 1)) s e.node e.weight := by
  have sound : ∀ p, ∀ o ∈ offers P g allowed metric k p, Walk (cellArcs P allowed g.arcs (k + 1)) p.node o.node
      (o.weight - p.weight) := by
    intro p o offered
    have arc := offers_arcs few lt customized p o offered
    rw [subcellArcs_eq lt] at arc
    exact overlay_walk arc
  obtain ⟨r, hr, d, walk, eq⟩ := Settling.real (offers_ascending few pos lt customized) inv sound e he
  obtain rfl := mem_singleton.1 hr
  rw [← eq]
  simpa [root] using walk

/-- A settled label has been carried along the overlay. -/
theorem Searching.followed : Followed (subcellArcs P g allowed k) heap :=
  (offers_pruned few lt customized).followed (fun _ _ _ arc => pos _ _ _ arc.1.1)
    (clique_positive (cellArcs_positive pos)) (fun _ _ _ _ _ => clique_trans (cellArcs_positive pos))
    (fun l hl => by rw [mem_singleton.1 hl]; rfl) inv

omit pos customized in
/-- Durations and distances are sums already, so adding nothing does not change them. -/
theorem Searching.data {e : Entry (Fin n) HeapData} (he : e ∈ heap.entries) :
    add32 e.data.duration 0 = e.data.duration ∧ addFloat e.data.distance 0 = e.data.distance := by
  have offered : ∀ (p : Label (Fin n) HeapData) (c : Bool) (t : Fin n) (v : CellValue), e.toLabel = fullOffer p c t v →
      add32 e.data.duration 0 = e.data.duration ∧ addFloat e.data.distance 0 = e.data.distance := by
    intro p c t v eq
    have data : e.data = (fullOffer p c t v).data := congrArg Label.data eq
    rw [data]
    exact ⟨(add32_add32 _ _ 0).trans (by rw [add_zero]; rfl), addFloat_zero _ _⟩
  rcases inv.origin e he with isRoot | ⟨p, -, -, mem⟩
  · have data : e.data = (root s).data := congrArg Label.data (mem_singleton.1 isRoot)
    rw [data]
    exact ⟨rfl, show addFloat 0 0 = 0 by decide +kernel⟩
  · obtain ⟨-, -, ⟨-, -, -, eq⟩ | ⟨_, -, -, -, -, -, -, eq⟩⟩ := (mem_offers few lt).1 mem
    · exact offered _ _ _ _ eq
    · exact offered _ _ _ _ eq

variable (keys : KeysWithin (subcellArcs P g allowed k) (addedArcs P g allowed k) [root s] invalidEdgeWeight)

include keys

theorem Searching.within : ∀ e ∈ heap.entries, -invalidEdgeWeight < e.weight ∧ e.weight < invalidEdgeWeight := by
  refine Settling.within (subcellArcs_positive pos lt) inv (offers_arcs few lt customized)
    (Searching.followed few pos lt customized inv) keys ?_
  rintro u v c (arc | arc)
  · exact .inl arc.1
  · exact .inr arc

/-- What the next node offers is computed without overflow. -/
theorem Searching.allOffers_eq {a : Entry (Fin n) HeapData} (permitted : allowed a.node = true) (top : heap.top? = some a) :
    allOffers P g allowed metric k offer a.toLabel = allOffers P g allowed metric k fullOffer a.toLabel := by
  have mem := (top?_mem top).1
  obtain ⟨low, high⟩ := Searching.within few pos lt customized inv keys a mem
  have least := Settling.least (subcellArcs_positive pos lt) inv (offers_arcs few lt customized)
    (Searching.followed few pos lt customized inv) mem (.inr top)
  have full : ∀ (clique : Bool) (t : Fin n) (v : CellValue), 0 ≤ v.weight → a.weight + v.weight < invalidEdgeWeight →
      offer a.toLabel clique t v = fullOffer a.toLabel clique t v := by
    intro clique t v nonneg high
    have : add32 a.weight v.weight = a.weight + v.weight := add32_eq (by unfold invalidEdgeWeight at low; omega) high.le
    simp only [offer, fullOffer, this]
  unfold allOffers
  congr 1
  · split_ifs with above
    · have one := Nat.pos_of_ne_zero above.1
      refine map_congr_left fun t ht => ?_
      obtain ⟨target, valid⟩ := mem_filter.1 ht
      obtain ⟨hs, hd, same⟩ := (mem_rowTargets one).1 target
      by_cases here : a.node = t
      · have own := (customized one).own a.node hs (here ▸ hd) permitted
        rw [← here, own]
        exact full _ _ _ le_rfl (by simpa using high)
      · have arc : subcellCliques P g allowed k a.node t (metric.value k a.node t).weight := by
          rw [subcellCliques, ← (customized one).exact.tableArcs_eq]
          exact ⟨hs, hd, same, here, rfl, by simpa using valid⟩
        exact full _ _ _ (clique_positive (cellArcs_positive pos) _ _ _ arc).le (keys.sum _ _ t _ least (.inr arc))
    · rfl
  · refine map_congr_left fun e he => ?_
    simp only [mem_filter, Bool.and_eq_true] at he
    obtain ⟨he, target, forward, -⟩ := he
    obtain ⟨listed, same⟩ := (mem_internalEdgeRange (few _) (by omega) lt).1 he
    have arc : g.arcs a.node e.target e.data.weight := ⟨e, listed, rfl, rfl, forward⟩
    exact full _ _ _ (pos _ _ _ arc).le (keys.sum _ _ _ _ least (.inl ⟨arc, permitted, target, same⟩))

/-- `RelaxNode` offers what lies ahead of the node it settles. -/
theorem relaxNode_settles (start : allowed s = true) {a : Entry (Fin n) HeapData}
    (top : heap.top? = some a) :
    relaxNode P g allowed metric (k + 1) a.toLabel (heap.dequeue a.node) =
      heap.settle tieLess a (offers P g allowed metric k a.toLabel) := by
  have mem := (top?_mem top).1
  have permitted := allowed_of_walk (Searching.real few pos lt customized inv mem) start
  rw [relaxNode_eq lt customized, Searching.allOffers_eq few pos lt customized inv keys permitted top, offers, if_pos permitted]
  apply settle_filter inv.unique mem
  intro o ho here
  rcases mem_append.1 ho with scanned | edge
  · -- a row gives its own node the weight, duration and distance `0`
    split_ifs at scanned with above
    · have one := Nat.pos_of_ne_zero above.1
      simp only [rowOffers, mem_map, mem_filter] at scanned
      obtain ⟨t, ⟨ht, -⟩, rfl⟩ := scanned
      obtain ⟨hs, hd, -⟩ := (mem_rowTargets one).1 ht
      obtain rfl : t = a.node := here
      have own := (customized one).own _ hs hd permitted
      obtain ⟨duration, distance⟩ := Searching.data few lt inv mem
      simp [tieLess, fullOffer, offer, own, duration, distance]
    · cases scanned
  · simp only [edgeOffers, mem_map, mem_filter, Bool.and_eq_true] at edge
    obtain ⟨e, ⟨he, -, forward, -⟩, rfl⟩ := edge
    have listed := ((mem_internalEdgeRange (few _) (by omega) lt).1 he).1
    have heavier := pos a.node e.target e.data.weight ⟨e, listed, rfl, rfl, forward⟩
    cases better : tieLess (fullOffer a.toLabel false e.target (edgeValue e.data)) a.toLabel with
    | false => rfl
    | true =>
      have := tieLess_better.le _ _ better
      simp only [fullOffer, edgeValue] at this
      omega

end

/-- **The search of a cell**: it ends with all of `ds` settled or with an empty heap. -/
theorem explore_spec (keys : KeysWithin (subcellArcs P g allowed k) (addedArcs P g allowed k) [root s] invalidEdgeWeight)
    (start : allowed s = true) (fuel : ℕ) : ∀ (heap : Heap n) (ds : List (Fin n)),
    Searching P g allowed metric k s heap → heap.remaining ≤ fuel →
    Searching P g allowed metric k s (explore P g allowed metric (k + 1) fuel heap ds) ∧
    (∀ e ∈ heap.entries, e.queued = false → e ∈ (explore P g allowed metric (k + 1) fuel heap ds).entries) ∧
    ∀ d ∈ ds, (explore P g allowed metric (k + 1) fuel heap ds).isEmpty = true ∨
      ∃ e ∈ (explore P g allowed metric (k + 1) fuel heap ds).entries, e.queued = false ∧ e.node = d := by
  have ascending := offers_ascending few pos lt customized
  induction fuel with
  | zero =>
    intro heap ds inv enough
    refine ⟨inv, fun e he _ => he, fun d _ => .inl ?_⟩
    change heap.isEmpty = true
    apply top?_eq_none.1
    cases top : heap.top? with
    | none => rfl
    | some a =>
      have less := inv.remaining_step tieLess_better top (ascending a.toLabel)
      omega
  | succ fuel ih =>
    intro heap ds inv enough
    unfold explore
    cases top : heap.top? with
    | none => exact ⟨inv, fun e he _ => he, fun d _ => .inl (top?_eq_none.1 top)⟩
    | some a =>
      simp only
      split_ifs with done
      · refine ⟨inv, fun e he _ => he, fun d hd => ?_⟩
        rw [isEmpty_iff.1 done] at hd
        cases hd
      · rw [relaxNode_settles few pos lt customized inv keys start top]
        have less := inv.remaining_step tieLess_better top (ascending a.toLabel)
        have next := Settling.step tieLess_better ascending inv top (.inl rfl)
        have settled := fun {e : Entry (Fin n) HeapData} (out : e.queued = false) =>
          inv.settled_iff tieLess_better top (ascending a.toLabel) out
        obtain ⟨inv', keeps, finds⟩ := ih _ (ds.filter (· ≠ a.node)) next (by omega)
        refine ⟨inv', fun e he out => keeps e ((settled out).2 (.inl he)) out, fun d hd => ?_⟩
        by_cases here : d = a.node
        · refine .inr ⟨{ a with queued := false }, keeps _ ((settled rfl).2 (.inr rfl)) rfl, rfl, here.symm⟩
        · exact finds d (mem_filter.2 ⟨hd, by simpa using here⟩)

end Search

/-- From a boundary node of a cell to another the overlay of the subcells has the clique arcs it needs. -/
theorem cell_doors (lt : k + 1 < P.numLevels) {s d : Fin n} (hs : isBoundaryNode P g (k + 1) s = true)
    (hd : isBoundaryNode P g (k + 1) d = true) :
    Doors (cellArcs P allowed g.arcs (k + 1)) (P.SameCell k) (IsSource P g k) (IsDestination P g k) s d := by
  have above : ∀ {u x : Fin n}, P.SameCell k u x → u ≠ x → 1 ≤ k := by
    intro u x same ne
    by_contra zero
    obtain rfl : k = 0 := by omega
    exact ne (sameCell_zero.1 same)
  constructor
  · intro u x c arc ne enters
    have one := above arc.2 ne
    apply isSource_of_boundary one _ (linked_of_arcs arc.1.1) arc.2
    rcases enters with rfl | ⟨y, c', cross⟩
    · exact isBoundaryNode_down one (by omega) lt hs
    · exact isBoundaryNode_of_entered one (linked_of_arcs cross.1.1) cross.2
  · intro v x c arc ne leaves
    have one := above arc.2 ne
    apply isDestination_of_boundary one _ (linked_of_arcs arc.1.1) arc.2
    rcases leaves with rfl | ⟨y, c', cross⟩
    · exact isBoundaryNode_down one (by omega) lt hd
    · exact isBoundaryNode_of_left one (linked_of_arcs cross.1.1) cross.2

section Exact

variable (few : ∀ u, (g.edges u).length ≤ 255) (pos : Positive g.arcs) (lt : k + 1 < P.numLevels)
  (customized : 1 ≤ k → Customized P g allowed metric k) {s d : Fin n} {heap : Heap n}

include few pos lt customized

/-- Where the heap is empty or `d` is settled, no walk inside the cell is lighter than the label of `d`. -/
theorem Searching.lightest (inv : Searching P g allowed metric k s heap)
    (hs : isBoundaryNode P g (k + 1) s = true) (hd : isBoundaryNode P g (k + 1) d = true)
    (done : heap.isEmpty = true ∨ ∃ e ∈ heap.entries, e.queued = false ∧ e.node = d) {w : ℤ}
    (walk : Walk (cellArcs P allowed g.arcs (k + 1)) s d w) : heap.Reached d w := by
  have positive : Positive (cellArcs P allowed g.arcs (k + 1)) := cellArcs_positive pos
  obtain ⟨w', le, above⟩ := walk.overlay (cell_doors lt hs hd) positive
  have followed := Searching.followed few pos lt customized inv
  rw [subcellArcs_eq lt] at followed
  have rooted := inv.rooted (root s) (by simp)
  rcases frontier_of_walk (fun e he settled _ _ _ => followed e he settled) (overlay_positive positive) above rooted
      (zero_add w').le with
    ⟨e, he, node, -, light⟩ | ⟨e, he, queued, light⟩
  · exact ⟨e, he, node, light.trans le⟩
  · rcases done with empty | ⟨e', he', settled, node⟩
    · rw [isEmpty_iff_settled.1 empty e he] at queued
      cases queued
    · have := inv.floor e' he' e he settled queued
      exact ⟨e', he', node, by omega⟩

/-- The source keeps the label it starts with. -/
theorem Searching.source (inv : Searching P g allowed metric k s heap) :
    ∃ e, heap.find? s = some e ∧ e.toLabel = root s := by
  obtain ⟨e, he, node, low⟩ := inv.rooted (root s) (by simp)
  change e.node = s at node
  refine ⟨e, node ▸ find?_of_mem inv.unique he, ?_⟩
  rcases inv.origin e he with isRoot | ⟨p, hp, -, offered⟩
  · exact mem_singleton.1 isRoot
  · -- an offered label would be heavier than `0`
    have heavier := offers_ascending few pos lt customized _ _ offered
    have nonneg := (Searching.real few pos lt customized inv hp).nonneg (cellArcs_positive pos)
    change e.weight ≤ 0 at low
    omega

/-- **The search of a cell is exact.** -/
theorem exploreFrom_exact (start : allowed s = true) (hs : isBoundaryNode P g (k + 1) s = true)
    (hd : d ∈ destinationNodes P g (k + 1) (P.cell (k + 1) s))
    (keys : KeysWithin (subcellArcs P g allowed k) (addedArcs P g allowed k) [root s] invalidEdgeWeight) :
    ExactWeight (cellArcs P allowed g.arcs (k + 1)) s d (newValue P g allowed metric (k + 1) s d).weight ∧
      (s = d → newValue P g allowed metric (k + 1) s d = ⟨0, 0, 0⟩) := by
  have first : Searching P g allowed metric k s (empty.insert (root s)) :=
    Settling.start (offers P g allowed metric k) (fun _ => False) (show ([root s].map (·.node)).Nodup by simp)
  have enough : (empty.insert (root s)).remaining ≤ n := (Nat.sub_le _ _).trans (Fintype.card_fin n).le
  obtain ⟨inv, -, finds⟩ := explore_spec few pos lt customized keys start n _
    ((destinationNodes P g (k + 1) (P.cell (k + 1) s)).filter (allowed ·)) first enough
  unfold newValue exploreFrom
  generalize explore P g allowed metric (k + 1) n (empty.insert (root s))
    ((destinationNodes P g (k + 1) (P.cell (k + 1) s)).filter (allowed ·)) = heap at inv finds
  refine ⟨?_, ?_⟩
  · have reached : ∀ w, Walk (cellArcs P allowed g.arcs (k + 1)) s d w → heap.Reached d w := by
      intro w walk
      have permitted := allowed_of_walk walk start
      exact Searching.lightest few pos lt customized inv hs (mem_destinationNodes.1 hd).2.1
        (finds d (mem_filter.2 ⟨hd, permitted⟩)) walk
    unfold valueOf
    cases found : heap.find? d with
    | none =>
      refine .inr ⟨rfl, fun w walk => ?_⟩
      obtain ⟨e, he, node, -⟩ := reached w walk
      exact find?_none.1 found e he node
    | some e =>
      obtain ⟨he, node⟩ := find?_mem found
      have walk := Searching.real few pos lt customized inv he
      rw [node] at walk
      have least : IsLeast {x | Walk (cellArcs P allowed g.arcs (k + 1)) s d x} e.weight := by
        refine ⟨walk, fun w other => ?_⟩
        obtain ⟨e', he', node', light⟩ := reached w other
        rwa [inv.unique.eq he he' (node.trans node'.symm)]
      exact .inl ⟨(Searching.within few pos lt customized inv keys e he).2, least⟩
  · rintro rfl
    obtain ⟨e, found, label⟩ := Searching.source few pos lt customized inv
    have weight : e.weight = 0 := congrArg Label.weight label
    have data : e.data = ⟨false, 0, 0⟩ := congrArg Label.data label
    simp [valueOf, found, weight, data]

end Exact

theorem Customized.congr {metric' : CellMetric n} (pos : 1 ≤ l) (lt : l < P.numLevels) (customized : Customized P g allowed metric l)
    (same : ∀ s d, Stored P g l s d → metric'.value l s d = metric.value l s d) : Customized P g allowed metric' l where
  exact s d hs hd cell ne := by
    rw [same s d ⟨pos, lt, hs, hd, (sameCell_pos pos).1 cell⟩]
    exact customized.exact s d hs hd cell ne
  own s hs hd permitted := by
    rw [same s s ⟨pos, lt, hs, hd, rfl⟩]
    exact customized.own s hs hd permitted
  blocked s d stored permitted := by
    rw [same s d stored]
    exact customized.blocked s d stored permitted

variable (P g allowed) in
/-- What customization stores and adds up fits: the offsets of the edges, the sizes of the cells, and every sum of a least
key and an arc. -/
structure Fits : Prop where
  few : ∀ u, (g.edges u).length ≤ 255
  sizes : SizesFit P g
  keys : ∀ k s, k + 1 < P.numLevels → KeysWithin (subcellArcs P g allowed k) (addedArcs P g allowed k) [root s] invalidEdgeWeight

/-- **The step over a level**: on top of a filled level, customizing fills the next one. -/
theorem Customized.step (pos : Positive g.arcs) (fits : Fits P g allowed) (lt : k + 1 < P.numLevels)
    (below : 1 ≤ k → Customized P g allowed metric k)
    (blank : ∀ s d, Stored P g (k + 1) s d → metric.value (k + 1) s d = invalidCellValue) :
    Customized P g allowed (customizeLevel P g allowed metric (k + 1)) (k + 1) := by
  have written : Written P g allowed metric (k + 1) (fun _ => True) (customizeLevel P g allowed metric (k + 1)) :=
    customizeLevel_written fits.sizes (by omega) lt
  have search : ∀ s d, Stored P g (k + 1) s d → allowed s = true →
      (customizeLevel P g allowed metric (k + 1)).value (k + 1) s d = newValue P g allowed metric (k + 1) s d ∧
      ExactWeight (cellArcs P allowed g.arcs (k + 1)) s d (newValue P g allowed metric (k + 1) s d).weight ∧
      (s = d → newValue P g allowed metric (k + 1) s d = ⟨0, 0, 0⟩) := by
    intro s d stored permitted
    refine ⟨written.rows s d trivial stored permitted, ?_⟩
    exact exploreFrom_exact fits.few pos lt below permitted (mem_sourceNodes.1 stored.source).2.1 stored.mem_destinations
      (fits.keys k s lt)
  constructor
  · intro s d hs hd same ne
    have stored : Stored P g (k + 1) s d := ⟨by omega, lt, hs, hd, (sameCell_pos (by omega)).1 same⟩
    cases permitted : allowed s with
    | true =>
      obtain ⟨value, exact, -⟩ := search s d stored permitted
      rw [value]
      exact exact
    | false =>
      rw [written.blocked s d stored permitted, blank s d stored]
      refine .inr ⟨rfl, fun w walk => ?_⟩
      obtain ⟨x, c, arc, -⟩ := walk.leaves ne
      rw [arc.2.1] at permitted
      cases permitted
  · intro s hs hd permitted
    obtain ⟨value, -, own⟩ := search s s ⟨by omega, lt, hs, hd, rfl⟩ permitted
    rw [value]
    exact own rfl
  · intro s d stored permitted
    rw [written.blocked s d stored permitted, blank s d stored]
    rfl

/-- **The run over the levels.** -/
theorem customizeLevels_spec (pos : Positive g.arcs) (fits : Fits P g allowed) : ∀ k, k + 1 ≤ P.numLevels →
    (∀ l, 1 ≤ l → l ≤ k → Customized P g allowed
      ((range' 1 k).foldl (fun metric level => customizeLevel P g allowed metric level) makeMetric) l) ∧
    ∀ l, k < l → ∀ s d, Stored P g l s d → ((range' 1 k).foldl (fun metric level => customizeLevel P g allowed metric level)
      makeMetric).value l s d = invalidCellValue := by
  intro k
  induction k with
  | zero =>
    intro _
    refine ⟨fun l one zero => ?_, fun l _ s d _ => rfl⟩
    omega
  | succ k ih =>
    intro le
    obtain ⟨done, blank⟩ := ih (by omega)
    rw [range'_1_concat, foldl_append, foldl_cons, foldl_nil, Nat.add_comm 1 k]
    generalize (range' 1 k).foldl (fun metric level => customizeLevel P g allowed metric level) makeMetric = metric
      at done blank ⊢
    have written : Written P g allowed metric (k + 1) (fun _ => True) (customizeLevel P g allowed metric (k + 1)) :=
      customizeLevel_written fits.sizes (by omega) le
    refine ⟨fun l one le' => ?_, fun l above s d stored => ?_⟩
    · by_cases here : l = k + 1
      · subst here
        apply Customized.step pos fits (by omega) (fun one => done k one le_rfl)
        exact blank (k + 1) (by omega)
      · exact (done l one (by omega)).congr one (by omega) fun s d stored => written.others l s d stored here
    · rw [written.others l s d stored (by omega)]
      exact blank l (by omega) s d stored

/-- **Customization is exact**: for an allowed source and a destination of a cell the metric holds the length of a
shortest walk along allowed nodes of the cell, and `invalidEdgeWeight` exactly when there is none. -/
theorem customize_exact (P : MultiLevelPartition n) (g : MultiLevelGraph n) (allowed : Fin n → Bool)
    (pos : Positive g.arcs) (fits : Fits P g allowed) (l id : ℕ) (one : 1 ≤ l) (lt : l < P.numLevels) (s d : Fin n)
    (source : s ∈ sourceNodes P g l id) (permitted : allowed s = true) (destination : d ∈ destinationNodes P g l id) :
    ((∃ w, Walk (cellArcs P allowed g.arcs l) s d w) →
      IsLeast {w | Walk (cellArcs P allowed g.arcs l) s d w} ((customize P g allowed makeMetric).value l s d).weight) ∧
    (((customize P g allowed makeMetric).value l s d).weight = invalidEdgeWeight ↔
      ¬ ∃ w, Walk (cellArcs P allowed g.arcs l) s d w) := by
  have customized : Customized P g allowed (customize P g allowed makeMetric) l :=
    (customizeLevels_spec pos fits (P.numLevels - 1) (by omega)).1 l one (by omega)
  obtain ⟨cell, hs⟩ := mem_sourceNodes_iff.1 source
  obtain ⟨cell', hd⟩ := mem_destinationNodes_iff.1 destination
  have exact : ExactWeight (cellArcs P allowed g.arcs l) s d ((customize P g allowed makeMetric).value l s d).weight := by
    by_cases ne : s = d
    · subst ne
      rw [customized.own s hs hd permitted]
      refine .inl ⟨by decide, .nil s, fun w walk => Walk.nonneg (cellArcs_positive pos) walk⟩
    · exact customized.exact s d hs hd ((sameCell_pos one).2 (cell.trans cell'.symm)) ne
  rcases exact with ⟨valid, least⟩ | ⟨invalid, none⟩
  · refine ⟨fun _ => least, fun invalid => absurd invalid valid.ne, fun none => absurd ⟨_, least.1⟩ none⟩
  · exact ⟨fun ⟨w, walk⟩ => absurd walk (none w), fun _ ⟨w, walk⟩ => none w walk, fun _ => invalid⟩

/-- Six nodes in a row. -/
def avenue : MultiLevelGraph 6 :=
  .ofEdges ((finRange 5).map fun i : Fin 5 => ⟨i.castSucc, i.succ, ⟨i, 1, 1, 1, true, false⟩⟩)

/-- The two inner pairs are cells of their own, and one cell together on the level above. -/
def avenueCells : MultiLevelPartition 6 where
  numLevels := 3
  numLevels_pos := by decide
  numCells l := if l = 1 then 4 else 3
  cell l u := if l = 1 then (u + 1) / 2 else (u + 3) / 4
  cell_lt l u _ _ := by
    have := u.isLt
    split <;> omega
  nested l u v one lt same := by
    obtain rfl : l = 1 := by omega
    change ((u : ℕ) + 1) / 2 = ((v : ℕ) + 1) / 2 at same
    change ((u : ℕ) + 3) / 4 = ((v : ℕ) + 3) / 4
    omega

theorem avenue_arcs {u v : Fin 6} {c : ℤ} (arc : avenue.arcs u v c) : c = v - u := by
  have steps : ∀ u, ∀ e ∈ avenue.edges u, e.data.forward = true → e.data.weight = (e.target : ℤ) - (u : ℤ) := by
    decide
  obtain ⟨e, he, rfl, rfl, forward⟩ := arc
  exact steps u e he forward

theorem avenue_fits (allowed : Fin 6 → Bool) : Fits avenueCells avenue allowed := by
  have arc : ∀ {l u v c}, cellArcs avenueCells allowed avenue.arcs l u v c → c + -(v : ℤ) ≤ -(u : ℤ) := by
    intro l u v c arc
    have := avenue_arcs arc.1
    omega
  have added : ∀ k u v c, addedArcs avenueCells avenue allowed k u v c → c + -(v : ℤ) ≤ -(u : ℤ) := by
    rintro k u v c (edge | clique)
    · exact arc edge
    · exact (clique_walk clique).le_height (H := fun v : Fin 6 => -(v : ℤ)) fun _ _ _ => arc
  refine ⟨by decide, sizesFit_of_lt (by decide), fun k s _ => .of_height (fun v => -(v : ℤ)) ?_ (added k) ?_⟩
  · rintro u v c (edge | clique)
    · exact arc edge.1
    · exact added k u v c (.inr clique)
  · intro l hl
    obtain rfl := mem_singleton.1 hl
    simp only [root, invalidEdgeWeight]
    exact ⟨by omega, by omega, fun v => by omega⟩

theorem customize_exact_avenue :
    IsLeast {w | Walk (cellArcs avenueCells (· ≠ 5) avenue.arcs 2) 1 4 w}
        ((customize avenueCells avenue (· ≠ 5) makeMetric).value 2 1 4).weight ∧
      ((customize avenueCells avenue (· ≠ 5) makeMetric).value 2 1 4).weight = 3 := by
  have weight : ((customize avenueCells avenue (· ≠ 5) makeMetric).value 2 1 4).weight = 3 := by decide
  have exact := customize_exact avenueCells avenue (· ≠ 5) (ofEdges_positive _) (avenue_fits _) 2 1 (by decide)
    (by decide) 1 4 (by decide) (by decide) (by decide)
  refine ⟨exact.1 ?_, weight⟩
  by_contra none
  rw [exact.2.2 none] at weight
  cases weight

end Osrm.Customizer
