import Osrm.Engine.Ch.Unpack
import Osrm.Engine.PhantomNode

/-!
# The route of a query on a contracted graph

The labels of the middle node lead back to their roots over edges of the contracted graph, so
the packed path that `search` returns weighs what `search` returns (`search_packed`). Each of
its edges is unpacked to edges of the input graph that weigh no more, hence the unpacked route
is a lightest one (`directShortestPathSearch_lightest`).
-/

namespace Osrm.Ch

open List

open Lib Lib.KeyedQueue ContractorState

variable {n : ℕ}

/-- The edges of the query graph, listed at either end. -/
def joinArcs (q : QueryGraph n) : Arcs (Fin n) := fun x y c => c ∈ Joins q (x, y)

/-- A path between a root and a node as `retrievePackedPath` lists it, from the node's parent to the root. -/
def Leads (q : QueryGraph n) (dir : Bool) (root : Fin n) (l : List (Fin n)) (node : Fin n) (d : ℤ) : Prop :=
  if dir then ∃ rest, l.reverse ++ [node] = root :: rest ∧ Trail (joinArcs q) root rest node d
  else Trail (joinArcs q) node l root d

section Retrieve

variable {A : Arcs (Fin n)} {q : QueryGraph n} {dir : Bool} {roots : List (Label (Fin n) (HeapData n))} {offset W : ℤ}
  {heap h : QueryHeap n}

theorem Leads.root (node : Fin n) : Leads q dir node [] node 0 := by
  cases dir with
  | true => exact ⟨[], rfl, .nil node⟩
  | false => exact .nil node

/-- A label extends the path of its parent. -/
theorem Leads.listed {root x y : Fin n} {l : List (Fin n)} {c d : ℤ} (path : Leads q dir root l x d)
    (listed : q.Listed dir x y c) : Leads q dir root (x :: l) y (d + c) := by
  cases dir with
  | true =>
    obtain ⟨rest, order, trail⟩ := path
    have step : Trail (joinArcs q) x [y] y (c + 0) := .cons (.inl listed) (.nil y)
    refine ⟨rest ++ [y], ?_, ?_⟩
    · rw [reverse_cons, order, cons_append]
    · rw [← add_zero c]
      exact trail.append step
  | false =>
    rw [add_comm]
    exact .cons (.inr listed) path

/-- Following the parents of a label leads to a root. -/
theorem retrieve_leads (climbs : Climbs A q) (side : Side A q dir roots offset W heap h)
    (own : ∀ r ∈ roots, r.data = ⟨r.node⟩) (fuel : ℕ) : ∀ e ∈ h.entries, h.below e.weight < fuel →
      ∃ r ∈ roots, Leads q dir r.node (retrievePackedPath heap fuel e.node) e.node (e.weight - r.weight) := by
  induction fuel with
  | zero =>
    intro e he enough
    omega
  | succ fuel ih =>
    intro e he enough
    obtain ⟨e', found, same⟩ := side.finds he
    have data : e'.data = e.data := by rw [same]
    unfold retrievePackedPath
    rw [found]
    simp only [data]
    rcases side.settling.origin e he with root | ⟨p, hp, -, offered⟩
    · have parent := own _ root
      rw [if_neg (by simp [parent])]
      refine ⟨e.toLabel, root, ?_⟩
      rw [sub_self]
      exact Leads.root e.node
    · obtain ⟨c, listed, weight, parent⟩ := mem_offers.1 offered
      have heavier := offers_ascending climbs _ _ offered
      -- a label is not its own parent, since it would be heavier than itself
      have other : p.node ≠ e.node := by
        intro loop
        rw [side.settling.unique.eq hp he loop] at heavier
        exact lt_irrefl _ heavier
      obtain ⟨p', known, -⟩ := side.finds hp
      have inserted : (decide (e.data.parent ≠ e.node) && heap.wasInserted e.data.parent) = true := by
        rw [parent]
        simp [other, wasInserted, known]
      have fewer := below_lt_below hp heavier
      obtain ⟨r, hr, path⟩ := ih p hp (by omega)
      rw [if_pos inserted, parent]
      refine ⟨r, hr, ?_⟩
      rw [show e.weight - r.weight = p.weight - r.weight + c by omega]
      exact path.listed listed

end Retrieve

section Packed

variable {A : Arcs (Fin n)} {q : QueryGraph n} {sources targets : List (Fin n × ℤ)}

theorem rootLabels_own {roots : List (Fin n × ℤ)} : ∀ r ∈ rootLabels roots, r.data = ⟨r.node⟩ := by
  intro r hr
  obtain ⟨x, -, rfl⟩ := mem_map.1 hr
  rfl

/-- **The packed path**: `search` returns a path over edges of the query graph that has the weight it returns. -/
theorem search_packed (climbs : Climbs A q) (distinct : (sources.map (·.1)).Nodup) (distinct' : (targets.map (·.1)).Nodup)
    (targets_nonneg : ∀ t ∈ targets, 0 ≤ t.2) (nonneg : ∀ k ∈ Totals A sources targets, 0 ≤ k)
    (fits : ∀ s ∈ sources, ∀ t ∈ targets, ∀ d, Walk A s.1 t.1 d → ∃ d' ≤ d, Walk A s.1 t.1 d' ∧ d' < invalidEdgeWeight)
    (keys : KeysFit q (rootsOf sources targets))
    {r : ℤ × List (Fin n)} (result : r = search q (rootHeap sources) (rootHeap targets) [] [] invalidEdgeWeight)
    (valid : r.1 ≠ invalidEdgeWeight) :
    ∃ s ∈ sources, ∃ t ∈ targets, ∃ rest d, r.2 = s.1 :: rest ∧ Trail (joinArcs q) s.1 rest t.1 d ∧ s.2 + d + t.2 = r.1 := by
  subst result
  unfold search at valid ⊢
  split
  · rename_i empty
    rw [if_pos empty] at valid
    exact absurd rfl valid
  · rename_i busy
    rw [if_neg busy] at valid
    obtain ⟨low, offset, h, o, query⟩ := searchLoop_ends climbs distinct distinct' targets_nonneg nonneg fits keys rfl
    simp only at valid ⊢
    generalize searchLoop q _ [] [] (2 * n) _ = st at low query valid ⊢
    cases found : st.best.middle with
    | none =>
      rw [found] at valid
      exact absurd rfl valid
    | some m =>
      have light : ¬ invalidEdgeWeight ≤ st.best.upperBound := by
        intro heavy
        simp only [found, if_pos heavy] at valid
        exact absurd rfl valid
      obtain ⟨w, w', ⟨a, ha, rfl, lowA⟩, ⟨b, hb, same, lowB⟩, sum⟩ := query.middle m found
      -- the labels of the middle node cannot have improved since they met
      have bound := low _ (connects_totals.1 (query.connects climbs ha hb same))
      have small := keys.key _ _ _ (query.mine.climbed climbs ha)
      have small' := keys.key _ _ _ (query.their.climbed climbs hb)
      have sums : keySum st a.node = a.weight + b.weight := by
        obtain ⟨a', found, label⟩ := query.mine.finds ha
        obtain ⟨b', found', label'⟩ := query.their.finds hb
        rw [same] at found'
        rw [keySum, found, found']
        show add32 a'.weight b'.weight = _
        rw [label, label']
        exact add32_eq (by omega) (by unfold invalidEdgeWeight; omega)
      have exact : st.best.upperBound = keySum st a.node := by omega
      have enough := fun {heap : QueryHeap n} {e} (unique : heap.Unique) (he : e ∈ heap.entries) =>
        (below_lt_card unique he).trans_eq (Fintype.card_fin n)
      obtain ⟨s', hs', rest, order, first⟩ :=
        retrieve_leads climbs query.mine rootLabels_own n a ha (enough query.mine.settling.unique ha)
      obtain ⟨t', ht', second⟩ :=
        retrieve_leads climbs query.their rootLabels_own n b hb (enough query.their.settling.unique hb)
      obtain ⟨s, hs, rfl⟩ := mem_map.1 hs'
      obtain ⟨t, ht, rfl⟩ := mem_map.1 ht'
      simp only [if_neg light, if_neg (not_not.2 exact)]
      have first : Trail (joinArcs q) s.1 rest a.node (a.weight - s.2) := first
      have second : Trail (joinArcs q) b.node (retrievePackedPath st.reverse n b.node) t.1 (b.weight - t.2) := second
      rw [same] at second
      refine ⟨s, hs, t, ht, _, _, ?_, first.append second, ?_⟩
      · rw [retrievePackedPathFromHeap, order]
        rfl
      · omega

end Packed

section Route

variable (g₀ : ContractorGraph n)

/-- `directShortestPathSearch` on a contracted graph: the weight, the nodes and the edges. The second argument bounds
the iterations of `unpackPath`. -/
def directShortestPathSearch (q : QueryGraph n) (fuel : ℕ) (sources targets : List (Fin n × ℤ)) :
    Option (ℤ × List (Fin n) × List (DynamicEdge n QueryEdgeData)) :=
  let r := search q (rootHeap sources) (rootHeap targets) [] [] invalidEdgeWeight
  match r.2 with
  | [] => some (r.1, [], [])
  | first :: rest => (unpackPath q fuel (first :: rest)).map fun calls => (r.1, first :: calls.map (·.1.2), calls.map (·.2))

/-- The edge of a call is an edge of the input graph, as one of its ends lists it. -/
def OfInput (call : Call n) : Prop :=
  ∃ dir, ∃ e₀ ∈ g₀.edges (orient dir call.1.1 call.1.2).1, e₀.target = (orient dir call.1.1 call.1.2).2 ∧
    e₀.data.flag dir = true ∧ call.2 = ⟨e₀.target, toQueryEdgeData e₀.data⟩

/-- The routes between the roots over edges of the input graph, with their weights. -/
def Routes (sources targets : List (Fin n × ℤ))
    (route : List (Fin n) × List (DynamicEdge n QueryEdgeData)) (k : ℤ) : Prop :=
  ∃ s ∈ sources, ∃ t ∈ targets, ∃ calls : List (Call n), route = (s.1 :: calls.map (·.1.2), calls.map (·.2)) ∧
    Contiguous s.1 (calls.map (·.1)) t.1 ∧ (∀ call ∈ calls, OfInput g₀ call) ∧
    k = s.2 + (calls.map (·.2.data.weight)).sum + t.2

/-- A query on the completely contracted graph of `g₀`, with its nodes numbered as in `g₀`. -/
structure ContractedQuery (q : QueryGraph n) (sources targets : List (Fin n × ℤ)) : Prop where
  mirrored : Mirrored g₀
  plain : ∀ u, ∀ e ∈ g₀.edges u, e.data.shortcut = false ∧ e.data.weight < invalidEdgeWeight
  contracted : ∃ s, Searched g₀ (fun _ => true) s ∧ (∀ u, s.isCore u = false) ∧ s.newToOld = Equiv.refl _ ∧ q.Of s.graph
  distinct : (sources.map (·.1)).Nodup
  distinct' : (targets.map (·.1)).Nodup
  targets_nonneg : ∀ t ∈ targets, 0 ≤ t.2
  nonneg : ∀ k ∈ Totals g₀.Forward sources targets, 0 ≤ k
  fits : ∀ s ∈ sources, ∀ t ∈ targets, ∀ d, Walk g₀.Forward s.1 t.1 d →
    ∃ d' ≤ d, Walk g₀.Forward s.1 t.1 d' ∧ d' < invalidEdgeWeight ∧ s.2 + d' + t.2 < invalidEdgeWeight
  keys : KeysFit q (rootsOf sources targets)

variable {g₀ : ContractorGraph n} {q : QueryGraph n} {sources targets : List (Fin n × ℤ)}
  {rest : List (Fin n)} {d : ℤ} {y x : Fin n}

theorem OfInput.forward (mirrored : Mirrored g₀) {call : Call n} (input : OfInput g₀ call) :
    g₀.Forward call.1.1 call.1.2 call.2.data.weight := by
  obtain ⟨dir, e₀, he₀, target, flag, same⟩ := input
  rw [same]
  cases dir with
  | true => exact ⟨e₀, he₀, target, rfl, flag⟩
  | false =>
    have listed := mirrored.mirrored false _ e₀ he₀ flag
    rw [target] at listed
    exact listed

/-- Calls that follow each other are a walk. -/
theorem Contiguous.walk (mirrored : Mirrored g₀) (calls : List (Call n)) : ∀ x, Contiguous x (calls.map (·.1)) y →
    (∀ call ∈ calls, OfInput g₀ call) → Walk g₀.Forward x y (calls.map (·.2.data.weight)).sum := by
  induction calls with
  | nil =>
    intro x ends _
    obtain rfl : x = y := ends
    exact .nil x
  | cons call calls ih =>
    intro x contiguous input
    obtain ⟨start, later⟩ := contiguous
    rw [← start]
    exact .cons ((input call mem_cons_self).forward mirrored) (ih _ later fun c hc => input c (mem_cons_of_mem _ hc))

theorem Routes.total (mirrored : Mirrored g₀) {route : List (Fin n) × List (DynamicEdge n QueryEdgeData)} {k : ℤ}
    (routes : Routes g₀ sources targets route k) : k ∈ Totals g₀.Forward sources targets := by
  obtain ⟨s, hs, t, ht, calls, -, contiguous, input, rfl⟩ := routes
  exact ⟨s, hs, t, ht, _, contiguous.walk mirrored calls _ input, rfl⟩

/-- The lightest edges of a packed path weigh no more than the path. -/
theorem leasts_le (trail : Trail (joinArcs q) x rest y d) :
    ∀ leasts, Forall₂ (fun pair c => IsLeast (Joins q pair) c) ((x :: rest).zip rest) leasts → leasts.sum ≤ d := by
  induction trail with
  | nil u =>
    intro leasts areLeast
    cases areLeast
    exact le_rfl
  | @cons u v w rest c d joins _ ih =>
    intro leasts areLeast
    cases areLeast with
    | cons least later =>
      exact add_le_add (least.2 joins) (ih _ later)

theorem trail_joins (trail : Trail (joinArcs q) x rest y d) :
    (∀ pair ∈ (x :: rest).zip rest, (Joins q pair).Nonempty) ∧ (x :: rest).getLast (cons_ne_nil x rest) = y := by
  induction trail with
  | nil u => exact ⟨by simp, rfl⟩
  | @cons u v w rest c d joins _ ih =>
    refine ⟨?_, ?_⟩
    · exact forall_mem_cons.2 ⟨⟨c, joins⟩, ih.1⟩
    · exact ih.2

/-- **The route of a query** is a lightest one between its roots. -/
theorem directShortestPathSearch_lightest (query : ContractedQuery g₀ q sources targets)
    (connected : (Totals g₀.Forward sources targets).Nonempty) :
    ∃ fuel weight route, (∀ extra, directShortestPathSearch q (extra + fuel) sources targets = some (weight, route)) ∧
      Routes g₀ sources targets route weight ∧ IsLeast (Totals g₀.Forward sources targets) weight := by
  obtain ⟨state, searched, done, numbered, ofGraph⟩ := query.contracted
  obtain ⟨inv, rank, now, layered⟩ := searched.layered query.mirrored (fun _ _ _ => ⟨rfl, rfl⟩) query.plain
  have same : state.original g₀ = g₀.Forward := by
    unfold original
    rw [numbered]
    rfl
  have climbs : Climbs g₀.Forward q := same ▸ inv.climbs done ofGraph
  have fits : ∀ s ∈ sources, ∀ t ∈ targets, ∀ d, Walk g₀.Forward s.1 t.1 d →
      ∃ d' ≤ d, Walk g₀.Forward s.1 t.1 d' ∧ d' < invalidEdgeWeight := by
    intro s hs t ht d walk
    obtain ⟨d', le, walk', light, -⟩ := query.fits s hs t ht d walk
    exact ⟨d', le, walk', light⟩
  have exact := search_exact climbs query.distinct query.distinct' query.targets_nonneg query.nonneg fits query.keys
  obtain ⟨lightest, invalid⟩ := exact.of_fits (by
    rintro k ⟨s, hs, t, ht, d, walk, rfl⟩
    obtain ⟨d', -, walk', -, light⟩ := query.fits s hs t ht d walk
    exact ⟨_, ⟨s, hs, t, ht, d', walk', rfl⟩, light⟩)
  have least := lightest connected
  have valid := fun none => invalid.1 none connected
  obtain ⟨s, hs, t, ht, rest, d, packed, trail, weight⟩ := search_packed climbs query.distinct query.distinct'
    query.targets_nonneg query.nonneg fits query.keys rfl valid
  obtain ⟨joined, last⟩ := trail_joins trail
  obtain ⟨fuel, calls, leasts, areLeast, unpacks, run⟩ := unpack_pairs inv layered ofGraph rest s.1 joined
  rw [last] at unpacks
  -- the calls are edges of the input graph
  have input : ∀ call ∈ calls, OfInput g₀ call := by
    intro call mem
    obtain ⟨dir, e₀, he₀, target, flag, isEdge⟩ := smallerEdge_graph ofGraph (unpacks.found call mem)
    have isPlain : e₀.data.shortcut = false := by
      have := (unpacks.original call mem).1
      rwa [isEdge] at this
    have kept := layered.kept _ e₀ he₀ isPlain
    rw [numbered] at kept
    exact ⟨dir, e₀, kept, target, flag, isEdge⟩
  have route : Routes g₀ sources targets (s.1 :: calls.map (·.1.2), calls.map (·.2)) (s.2 + leasts.sum + t.2) :=
    ⟨s, hs, t, ht, calls, rfl, unpacks.contiguous, input, by rw [unpacks.weight]⟩
  have low := least.2 (route.total query.mirrored)
  have high := leasts_le trail leasts areLeast
  have total : s.2 + leasts.sum + t.2 = (search q (rootHeap sources) (rootHeap targets) [] [] invalidEdgeWeight).1 := by
    omega
  rw [total] at route
  refine ⟨fuel, _, _, fun extra => ?_, route, least⟩
  unfold directShortestPathSearch
  simp only [packed]
  rw [run extra]
  rfl

end Route

end Osrm.Ch
