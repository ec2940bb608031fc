import Osrm.Engine.Mld.Search

/-!
# Unpacking the route of the multi-level query

The labels of the best meeting lead back to their roots (`Packed`). Each clique arc on the
way is replaced by the result of a search of its cell, on the level below and restricted to
the cell: that search meets the assumptions of the query again, so the replacement has the
weight of the arc. The nodes that are returned form a path of exactly the returned weight
(`search_spec`); the edges are those that `FindEdge` gives along it.
-/

namespace Osrm.Mld

open Function List

open Lib Lib.KeyedQueue MultiLevelPartition CellStorage

variable {n : ℕ} {F : Facade n} {args : Args n} {A : Arcs (Fin n)} {dir : Bool}

inductive Packed (F : Facade n) (args : Args n) : Fin n → List (PackedEdge n) → Fin n → ℤ → Prop
  | nil (u : Fin n) : Packed F args u [] u 0
  | edge {u x v : Fin n} {rest : List (PackedEdge n)} {c d : ℤ} : crossArcs F args u x c → Packed F args x rest v d →
      Packed F args u ((u, x, false) :: rest) v (c + d)
  | shortcut {u x v : Fin n} {rest : List (PackedEdge n)} {c d : ℤ} : cliqueArcs F args u x c → Packed F args x rest v d →
      Packed F args u ((u, x, true) :: rest) v (c + d)

section Packed

variable {u v w : Fin n} {l l' : List (PackedEdge n)} {c d : ℤ}

theorem Packed.append (h : Packed F args u l v c) (h' : Packed F args v l' w d) : Packed F args u (l ++ l') w (c + d) := by
  induction h with
  | nil u => simpa using h'
  | edge arc _ ih =>
    rw [add_assoc]
    exact .edge arc (ih h')
  | shortcut arc _ ih =>
    rw [add_assoc]
    exact .shortcut arc (ih h')

/-- The node with which two packed paths that meet in `v` begin. -/
theorem Packed.head_append (h : Packed F args u l v c) (h' : Packed F args v l' w d) :
    ((l ++ l').head?.map (·.1)).getD v = u := by
  cases h with
  | nil => cases h' <;> rfl
  | edge => rfl
  | shortcut => rfl

/-- A packed path between a root and a node as `retrievePackedPath` lists it, beginning at the node. -/
def Leads (F : Facade n) (args : Args n) (dir : Bool) (root : Fin n) (l : List (PackedEdge n)) (node : Fin n) (d : ℤ) : Prop :=
  if dir then Packed F args root l.reverse node d else Packed F args node l root d

/-- A label extends the path of the label that offered it. -/
theorem Leads.offer (leveled : Leveled F args) (exact : F.Exact) {p o : Label (Fin n) (HeapData n)} {root : Fin n}
    (path : Leads F args dir root l p.node d) (offered : o ∈ offers F args dir p) : p.node = o.data.parent ∧
      o.node ≠ o.data.parent ∧ Leads F args dir root ((if dir then (o.data.parent, o.node, o.data.fromCliqueArc)
        else (o.node, o.data.parent, o.data.fromCliqueArc)) :: l) o.node (d + (o.weight - p.weight)) := by
  obtain ⟨-, ne, kind⟩ := (mem_offers leveled exact).1 offered
  have parent : p.node = o.data.parent := by
    rcases kind with ⟨-, data, -⟩ | ⟨data, -⟩
    · rw [data]
    · rw [data]
  refine ⟨parent, parent ▸ ne, ?_⟩
  rw [← parent]
  cases dir with
  | true =>
    have step : Packed F args p.node [(p.node, o.node, o.data.fromCliqueArc)] o.node (o.weight - p.weight + 0) := by
      rcases kind with ⟨-, data, arc⟩ | ⟨data, arc⟩
      · rw [data]
        exact .shortcut arc (.nil _)
      · rw [data]
        exact .edge arc (.nil _)
    rw [add_zero] at step
    change Packed F args root ((p.node, o.node, o.data.fromCliqueArc) :: l).reverse o.node (d + (o.weight - p.weight))
    rw [reverse_cons]
    exact Packed.append path step
  | false =>
    have step : Packed F args o.node ((o.node, p.node, o.data.fromCliqueArc) :: l) root (o.weight - p.weight + d) := by
      rcases kind with ⟨-, data, arc⟩ | ⟨data, arc⟩
      · rw [data]
        exact .shortcut arc path
      · rw [data]
        exact .edge arc path
    rw [add_comm]
    exact step

end Packed

section Retrieve

variable {roots : Bool → List (Label (Fin n) (HeapData n))} {heap : QueryHeap n}

/-- Following the parents of a label leads to a root. -/
theorem retrieve_leads (leveled : Leveled F args) (exact : F.Exact) (rooted : Rooted F args roots)
    (side : Side F args roots dir heap) (fuel : ℕ) : ∀ e ∈ heap.entries, heap.below e.weight < fuel →
      ∃ r ∈ roots dir, Leads F args dir r.node (retrievePackedPath dir heap fuel e.node) e.node (e.weight - r.weight) := by
  induction fuel with
  | zero =>
    intro e he enough
    omega
  | succ fuel ih =>
    intro e he enough
    unfold retrievePackedPath
    rw [find?_of_mem side.unique he]
    simp only
    rcases side.origin e he with root | ⟨p, hp, -, offered⟩
    · have data := rooted.data dir e.toLabel root
      rw [if_pos (by rw [data])]
      refine ⟨e.toLabel, root, ?_⟩
      rw [sub_self]
      cases dir
      · exact Packed.nil e.node
      · exact Packed.nil e.node
    · have lighter := offers_ascending leveled exact _ _ offered
      have fewer := below_lt_below hp lighter
      obtain ⟨r, hr, path⟩ := ih p hp (by omega)
      obtain ⟨parent, ne, longer⟩ := path.offer leveled exact offered
      rw [if_neg ne, ← parent]
      refine ⟨r, hr, ?_⟩
      rw [show e.weight - r.weight = p.weight - r.weight + (e.weight - p.weight) by omega]
      rw [← parent] at longer
      exact longer

/-- **The packed path** of two labels of one node leads from a source to a target with the sum of their weights. -/
theorem packed_path (leveled : Leveled F args) (exact : F.Exact) (rooted : Rooted F args roots) {forward reverse : QueryHeap n}
    (side : Side F args roots true forward) (side' : Side F args roots false reverse) {a b : Entry (Fin n) (HeapData n)}
    (ha : a ∈ forward.entries) (hb : b ∈ reverse.entries) (same : b.node = a.node) :
    ∃ s ∈ roots true, ∃ t ∈ roots false, ∃ d, Packed F args s.node (retrievePackedPathFromHeap forward reverse a.node) t.node d ∧
      s.weight + d + t.weight = a.weight + b.weight ∧
      ((retrievePackedPathFromHeap forward reverse a.node).head?.map (·.1)).getD a.node = s.node := by
  have enough := fun {heap : QueryHeap n} {e} (unique : heap.Unique) (he : e ∈ heap.entries) =>
    (below_lt_card unique he).trans_eq (Fintype.card_fin n)
  obtain ⟨s, hs, first⟩ := retrieve_leads leveled exact rooted side n a ha (enough side.unique ha)
  obtain ⟨t, ht, second⟩ := retrieve_leads leveled exact rooted side' n b hb (enough side'.unique hb)
  rw [same] at second
  exact ⟨s, hs, t, ht, _, Packed.append first second, by omega, Packed.head_append first second⟩

end Retrieve

section Unpack

variable {u v x : Fin n} {c d : ℤ}

/-- The edges that `FindEdge` gives for a path that starts in `u`. -/
def edgesOf (F : Facade n) : Fin n → List (Fin n) → List (Option (EdgeID n))
  | _, [] => []
  | u, x :: rest => findEdge F u x :: edgesOf F x rest

theorem edgesOf_append {l l' : List (Fin n)} (trail : Trail A u l v d) :
    edgesOf F u (l ++ l') = edgesOf F u l ++ edgesOf F v l' := by
  induction trail with
  | nil u => rfl
  | cons _ _ ih => simp [edgesOf, ih]

/-- `r` replaces an arc from `u` to `x` of weight `c`. -/
def Expands (F : Facade n) (args : Args n) (r : UnpackedPath n) (u x : Fin n) (c : ℤ) : Prop :=
  ∃ rest, r.nodes = u :: rest ∧ r.edges = edgesOf F u rest ∧ Trail (flatArcs F args) u rest x c

/-- Unpacking keeps the weight, if the search of a cell does. -/
theorem Packed.unpack {subpath : Fin n → Fin n → Args n → UnpackedPath n}
    (sub : ∀ u x c, cliqueArcs F args u x c → Expands F args
      (subpath u x (.restricted (level F args u - 1) (F.partition.cell (level F args u) u))) u x c)
    {l : List (PackedEdge n)} (packed : Packed F args u l v d) : ∀ nodes edges, ∃ rest,
      l.foldl (unpackEdge F args subpath) (nodes, edges) = (nodes ++ rest, edges ++ edgesOf F u rest) ∧
        Trail (flatArcs F args) u rest v d := by
  induction packed with
  | nil u =>
    intro nodes edges
    exact ⟨[], by simp [edgesOf], .nil u⟩
  | @edge u x v l c d arc _ ih =>
    intro nodes edges
    obtain ⟨rest, eq, trail⟩ := ih (nodes ++ [x]) (edges ++ [findEdge F u x])
    refine ⟨x :: rest, ?_, .cons arc.1 trail⟩
    simpa [unpackEdge, edgesOf] using eq
  | @shortcut u x v l c d arc _ ih =>
    intro nodes edges
    obtain ⟨first, found, looked, inside⟩ := sub u x c arc
    obtain ⟨rest, eq, trail⟩ := ih (nodes ++ first) (edges ++ edgesOf F u first)
    refine ⟨first ++ rest, ?_, inside.append trail⟩
    rw [edgesOf_append inside]
    simpa [unpackEdge, found, looked] using eq

end Unpack

/-- What `search` needs of its endpoints. -/
structure Endpoints (F : Facade n) (args : Args n) (sources targets : List (Fin n × ℤ)) : Prop where
  distinct : (sources.map (·.1)).Nodup
  distinct' : (targets.map (·.1)).Nodup
  permitted : ∀ s ∈ sources, permitted F args s.1 = true
  permitted' : ∀ t ∈ targets, Mld.permitted F args t.1 = true
  keys : SumsFit F args sources targets
  nonneg : ∀ k ∈ Totals (flatArcs F args) sources targets, 0 ≤ k
  boundary : ∀ s ∈ sources, 1 ≤ level F args s.1 → isBoundaryNode F.partition F.graph (level F args s.1) s.1 = true
  boundary' : ∀ t ∈ targets, 1 ≤ level F args t.1 → isBoundaryNode F.partition F.graph (level F args t.1) t.1 = true

/-- The result is a lightest connection, and its nodes are a path of that weight. -/
structure Route (F : Facade n) (args : Args n) (sources targets : List (Fin n × ℤ)) (r : UnpackedPath n) : Prop where
  least : IsMinWeight (Totals (flatArcs F args) sources targets) r.weight
  path : r.weight ≠ invalidEdgeWeight → ∃ s ∈ sources, ∃ t ∈ targets, ∃ rest d, r.nodes = s.1 :: rest ∧
    r.edges = edgesOf F s.1 rest ∧ Trail (flatArcs F args) s.1 rest t.1 d ∧ s.2 + d + t.2 = r.weight
  none : r.weight = invalidEdgeWeight → r = noPath

/-- Where every connection is too heavy, `search` finds none. -/
theorem route_noPath {sources targets : List (Fin n × ℤ)}
    (heavy : ∀ k ∈ Totals (flatArcs F args) sources targets, invalidEdgeWeight ≤ k) : Route F args sources targets noPath := by
  refine ⟨⟨.inl rfl, ?_⟩, fun valid => absurd rfl valid, fun _ => rfl⟩
  intro k hk
  cases hk with
  | inl same => exact same.ge
  | inr total => exact heavy k total

section Search

variable {sources targets : List (Fin n × ℤ)} {l : ℕ} {c : ℤ} {u v x : Fin n}

theorem connects_totals {k : ℤ} :
    Connects A (rootLabels sources) (rootLabels targets) k ↔ k ∈ Totals A sources targets := by
  simp [Connects, Totals, rootLabels]

section

variable (ends : Endpoints F args sources targets)

include ends

theorem Endpoints.rooted : Rooted F args (rootsOf sources targets) where
  data dir l hl := by
    cases dir <;>
    · obtain ⟨r, -, rfl⟩ := mem_map.1 hl
      rfl
  permitted dir l hl := by
    cases dir with
    | true =>
      obtain ⟨r, hr, rfl⟩ := mem_map.1 hl
      exact ends.permitted r hr
    | false =>
      obtain ⟨r, hr, rfl⟩ := mem_map.1 hl
      exact ends.permitted' r hr
  keys := ends.keys
  nonneg k connects := ends.nonneg k (connects_totals.1 connects)

theorem Endpoints.doors (leveled : Leveled F args) :
    ∀ s ∈ rootLabels sources, ∀ t ∈ rootLabels targets, Doors (flatArcs F args) (SameRegion F args) (IsEntry F args)
      (IsExit F args) s.node t.node := by
  intro s hs t ht
  obtain ⟨s', hs', rfl⟩ := mem_map.1 hs
  obtain ⟨t', ht', rfl⟩ := mem_map.1 ht
  exact leveled.doors (ends.boundary s' hs') (ends.boundary' t' ht')

/-- The state in which the loop of `search` starts. -/
theorem Endpoints.start :
    Query F args (rootsOf sources targets) invalidEdgeWeight true (rootHeap sources) (rootHeap targets)
      ⟨none, invalidEdgeWeight⟩ := by
  have nodes : ∀ roots : List (Fin n × ℤ), (rootLabels roots).map (·.node) = roots.map (·.1) := by
    intro roots
    simp [rootLabels]
  have waiting : ∀ {roots : List (Fin n × ℤ)}, ∀ e ∈ (rootHeap roots).entries, e.queued ≠ false := by
    intro roots e he
    rw [(Settling.mem_start.1 he).2]
    decide
  refine ⟨?_, ?_, ?_, ?_, .inl rfl⟩
  · exact Settling.start _ _ ((nodes sources).symm ▸ ends.distinct)
  · exact Settling.start _ _ ((nodes targets).symm ▸ ends.distinct')
  · intro b hb settled
    exact absurd settled (waiting b hb)
  · intro b hb settled
    exact absurd settled (waiting b hb)

end

/-- `search` is right where the searches of the cells are. -/
theorem search_route (leveled : Leveled F args) (exact : F.Exact) (ends : Endpoints F args sources targets) (depth : ℕ)
    (sub : ∀ u x c, cliqueArcs F args u x c → Expands F args (search F depth (rootHeap [(u, 0)]) (rootHeap [(x, 0)]) [] []
      invalidEdgeWeight (.restricted (level F args u - 1) (F.partition.cell (level F args u) u))) u x c) :
    Route F args sources targets
      (search F (depth + 1) (rootHeap sources) (rootHeap targets) [] [] invalidEdgeWeight args) := by
  unfold search
  split
  · -- without sources or without targets there is no connection
    rename_i empty
    apply route_noPath
    rintro k ⟨s, hs, t, ht, -⟩
    simp only [Bool.or_eq_true, rootHeap, Settling.start_isEmpty, rootLabels, map_eq_nil_iff] at empty
    rcases empty with rfl | rfl
    · cases hs
    · cases ht
  · have rooted := ends.rooted
    have enough : ∀ heap : QueryHeap n, heap.remaining ≤ n := fun heap => (Nat.sub_le _ _).trans (Fintype.card_fin n).le
    have minima : Minima ⟨rootHeap sources, rootHeap targets, ⟨none, invalidEdgeWeight⟩,
        (rootHeap sources).minKey?.getD 0, (rootHeap targets).minKey?.getD 0⟩ :=
      ⟨minKey_minimum (Side.within leveled exact rooted ends.start.mine) (by decide),
        minKey_minimum (Side.within leveled exact rooted ends.start.their) (by decide)⟩
    obtain ⟨query, stopped⟩ := searchLoop_query leveled exact rooted (2 * n) _ ends.start minima (by
      have := enough (rootHeap sources)
      have := enough (rootHeap targets)
      simp only
      omega) _ rfl
    generalize searchLoop F [] [] args (2 * n) _ = st at query stopped ⊢
    have least := Query.complete leveled exact rooted query stopped (ends.doors leveled)
    rcases query.found with start | ⟨light, m, x, y, middle, ⟨a, ha, node, low⟩, ⟨b, hb, node', low'⟩, sum⟩
    · have middle : st.best.middle = none := by rw [start]
      have upper : st.best.upperBound = invalidEdgeWeight := by rw [start]
      simp only [middle]
      apply route_noPath
      intro k total
      rw [← upper]
      exact least k (connects_totals.2 total)
    · -- the labels of the middle node cannot have improved since they met
      have same : b.node = a.node := node'.trans node.symm
      have bound := least _ (Query.connects leveled exact query ha hb same)
      obtain ⟨s', hs', t', ht', d, packed, total, head⟩ := packed_path leveled exact rooted query.mine query.their ha hb same
      obtain ⟨s, hs, rfl⟩ := mem_map.1 hs'
      obtain ⟨t, ht, rfl⟩ := mem_map.1 ht'
      obtain ⟨rest, eq, trail⟩ := packed.unpack sub [s.1] []
      have middle' : st.best.middle = some a.node := by rw [middle, node]
      simp only at head total
      simp only [middle', if_neg (not_le.2 light), head, eq]
      have weight : s.2 + d + t.2 = st.best.upperBound := by omega
      refine ⟨⟨.inr ⟨s, hs, t, ht, d, trail.walk, weight⟩, ?_⟩, fun _ => ⟨s, hs, t, ht, rest, d, rfl, rfl, trail, weight⟩,
        fun invalid => absurd invalid light.ne⟩
      intro k hk
      cases hk with
      | inl invalid => exact light.le.trans invalid.ge
      | inr total => exact least k (connects_totals.2 total)

/-- The nodes that the search of the cell of `u` may use. -/
theorem permitted_restricted (one : 1 ≤ l) :
    permitted F (.restricted (l - 1) (F.partition.cell l u)) v = true ↔ F.allowed v = true ∧ F.partition.SameCell l u v := by
  rw [sameCell_pos one]
  simp only [permitted, checkParentCellRestriction, Bool.and_eq_true, decide_eq_true_eq]
  change _ ∧ F.partition.cell (l - 1 + 1) v = _ ↔ _
  rw [Nat.sub_add_cancel one, eq_comm (a := F.partition.cell l v)]

/-- The search of the cell of `u` follows the walks inside the cell. -/
theorem walk_restricted (one : 1 ≤ l) {d : ℤ} :
    Walk (flatArcs F (.restricted (l - 1) (F.partition.cell l u))) u v d ↔
      Walk (cellArcs F.partition F.allowed F.arcs l) u v d := by
  constructor
  · intro walk
    apply walk.mono
    rintro x y c ⟨arc, px, py⟩
    rw [permitted_restricted one] at px py
    exact ⟨arc, px.1, py.1, px.2.symm.trans py.2⟩
  · intro walk
    have inside := walk.within (P := F.partition.SameCell l u) (fun x y c arc here => here.trans arc.2.2.2) (.refl l u)
    apply inside.2.mono
    rintro x y c ⟨here, arc, ax, ay, same⟩
    exact ⟨arc, (permitted_restricted one).2 ⟨ax, here⟩, (permitted_restricted one).2 ⟨ay, here.trans same⟩⟩

/-- The endpoints of a clique arc are endpoints for the search of its cell. -/
theorem clique_endpoints (leveled : Leveled F args) (exact : F.Exact) (arc : cliqueArcs F args u x c)
    (one : 1 ≤ level F args u) (same : SameRegion F args u x) :
    Endpoints F (.restricted (level F args u - 1) (F.partition.cell (level F args u) u)) [(u, 0)] [(x, 0)] := by
  obtain ⟨_, _, first, -⟩ := (clique_walk arc).leaves arc.2.2.1
  obtain ⟨_, _, last, -⟩ := (clique_walk arc).arrives arc.2.2.1
  have allowed : ∀ {v}, permitted F args v = true → F.allowed v = true := fun h => (Bool.and_eq_true_iff.1 h).1
  have lt := leveled.lt u
  have exit : IsDestination F.partition F.graph (level F args u) x := leveled.stable u x same ▸ arc.2.1
  constructor
  · simp
  · simp
  · intro s hs
    obtain rfl := mem_singleton.1 hs
    exact (permitted_restricted one).2 ⟨allowed first.1.2.1, .refl _ _⟩
  · intro t ht
    obtain rfl := mem_singleton.1 ht
    exact (permitted_restricted one).2 ⟨allowed last.1.2.2, same⟩
  · have keys := exact.cells (level F args u - 1) u x
    rw [Nat.sub_add_cancel one] at keys
    exact keys lt same
  · intro k total
    obtain ⟨d, walk, rfl⟩ := mem_totals_singleton.1 total
    have := walk.nonneg (flatArcs_positive exact)
    omega
  · intro s hs above
    obtain rfl := mem_singleton.1 hs
    exact isBoundaryNode_down above (Nat.sub_le _ _) lt (mem_sourceNodes.1 arc.1).2.1
  · intro t ht above
    obtain rfl := mem_singleton.1 ht
    exact isBoundaryNode_down above (Nat.sub_le _ _) lt (mem_destinationNodes.1 exit).2.1

/-- The search of a cell replaces its clique arc. -/
theorem clique_expands (leveled : Leveled F args) (exact : F.Exact) (arc : cliqueArcs F args u x c)
    {r : UnpackedPath n} (route : SameRegion F args u x → 1 ≤ level F args u →
      Route F (.restricted (level F args u - 1) (F.partition.cell (level F args u) u)) [(u, 0)] [(x, 0)] r) :
    Expands F args r u x c := by
  obtain ⟨_, _, first, -⟩ := (clique_walk arc).leaves arc.2.2.1
  have start := first.1.2.1
  obtain ⟨one, table⟩ := (leveled.clique_iff exact start).1 arc
  have same : SameRegion F args u x := table.2.2.1
  obtain ⟨least, path, -⟩ := route same one
  -- the search returns the weight that the metric stores
  have light : c < invalidEdgeWeight := by
    rcases exact.exact _ one (leveled.lt u) u x table.1 table.2.1 table.2.2.1 table.2.2.2.1 with ⟨light, -⟩ | ⟨invalid, -⟩
    · rwa [table.2.2.2.2.1] at light
    · exact absurd (table.2.2.2.2.1.symm.trans invalid) table.2.2.2.2.2
  have shortest : IsLeast {w | Walk (cellArcs F.partition F.allowed F.arcs (level F args u)) u x w} c := by
    have walks := arc.2.2.2
    refine ⟨(leveled.inner_walk start).1 walks.1, fun w walk => walks.2 ((leveled.inner_walk start).2 walk)⟩
  have weight : r.weight = c := by
    refine least.unique ⟨.inr (mem_totals_singleton.2 ⟨c, (walk_restricted one).2 shortest.1, by omega⟩), ?_⟩
    intro k hk
    cases hk with
    | inl invalid => exact light.le.trans invalid.ge
    | inr total =>
      obtain ⟨d, walk, rfl⟩ := mem_totals_singleton.1 total
      have := shortest.2 ((walk_restricted one).1 walk)
      omega
  obtain ⟨s, hs, t, ht, rest, d, nodes, edges, trail, total⟩ := path (by omega)
  obtain rfl := mem_singleton.1 hs
  obtain rfl := mem_singleton.1 ht
  obtain rfl : d = c := by omega
  refine ⟨rest, nodes, edges, trail.mono ?_⟩
  rintro y z c' ⟨arc', py, pz⟩
  rw [permitted_restricted one] at py pz
  exact ⟨arc', leveled.closed u y py.2 py.1 start, leveled.closed u z pz.2 pz.1 start⟩

/-- **The query is exact**: `search` returns the weight of a lightest connection and the nodes of a path of that weight. -/
theorem search_spec (exact : F.Exact) (depth : ℕ) : ∀ {args : Args n} {sources targets : List (Fin n × ℤ)}, Leveled F args →
    (∀ u, level F args u ≤ depth) → Endpoints F args sources targets → Route F args sources targets
      (search F (depth + 1) (rootHeap sources) (rootHeap targets) [] [] invalidEdgeWeight args) := by
  induction depth with
  | zero =>
    intro args sources targets leveled low ends
    apply search_route leveled exact ends
    intro u x c arc
    apply clique_expands leveled exact arc
    intro same one
    have := low u
    omega
  | succ depth ih =>
    intro args sources targets leveled low ends
    apply search_route leveled exact ends
    intro u x c arc
    apply clique_expands leveled exact arc
    intro same one
    have lt := leveled.lt u
    apply ih (leveled_restricted (by omega)) _ (clique_endpoints leveled exact arc one same)
    intro v
    have := low u
    change level F args u - 1 ≤ depth
    omega

end Search

end Osrm.Mld
