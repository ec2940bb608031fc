import Osrm.Engine.Mld.Unpack
import Osrm.Customizer.CellDistances
import Mathlib.Tactic.FinCases
import Mathlib.Data.Fin.VecNotation

/-!
# The route of a query

A query over the candidates of a route is `search` with the candidates' segments in the
heaps. Its weight is that of a lightest connection in the flat graph and its nodes are a
path of that weight. The edges are looked up with `FindEdge`, which takes the first edge
listed between two nodes, whatever its direction and weight. They form that path where the
first edge listed is a lightest forward edge (`mldSearch_flat`).
-/

namespace Osrm.Mld

open List Customizer

open Lib Lib.KeyedQueue MultiLevelPartition CellStorage

variable {n : ℕ} {F : Facade n}

section Edges

/-- The edge at a position of the edge array. -/
def Facade.edgeAt (F : Facade n) (id : EdgeID n) : Option (DynamicEdge n EdgeBasedGraphEdgeData) :=
  (F.graph.edges id.node)[id.index]?

/-- The arcs between the nodes that are not excluded: the flat graph. -/
def Facade.allowedArcs (F : Facade n) : Arcs (Fin n) := fun u v c => F.arcs u v c ∧ F.allowed u = true ∧ F.allowed v = true

/-- `edges` leads along the nodes of a path over the flat graph, with weight `d`. -/
inductive EdgePath (F : Facade n) : Fin n → List (Fin n) → List (Option (EdgeID n)) → Fin n → ℤ → Prop
  | nil (u : Fin n) : EdgePath F u [] [] u 0
  | cons {u x v : Fin n} {rest : List (Fin n)} {id : EdgeID n} {edges : List (Option (EdgeID n))} {d : ℤ}
      {e : DynamicEdge n EdgeBasedGraphEdgeData} : id.node = u → F.edgeAt id = some e → e.target = x →
      e.data.forward = true → F.allowed u = true → F.allowed x = true → EdgePath F x rest edges v d →
      EdgePath F u (x :: rest) (some id :: edges) v (F.nodeWeight u + F.weightPenalty e.data.turnId + d)

/-- The first edge listed at `x` that leads to `y` is a forward edge, and no forward edge from `x` to `y` is lighter. -/
def LightestFirst (F : Facade n) (x y : Fin n) : Prop :=
  ∃ e, (F.graph.edges x).find? (·.target = y) = some e ∧ e.data.forward = true ∧
    ∀ c, F.arcs x y c → F.nodeWeight x + F.weightPenalty e.data.turnId ≤ c

/-- Along a path, the first edge between consecutive nodes is a lightest forward edge. -/
def LightestAlong (F : Facade n) : List (Fin n) → Prop
  | x :: y :: rest => LightestFirst F x y ∧ LightestAlong F (y :: rest)
  | _ => True

variable {u v x : Fin n} {rest : List (Fin n)} {d : ℤ} {edges : List (Option (EdgeID n))}

/-- `FindEdge` gives the first edge between two nodes. -/
theorem edgeAt_findEdge {id : EdgeID n} (found : findEdge F u x = some id) :
    id.node = u ∧ F.edgeAt id = (F.graph.edges u).find? (·.target = x) := by
  obtain ⟨i, index, rfl⟩ := Option.map_eq_some_iff.1 found
  refine ⟨rfl, ?_⟩
  rw [find?_eq_bind_findIdx?_getElem?, index]
  rfl

theorem exists_findEdge {e : DynamicEdge n EdgeBasedGraphEdgeData} (first : (F.graph.edges u).find? (·.target = x) = some e) :
    ∃ id, findEdge F u x = some id := by
  rw [find?_eq_bind_findIdx?_getElem?] at first
  obtain ⟨i, index, -⟩ := Option.bind_eq_some_iff.1 first
  exact ⟨⟨u, i⟩, by rw [findEdge, index]; rfl⟩

theorem EdgePath.walk (path : EdgePath F u rest edges v d) : Walk F.allowedArcs u v d := by
  induction path with
  | nil u => exact .nil u
  | cons node at_ target forward au ax _ ih =>
    subst node
    exact .cons ⟨⟨_, mem_of_getElem? at_, target, forward, rfl⟩, au, ax⟩ ih

/-- Where the first edges are lightest forward edges, they are no heavier than the path. -/
theorem edgePath_of_trail (trail : Trail F.allowedArcs u rest v d) (lightest : LightestAlong F (u :: rest)) :
    ∃ d' ≤ d, EdgePath F u rest (edgesOf F u rest) v d' := by
  induction trail with
  | nil u => exact ⟨0, le_rfl, .nil u⟩
  | @cons u x v rest c d arc _ ih =>
    obtain ⟨⟨e, first, forward, low⟩, later⟩ := lightest
    obtain ⟨d', le, path⟩ := ih later
    obtain ⟨id, found⟩ := exists_findEdge first
    obtain ⟨node, at_⟩ := edgeAt_findEdge found
    have target : e.target = x := by simpa using find?_some first
    refine ⟨F.nodeWeight u + F.weightPenalty e.data.turnId + d', add_le_add (low c arc.1) le, ?_⟩
    rw [edgesOf, found]
    exact .cons node (at_.trans first) target forward arc.2.1 arc.2.2 path

/-- A path of first edges that is not made of lightest forward edges is not a lightest one. -/
theorem EdgePath.lightest (path : EdgePath F u rest edges v d)
    (looked : edges = edgesOf F u rest) : LightestAlong F (u :: rest) ∨ ∃ d' < d, Walk F.allowedArcs u v d' := by
  induction path with
  | nil u => exact .inl trivial
  | @cons u x v rest id edges d e node at_ target forward au ax path ih =>
    obtain ⟨found, looked⟩ := cons.inj looked
    have first := (edgeAt_findEdge found.symm).2.symm.trans at_
    have arc : F.allowedArcs u x (F.nodeWeight u + F.weightPenalty e.data.turnId) :=
      ⟨⟨e, mem_of_find?_eq_some first, target, forward, rfl⟩, au, ax⟩
    rcases ih looked with later | ⟨d', less, walk⟩
    · by_cases low : ∀ c, F.arcs u x c → F.nodeWeight u + F.weightPenalty e.data.turnId ≤ c
      · exact .inl ⟨⟨e, first, forward, low⟩, later⟩
      · push Not at low
        obtain ⟨c, lighter, less⟩ := low
        exact .inr ⟨c + d, by omega, .cons ⟨lighter, au, ax⟩ path.walk⟩
    · exact .inr ⟨_, by omega, .cons arc walk⟩

/-- The sum of `f` over the steps of a path. -/
def stepSum (f : Fin n → Fin n → ℤ) : List (Fin n) → ℤ
  | x :: y :: rest => f x y + stepSum f (y :: rest)
  | _ => 0

theorem stepSum_add (f g : Fin n → Fin n → ℤ) : ∀ nodes, stepSum (fun x y => f x y + g x y) nodes = stepSum f nodes + stepSum g nodes
  | [] | [_] => rfl
  | x :: y :: rest => by
    simp only [stepSum, stepSum_add f g (y :: rest)]
    omega

theorem stepSum_congr {f g : Fin n → Fin n → ℤ} : ∀ {nodes : List (Fin n)}, (∀ x ∈ nodes, f x = g x) → stepSum f nodes = stepSum g nodes
  | [], _ | [_], _ => rfl
  | x :: y :: rest, same => by
    rw [stepSum, stepSum, same x mem_cons_self, stepSum_congr fun z hz => same z (mem_cons_of_mem _ hz)]

/-- The turn of an edge. -/
def Facade.turnOf (F : Facade n) (id : Option (EdgeID n)) : ℕ := ((id.bind F.edgeAt).map (·.data.turnId)).getD 0

/-- The penalty of the turn that `FindEdge` gives for a step. -/
def firstPenalty (F : Facade n) (x y : Fin n) : ℤ := F.weightPenalty (F.turnOf (findEdge F x y))

/-- The least penalty of a forward edge from `x` to `y`. -/
def lightestPenalty (F : Facade n) (x y : Fin n) : ℤ :=
  (((F.graph.edges x).filter fun e => e.target = y && e.data.forward).map fun e => F.weightPenalty e.data.turnId).min?.getD 0

theorem lightestPenalty_arc {y : Fin n} {c : ℤ} (arc : F.arcs x y c) :
    F.nodeWeight x + lightestPenalty F x y ≤ c ∧ F.arcs x y (F.nodeWeight x + lightestPenalty F x y) := by
  obtain ⟨e, he, target, forward, rfl⟩ := arc
  have mem : F.weightPenalty e.data.turnId ∈ ((F.graph.edges x).filter fun e => e.target = y && e.data.forward).map fun e =>
      F.weightPenalty e.data.turnId := mem_map.2 ⟨e, by simp [he, target, forward], rfl⟩
  obtain ⟨least, found⟩ := Option.isSome_iff_exists.1 (isSome_min?_of_mem mem)
  obtain ⟨attained, low⟩ := min?_eq_some_iff.1 found
  obtain ⟨e', he', rfl⟩ := mem_map.1 attained
  simp only [mem_filter, Bool.and_eq_true, decide_eq_true_eq] at he'
  rw [lightestPenalty, found, Option.getD_some]
  exact ⟨Int.add_le_add_left (low _ mem) _, e', he'.1, he'.2.1, he'.2.2, rfl⟩

/-- No path over the same nodes is lighter than the one over the lightest edges. -/
theorem lightest_of_trail (trail : Trail F.allowedArcs u rest v d) :
    stepSum (fun x y => F.nodeWeight x + lightestPenalty F x y) (u :: rest) ≤ d ∧
      Walk F.allowedArcs u v (stepSum (fun x y => F.nodeWeight x + lightestPenalty F x y) (u :: rest)) := by
  induction trail with
  | nil u => exact ⟨le_rfl, .nil u⟩
  | cons arc _ ih =>
    obtain ⟨low, attained⟩ := lightestPenalty_arc arc.1
    exact ⟨add_le_add low ih.1, .cons ⟨attained, arc.2⟩ ih.2⟩

theorem getLast_of_trail {A : Arcs (Fin n)} (trail : Trail A u rest v d) : (u :: rest).getLast (cons_ne_nil u rest) = v := by
  induction trail with
  | nil u => rfl
  | cons _ _ ih => rw [getLast_cons (cons_ne_nil _ _), ih]

end Edges

/-- `insertNodesInHeaps` and `search` without forced loops. -/
def mldSearch (F : Facade n) (endpoints : PhantomEndpointCandidates (Fin n)) : UnpackedPath n :=
  search F F.partition.numLevels (rootHeap endpoints.sourceRoots) (rootHeap endpoints.targetRoots) [] [] invalidEdgeWeight
    (.candidates endpoints)

section Candidates

variable {endpoints : PhantomEndpointCandidates (Fin n)}

/-- Where both heaps have a node, their nodes are ends of the query. -/
theorem isTerminal_of_roots {s t : Fin n × ℤ} (hs : s ∈ endpoints.sourceRoots) (ht : t ∈ endpoints.targetRoots) :
    IsTerminal endpoints s.1 ∧ IsTerminal endpoints t.1 := by
  obtain ⟨p, hp, mem⟩ := mem_flatMap.1 hs
  obtain ⟨dir, valid, rfl⟩ := mem_map.1 mem
  obtain ⟨q, hq, mem'⟩ := mem_flatMap.1 ht
  obtain ⟨dir', valid', rfl⟩ := mem_map.1 mem'
  have enabled := (Bool.and_eq_true_iff.1 (mem_filter.1 valid).2).1
  have enabled' := (Bool.and_eq_true_iff.1 (mem_filter.1 valid').2).1
  exact ⟨⟨p, hp, q, hq, dir, dir', enabled, enabled', .inl rfl⟩, p, hp, q, hq, dir, dir', enabled, enabled', .inr rfl⟩

variable (F endpoints) in
/-- Without forced loops a query may start and end in the segments of its candidates. -/
structure Admissible : Prop where
  distinct : (endpoints.sourceRoots.map (·.1)).Nodup
  distinct' : (endpoints.targetRoots.map (·.1)).Nodup
  allowed : ∀ s ∈ endpoints.sourceRoots, F.allowed s.1 = true
  allowed' : ∀ t ∈ endpoints.targetRoots, F.allowed t.1 = true
  keys : SumsFit F (.candidates endpoints) endpoints.sourceRoots endpoints.targetRoots
  nonneg : ∀ k ∈ Totals F.allowedArcs endpoints.sourceRoots endpoints.targetRoots, 0 ≤ k

theorem permitted_candidates {u : Fin n} : permitted F (.candidates endpoints) u = F.allowed u := by
  simp [permitted, checkParentCellRestriction]

theorem flatArcs_candidates : flatArcs F (.candidates endpoints) = F.allowedArcs := by
  funext u v c
  simp only [flatArcs, permitted_candidates, Facade.allowedArcs]

/-- A query over the candidates of a route. -/
theorem mldSearch_route (exact : F.Exact) (admissible : Admissible F endpoints) :
    Route F (.candidates endpoints) endpoints.sourceRoots endpoints.targetRoots (mldSearch F endpoints) := by
  have depth := Nat.sub_add_cancel F.partition.numLevels_pos
  by_cases both : endpoints.sourceRoots = [] ∨ endpoints.targetRoots = []
  · -- one of the heaps is empty
    have none : mldSearch F endpoints = noPath := by
      rw [mldSearch, ← depth, search, if_pos]
      simpa [rootHeap, rootLabels, Settling.start_isEmpty] using both
    rw [none]
    apply route_noPath
    rintro k ⟨s, hs, t, ht, -⟩
    rcases both with empty | empty
    · simp [empty] at hs
    · simp [empty] at ht
  · obtain ⟨some, some'⟩ := not_or.1 both
    obtain ⟨s₀, hs₀⟩ := exists_mem_of_ne_nil _ some
    obtain ⟨t₀, ht₀⟩ := exists_mem_of_ne_nil _ some'
    have source := fun s hs => (@isTerminal_of_roots n endpoints s t₀ hs ht₀).1
    have target := fun t ht => (@isTerminal_of_roots n endpoints s₀ t hs₀ ht).2
    have leveled : Leveled F (.candidates endpoints) := leveled_candidates (source s₀ hs₀)
    rw [mldSearch, ← depth]
    apply search_spec exact _ leveled
    · intro u
      have := leveled.lt u
      omega
    · refine ⟨admissible.distinct, admissible.distinct', ?_, ?_, admissible.keys, ?_, ?_, ?_⟩
      · intro s hs
        rw [permitted_candidates]
        exact admissible.allowed s hs
      · intro t ht
        rw [permitted_candidates]
        exact admissible.allowed' t ht
      · rw [flatArcs_candidates]
        exact admissible.nonneg
      · intro s hs above
        rw [level_terminal (source s hs)] at above
        omega
      · intro t ht above
        rw [level_terminal (target t ht)] at above
        omega

variable (F endpoints) in
/-- The nodes of a lightest connection of the candidates in the flat graph. -/
def LightestPath (nodes : List (Fin n)) : Prop :=
  ∃ s ∈ endpoints.sourceRoots, ∃ t ∈ endpoints.targetRoots, ∃ rest d, nodes = s.1 :: rest ∧
    Trail F.allowedArcs s.1 rest t.1 d ∧
    IsLeast (Totals F.allowedArcs endpoints.sourceRoots endpoints.targetRoots) (s.2 + d + t.2)

variable (F endpoints) in
/-- The nodes and edges of a result are a path from a source to a target that has its weight. -/
def ReturnsPath (r : UnpackedPath n) : Prop :=
  ∃ s ∈ endpoints.sourceRoots, ∃ t ∈ endpoints.targetRoots, ∃ rest d, r.nodes = s.1 :: rest ∧
    EdgePath F s.1 rest r.edges t.1 d ∧ s.2 + d + t.2 = r.weight

/-- A result whose edges are looked up along a lightest connection of its weight is a path, where the first edges along
the connections are lightest forward edges. -/
theorem Route.returnsPath {r : UnpackedPath n} (route : Route F (.candidates endpoints) endpoints.sourceRoots endpoints.targetRoots r)
    (least : IsLeast (Totals F.allowedArcs endpoints.sourceRoots endpoints.targetRoots) r.weight)
    (valid : r.weight ≠ invalidEdgeWeight) (first : ∀ nodes, LightestPath F endpoints nodes → LightestAlong F nodes) :
    ReturnsPath F endpoints r := by
  obtain ⟨s, hs, t, ht, rest, d, nodes, edges, trail, weight⟩ := route.path valid
  rw [flatArcs_candidates] at trail
  have along := first r.nodes ⟨s, hs, t, ht, rest, d, nodes, trail, weight.symm ▸ least⟩
  obtain ⟨d', le, walked⟩ := edgePath_of_trail trail (nodes ▸ along)
  have bound := least.2 ⟨s, hs, t, ht, d', walked.walk, rfl⟩
  obtain rfl : d' = d := by omega
  exact ⟨s, hs, t, ht, rest, d', nodes, edges ▸ walked, weight⟩

variable (F endpoints) in
/-- A query that finds a lightest connection. -/
structure ConnectedQuery : Prop where
  exact : F.Exact
  admissible : Admissible F endpoints
  fits : ∀ k ∈ Totals F.allowedArcs endpoints.sourceRoots endpoints.targetRoots,
    ∃ k' ∈ Totals F.allowedArcs endpoints.sourceRoots endpoints.targetRoots, k' < invalidEdgeWeight
  connected : (Totals F.allowedArcs endpoints.sourceRoots endpoints.targetRoots).Nonempty

/-- The result of a query: its nodes, the edges looked up along them, and the weight of the lightest edges along them. -/
theorem ConnectedQuery.result (query : ConnectedQuery F endpoints) : ∃ s ∈ endpoints.sourceRoots, ∃ t ∈ endpoints.targetRoots,
    ∃ rest, (mldSearch F endpoints).nodes = s.1 :: rest ∧ (mldSearch F endpoints).edges = edgesOf F s.1 rest ∧
      (s.1 :: rest).getLast (cons_ne_nil _ _) = t.1 ∧ (mldSearch F endpoints).weight =
        s.2 + stepSum (fun x y => F.nodeWeight x + lightestPenalty F x y) (s.1 :: rest) + t.2 := by
  have route := mldSearch_route query.exact query.admissible
  have least := route.least
  rw [flatArcs_candidates] at least
  obtain ⟨lightest, invalid⟩ := least.of_fits query.fits
  obtain ⟨s, hs, t, ht, rest, d, nodes, edges, trail, weight⟩ := route.path fun none => invalid.1 none query.connected
  rw [flatArcs_candidates] at trail
  obtain ⟨low, walk⟩ := lightest_of_trail trail
  have bound := (lightest query.connected).2 ⟨s, hs, t, ht, _, walk, rfl⟩
  exact ⟨s, hs, t, ht, rest, nodes, edges, getLast_of_trail trail, by omega⟩

end Candidates

/-- Customized cells are exact where the graph stores the weights of its edges. -/
theorem Facade.exact_of_customize (same : F.arcs = F.graph.arcs) (mirrored : F.Mirrored) (pos : Positive F.graph.arcs)
    (fits : Fits F.partition F.graph F.allowed)
    (customized : F.metric = customize F.partition F.graph F.allowed makeMetric)
    (cells : ∀ l u x, l + 1 < F.partition.numLevels → F.partition.SameCell (l + 1) u x →
      SumsFit F (.restricted l (F.partition.cell (l + 1) u)) [(u, 0)] [(x, 0)]) : F.Exact where
  few := fits.few
  mirrored := mirrored
  positive := same ▸ pos
  exact l one lt := by
    rw [same, customized]
    exact ((customizeLevels_spec pos fits (F.partition.numLevels - 1) (by omega)).1 l one (by omega)).exact
  cells := cells

/-- Cells on one level only that no edge enters are exact; the sums are bounded by a height that all arcs go down. -/
theorem Facade.exact_of_height (few : ∀ u, (F.graph.edges u).length ≤ 255) (mirrored : F.Mirrored) (h : Fin n → ℤ)
    (arc : ∀ u v c, F.arcs u v c → 0 < c ∧ c + h v ≤ h u) (small : ∀ u v, h u - h v < 2 ^ 30)
    (levels : F.partition.numLevels = 2) (inner : ∀ s, s ∉ sourceNodes F.partition F.graph 1 (F.partition.cell 1 s)) : F.Exact where
  few := few
  mirrored := mirrored
  positive u v c isArc := (arc u v c isArc).1
  exact l one lt s d hs := by
    obtain rfl : l = 1 := by omega
    exact absurd hs (inner s)
  cells _ _ _ _ _ := .of_height h (fun u v c isArc => (arc u v c isArc).2) (by simpa using small)

/-- Where turns cost the same, the first edges are lightest if they are forward edges. -/
theorem lightestAlong_of_forward (forward : ∀ u v, (∃ e ∈ F.graph.edges u, e.target = v ∧ e.data.forward = true) →
      ((F.graph.edges u).find? (·.target = v)).any (·.data.forward) = true)
    (even : ∀ turn turn', F.weightPenalty turn = F.weightPenalty turn') {u v : Fin n} {rest : List (Fin n)} {d : ℤ}
    (trail : Trail F.allowedArcs u rest v d) : LightestAlong F (u :: rest) := by
  induction trail with
  | nil u => trivial
  | @cons u x v rest c d arc _ ih =>
    obtain ⟨e, he, target, isForward, -⟩ := arc.1
    obtain ⟨isSome, direction⟩ := (Option.any_eq_true_iff_get _ _).1 (forward u x ⟨e, he, target, isForward⟩)
    refine ⟨⟨_, (Option.some_get isSome).symm, direction, ?_⟩, ih⟩
    rintro c' ⟨e', _, _, _, weight⟩
    rw [even _ e'.data.turnId]
    exact weight.le

/-- Where the two ends of the edges list the same turns, they give them the same weight. -/
theorem mirrored_of_turns (sides : ∀ u v,
      (∀ e ∈ F.graph.edges u, e.target = v → e.data.forward = true →
        ∃ e' ∈ F.graph.edges v, e'.target = u ∧ e'.data.backward = true ∧ e'.data.turnId = e.data.turnId) ∧
      ∀ e ∈ F.graph.edges v, e.target = u → e.data.backward = true →
        ∃ e' ∈ F.graph.edges u, e'.target = v ∧ e'.data.forward = true ∧ e'.data.turnId = e.data.turnId) : F.Mirrored := by
  intro u v c
  constructor
  · rintro ⟨e, he, target, forward, rfl⟩
    obtain ⟨e', he', target', backward, turn⟩ := (sides u v).1 e he target forward
    exact ⟨e', he', target', backward, turn ▸ rfl⟩
  · rintro ⟨e, he, target, backward, rfl⟩
    obtain ⟨e', he', target', forward, turn⟩ := (sides u v).2 e he target backward
    exact ⟨e', he', target', forward, turn ▸ rfl⟩

/-- `avenue` with a node weight of `1` and customized cells. -/
def avenueFacade : Facade 6 where
  graph := avenue
  partition := avenueCells
  metric := customize avenueCells avenue (fun _ => true) makeMetric
  excludeNode _ := false
  nodeWeight _ := 1
  weightPenalty _ := 0

/-- A candidate on the forward segment of `node`. -/
def forwardPhantom {n : ℕ} (node : Fin n) (weight : ℤ) : PhantomNode (Fin n) :=
  ⟨⟨node, true⟩, ⟨node, false⟩, weight, 0, 0, 0, 0, 0, 0, 0, true, true, false, false⟩

theorem avenueFacade_arcs : avenueFacade.arcs = avenue.arcs := by
  have unit : ∀ u, ∀ e ∈ avenue.edges u, e.data.weight = 1 := by decide
  funext u v c
  apply propext
  constructor
  · rintro ⟨e, he, target, forward, weight⟩
    exact ⟨e, he, target, (unit u e he).trans weight, forward⟩
  · rintro ⟨e, he, target, weight, forward⟩
    exact ⟨e, he, target, forward, (unit u e he).symm.trans weight⟩

/-- Along the avenue no sum overflows. -/
theorem avenueFacade_sums {args : Args 6} {sources targets : List (Fin 6 × ℤ)}
    (roots : ∀ r ∈ sources ++ targets, -2 ^ 29 < r.2 ∧ r.2 < 2 ^ 29) : SumsFit avenueFacade args sources targets := by
  refine .of_height (fun u => -(u : ℤ)) (fun u v c arc => ?_) fun r hr => ?_
  · have := avenue_arcs (avenueFacade_arcs ▸ arc)
    omega
  · have := roots r hr
    exact ⟨by omega, by omega, fun u v => by omega⟩

theorem avenueFacade_exact : avenueFacade.Exact :=
  Facade.exact_of_customize avenueFacade_arcs (mirrored_of_turns (by decide)) (MultiLevelGraph.ofEdges_positive _)
    (avenue_fits _) rfl fun _ _ _ _ _ => avenueFacade_sums (by simp)

theorem avenueFacade_walk {u v : Fin 6} {d : ℤ} (walk : Walk avenueFacade.allowedArcs u v d) : d = (v : ℤ) - (u : ℤ) := by
  induction walk with
  | nil u => simp
  | cons arc _ ih =>
    have := avenue_arcs (avenueFacade_arcs ▸ arc.1)
    omega

/-- Two opposite edges of different weight; node `0` lists the edge from `1` first. -/
def oncoming : MultiLevelGraph 2 := .ofEdges [⟨1, 0, ⟨0, 2, 2, 2, true, false⟩⟩, ⟨0, 1, ⟨1, 1, 1, 1, true, false⟩⟩]

def oncomingFacade : Facade 2 where
  graph := oncoming
  partition := .undivided
  metric := makeMetric
  excludeNode _ := false
  nodeWeight _ := 1
  weightPenalty turn := if turn = 0 then 1 else 0

def mergedNode (k : ℕ) : Fin 3 := ⟨k % 3, Nat.mod_lt k (Nat.succ_pos 2)⟩

/-- A road from `0` to `1`, and a road between `1` and `2` whose two directions weigh the same: each of its ends keeps one
entry, with the turn that leaves it. -/
def merged : MultiLevelGraph 3 where
  edges := ![[⟨mergedNode 1, ⟨0, 10, 0, 10, true, false⟩⟩],
    [⟨mergedNode 0, ⟨0, 10, 0, 10, false, true⟩⟩, ⟨mergedNode 2, ⟨1, 27, 0, 27, true, true⟩⟩],
    [⟨mergedNode 1, ⟨2, 27, 0, 27, true, true⟩⟩]]
  mirrored u v c := by
    fin_cases u <;> fin_cases v <;> simp [mergedNode]

def mergedFacade : Facade 3 where
  graph := merged
  partition := .undivided
  metric := makeMetric
  excludeNode _ := false
  nodeWeight := ![10, 20, 22]
  weightPenalty turn := [0, 7, 5].getD turn 0

end Osrm.Mld
