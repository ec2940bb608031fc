import Osrm.Engine.Ch.Route
import Osrm.Engine.RouteWeight

/-!
# Routes and live traffic

A route is searched with the weights that the graph was built with and then annotated with the
weights that live traffic leaves its segments. The search never sees the live weights of the
nodes between the source and the target, so the route it returns is lightest with the static
weights. The live weight of a route is its static weight and its `delay`, so the route is
lightest with the live weights where no other route saves more delay than it is longer.
-/

namespace Osrm

open List

open Lib Extractor Live

section Lightest

variable {P : Type*} (routes : P → ℤ → Prop)

/-- No route has a smaller weight in the graph. -/
def StaticLightest (p : P) : Prop := ∃ k, routes p k ∧ ∀ p' k', routes p' k' → k ≤ k'

/-- No route has a smaller weight by `live`. -/
def LiveLightest (live : P → ℤ) (p : P) : Prop := (∃ k, routes p k) ∧ ∀ p' k', routes p' k' → live p ≤ live p'

end Lightest

section Delay

variable {V E : Type*} [DecidableEq V] (facade : PathFacade V E) (store : LiveDataStore) (source target : SnappedPhantom V)
  (nodeWeight : V → ℤ)

/-- The weight that `annotatePath` gives the segments and turns of a route, with the part of the target's segment. -/
def liveWeight (route : List V × List E) : ℤ :=
  pathWeight (facade.annotatePath store source target route.1 route.2) +
    route.1.getLast?.elim 0 fun last => target.weight (target.traversed last)

/-- What live traffic adds to the weights of the nodes that a route leaves. -/
def delay (route : List V × List E) : ℤ :=
  ((route.1.zip route.2).map fun step => (((facade.nodeWeights store step.1).sum : ℕ) : ℤ) - nodeWeight step.1).sum

variable {facade store source target}

/-- **What a route is annotated with**: its weight in the graph and the delay of its nodes. -/
theorem liveWeight_eq {first : V} {rest : List V} {edges : List E} (several : edges ≠ [])
    (onSource : OnNode (facade.nodeWeights store first) (source.traversed first) source)
    (onTarget : OnNode (facade.nodeWeights store ((first :: rest).getLast (cons_ne_nil _ _)))
      (target.traversed ((first :: rest).getLast (cons_ne_nil _ _))) target)
    (nonneg : ∀ turn, 0 ≤ facade.weightPenalty turn) :
    liveWeight facade store source target (first :: rest, edges) =
      searchedWeight facade source target nodeWeight first rest edges + delay facade store nodeWeight (first :: rest, edges) := by
  obtain ⟨edge, edges, rfl⟩ := exists_cons_of_ne_nil several
  have total := annotatePath_nodes onSource onTarget (fun e (_ : e ∈ edge :: edges) => nonneg _)
  have added : ∀ steps : List (V × E), (steps.map fun step => (((facade.nodeWeights store step.1).sum : ℕ) : ℤ) +
      facade.weightPenalty (facade.turnId step.2)).sum =
      (steps.map fun step => nodeWeight step.1 + facade.weightPenalty (facade.turnId step.2)).sum +
        (steps.map fun step => (((facade.nodeWeights store step.1).sum : ℕ) : ℤ) - nodeWeight step.1).sum := by
    intro steps
    induction steps with
    | nil => rfl
    | cons step steps ih =>
      simp only [map_cons, sum_cons, ih]
      omega
  rw [liveWeight, getLast?_eq_some_getLast (cons_ne_nil _ _), Option.elim_some, total, searchedWeight, searchedWeight, added, delay]
  simp only
  omega

end Delay

/-- The ends of a query, snapped with the store that it is answered with. A node that has both is walked upward. -/
structure SnappedEnds {n : ℕ} (geometry : GeometryFacade (Fin n)) (store : LiveDataStore) (source target : SnappedPhantom (Fin n))
    (fromData toData : EdgeData (Fin n)) (fromRatio toRatio : ℚ) : Prop where
  snapped : source = geometry.makePhantomNode store fromData fromRatio
  snapped' : target = geometry.makePhantomNode store toData toRatio
  apart : fromData.forwardSegmentId.id ≠ fromData.reverseSegmentId.id
  apart' : toData.forwardSegmentId.id ≠ toData.reverseSegmentId.id
  sourceAt : ∀ s ∈ (endpointsOf source target).sourceRoots, Located geometry store fromData s.1
  targetAt : ∀ t ∈ (endpointsOf source target).targetRoots, Located geometry store toData t.1
  upward : ∀ s ∈ (endpointsOf source target).sourceRoots, ∀ t ∈ (endpointsOf source target).targetRoots, s.1 = t.1 →
    let weights := geometry.liveWeights store (geometry.getGeometryIndex s.1).id (geometry.getGeometryIndex s.1).forward
    WalkedUpward weights (source.position (source.traversed s.1) weights.length)
      (target.position (source.traversed s.1) weights.length) (source.weight (source.traversed s.1))

section Ends

variable {n : ℕ} {E : Type*} {facade : PathFacade (Fin n) E} {store : LiveDataStore} {source target : SnappedPhantom (Fin n)}
  {fromData toData : EdgeData (Fin n)} {fromRatio toRatio : ℚ}

/-- The same for a route between the ends of a query whose edges add up to `d`. -/
theorem SnappedEnds.liveWeight_eq (ends : SnappedEnds facade.toGeometryFacade store source target fromData toData fromRatio toRatio)
    (nonneg : ∀ turn, 0 ≤ facade.weightPenalty turn) {nodeWeight : Fin n → ℤ} {s t : Fin n × ℤ}
    (hs : s ∈ (endpointsOf source target).sourceRoots) (ht : t ∈ (endpointsOf source target).targetRoots)
    {rest : List (Fin n)} {edges : List E} {d : ℤ} (length : edges.length = rest.length)
    (last : (s.1 :: rest).getLast (cons_ne_nil _ _) = t.1)
    (sum : (((s.1 :: rest).zip edges).map fun step => nodeWeight step.1 + facade.weightPenalty (facade.turnId step.2)).sum = d) :
    liveWeight facade store source target (s.1 :: rest, edges) =
      s.2 + d + t.2 + delay facade store nodeWeight (s.1 :: rest, edges) := by
  have onSource := (ends.sourceAt s hs).onNode ends.snapped
  have onTarget := (ends.targetAt t ht).onNode ends.snapped'
  rw [key_of_source (ends.snapped ▸ ends.apart) hs, key_of_target (ends.snapped' ▸ ends.apart') ht]
  by_cases inside : edges = []
  · obtain rfl := length_eq_zero_iff.1 (length.symm.trans (congrArg List.length inside))
    subst inside sum
    have same : s.1 = t.1 := last
    rw [← same] at onTarget ⊢
    have dir : target.traversed s.1 = source.traversed s.1 := by
      rw [(ends.sourceAt s hs).traversed ends.snapped, same, (ends.targetAt t ht).traversed ends.snapped']
    rw [dir] at onTarget ⊢
    have total := (annotatePath_local rfl dir onSource onTarget).2 (ends.upward s hs t ht same)
    simpa [liveWeight, delay, dir] using total
  · rw [← last] at onTarget ⊢
    rw [Osrm.liveWeight_eq nodeWeight inside onSource onTarget nonneg, searchedWeight, sum]

/-- Points with one node each, on different nodes. -/
theorem snappedEnds_of_roots {geometry : GeometryFacade (Fin n)} (snapped : source = geometry.makePhantomNode store fromData fromRatio)
    (snapped' : target = geometry.makePhantomNode store toData toRatio)
    (apart : fromData.forwardSegmentId.id ≠ fromData.reverseSegmentId.id)
    (apart' : toData.forwardSegmentId.id ≠ toData.reverseSegmentId.id) {a b : Fin n × ℤ}
    (roots : (endpointsOf source target).sourceRoots = [a]) (roots' : (endpointsOf source target).targetRoots = [b])
    (sourceAt : Located geometry store fromData a.1) (targetAt : Located geometry store toData b.1) (different : a.1 ≠ b.1) :
    SnappedEnds geometry store source target fromData toData fromRatio toRatio := by
  refine ⟨snapped, snapped', apart, apart', ?_, ?_, ?_⟩
  · simpa [roots] using sourceAt
  · simpa [roots'] using targetAt
  · simp [roots, roots', different]

end Ends

namespace Mld

variable {n : ℕ} (F : Facade n) (endpoints : PhantomEndpointCandidates (Fin n))

/-- The routes between the roots over edges of the flat graph, with their weights. -/
def Routes (route : List (Fin n) × List (Option (EdgeID n)))
    (k : ℤ) : Prop :=
  ∃ s ∈ endpoints.sourceRoots, ∃ t ∈ endpoints.targetRoots, ∃ rest d, route.1 = s.1 :: rest ∧
    EdgePath F s.1 rest route.2 t.1 d ∧ s.2 + d + t.2 = k

/-- A query whose lightest connections are found with their edges. -/
structure FlatQuery : Prop extends ConnectedQuery F endpoints where
  first : ∀ nodes, LightestPath F endpoints nodes → LightestAlong F nodes

/-- The route that `directShortestPathSearch` extracts. -/
def routeOf : List (Fin n) × List (Option (EdgeID n)) :=
  ((mldSearch F endpoints).nodes, (mldSearch F endpoints).edges)

variable {F : Facade n} {endpoints : PhantomEndpointCandidates (Fin n)}

theorem Routes.total {route : List (Fin n) × List (Option (EdgeID n))} {k : ℤ} (routes : Routes F endpoints route k) :
    k ∈ Totals F.allowedArcs endpoints.sourceRoots endpoints.targetRoots := by
  obtain ⟨s, hs, t, ht, rest, d, -, path, weight⟩ := routes
  exact ⟨s, hs, t, ht, d, path.walk, weight⟩

/-- The route of a query on a multi-level partition is lightest with the static weights. -/
theorem FlatQuery.lightest (query : FlatQuery F endpoints) : StaticLightest (Routes F endpoints) (routeOf F endpoints) := by
  have route := mldSearch_route query.exact query.admissible
  have least := route.least
  rw [flatArcs_candidates] at least
  obtain ⟨lightest, invalid⟩ := least.of_fits query.fits
  have valid := fun none => invalid.1 none query.connected
  refine ⟨(mldSearch F endpoints).weight, route.returnsPath (lightest query.connected) valid query.first, fun p k routes => ?_⟩
  exact (lightest query.connected).2 routes.total

/-- The edges of a path add up to its weight. -/
theorem EdgePath.sum {geometry : GeometryFacade (Fin n)} {u v : Fin n} {rest : List (Fin n)} {edges : List (Option (EdgeID n))} {d : ℤ}
    (path : EdgePath F u rest edges v d) : edges.length = rest.length ∧ (u :: rest).getLast (cons_ne_nil _ _) = v ∧
      (((u :: rest).zip edges).map fun step => F.nodeWeight step.1 +
        (F.toPathFacade geometry).weightPenalty ((F.toPathFacade geometry).turnId step.2)).sum = d := by
  induction path with
  | nil u => exact ⟨rfl, rfl, rfl⟩
  | cons node at_ target _ _ _ _ ih =>
    obtain ⟨length, last, sum⟩ := ih
    refine ⟨by rw [length_cons, length_cons, length], by rw [getLast_cons (cons_ne_nil _ _), last], ?_⟩
    rw [zip_cons_cons, map_cons, sum_cons, sum]
    simp [Facade.toPathFacade, Facade.turnOf, at_]

/-- What the routes on a multi-level partition are annotated with. -/
theorem Routes.liveWeight {geometry : GeometryFacade (Fin n)} {store : LiveDataStore} {source target : SnappedPhantom (Fin n)}
    {fromData toData : EdgeData (Fin n)} {fromRatio toRatio : ℚ}
    (ends : SnappedEnds geometry store source target fromData toData fromRatio toRatio) (nonneg : ∀ turn, 0 ≤ F.weightPenalty turn)
    {route : List (Fin n) × List (Option (EdgeID n))} {k : ℤ} (routes : Routes F (endpointsOf source target) route k) :
    Osrm.liveWeight (F.toPathFacade geometry) store source target route =
      k + delay (F.toPathFacade geometry) store F.nodeWeight route := by
  obtain ⟨s, hs, t, ht, rest, d, nodes, path, rfl⟩ := routes
  obtain ⟨first, edges⟩ := route
  obtain rfl := nodes
  obtain ⟨length, last, sum⟩ := @EdgePath.sum _ _ geometry _ _ _ _ _ path
  exact ends.liveWeight_eq nonneg hs ht length last sum

end Mld

namespace Ch

variable {n : ℕ}

/-- The facade of a query on a contracted graph, with the geometries of its nodes. -/
def toPathFacade (geometry : GeometryFacade (Fin n)) (weightPenalty durationPenalty : ℕ → ℤ) :
    PathFacade (Fin n) (DynamicEdge n QueryEdgeData) where
  toGeometryFacade := geometry
  turnId e := e.data.turnId
  weightPenalty := weightPenalty
  durationPenalty := durationPenalty

/-- The route of a query on a contracted graph is lightest with the static weights. -/
theorem ContractedQuery.lightest {g₀ : ContractorGraph n} {q : QueryGraph n} {sources targets : List (Fin n × ℤ)}
    (query : ContractedQuery g₀ q sources targets) (connected : (Totals g₀.Forward sources targets).Nonempty) :
    ∃ fuel weight route, (∀ extra, directShortestPathSearch q (extra + fuel) sources targets = some (weight, route)) ∧
      StaticLightest (Routes g₀ sources targets) route := by
  obtain ⟨fuel, weight, route, run, routes, least⟩ := directShortestPathSearch_lightest query connected
  exact ⟨fuel, weight, route, run, weight, routes, fun p k other => least.2 (other.total query.mirrored)⟩

/-- Each entry of an edge charges the node that the edge leaves and the turn it names. -/
def Charges (g₀ : ContractorGraph n) (nodeWeight : Fin n → ℤ) (weightPenalty : ℕ → ℤ) : Prop :=
  ∀ call, OfInput g₀ call → call.2.data.weight = nodeWeight call.1.1 + weightPenalty call.2.data.turnId

/-- Calls that follow each other lead over their nodes, and their edges add up to their weight. -/
theorem Contiguous.sum {g₀ : ContractorGraph n} {nodeWeight : Fin n → ℤ} {weightPenalty : ℕ → ℤ} {y : Fin n}
    (charges : Charges g₀ nodeWeight weightPenalty) (calls : List (Call n)) : ∀ x, Contiguous x (calls.map (·.1)) y →
    (∀ call ∈ calls, OfInput g₀ call) → (x :: calls.map (·.1.2)).getLast (cons_ne_nil _ _) = y ∧
      (((x :: calls.map (·.1.2)).zip (calls.map (·.2))).map fun step => nodeWeight step.1 + weightPenalty step.2.data.turnId).sum =
        (calls.map (·.2.data.weight)).sum := by
  induction calls with
  | nil =>
    intro x ends _
    exact ⟨ends, rfl⟩
  | cons call calls ih =>
    intro x contiguous input
    obtain ⟨start, later⟩ := contiguous
    obtain ⟨last, sum⟩ := ih _ later fun c hc => input c (mem_cons_of_mem _ hc)
    refine ⟨by rw [map_cons, getLast_cons (cons_ne_nil _ _), last], ?_⟩
    rw [map_cons, map_cons, zip_cons_cons, map_cons, sum_cons, sum, map_cons, sum_cons, charges call (input call mem_cons_self), start]

/-- What the routes on a contracted graph are annotated with. -/
theorem Routes.liveWeight {g₀ : ContractorGraph n} {geometry : GeometryFacade (Fin n)} {nodeWeight : Fin n → ℤ}
    {weightPenalty durationPenalty : ℕ → ℤ} {store : LiveDataStore} {source target : SnappedPhantom (Fin n)}
    {fromData toData : EdgeData (Fin n)} {fromRatio toRatio : ℚ}
    (ends : SnappedEnds geometry store source target fromData toData fromRatio toRatio)
    (nonneg : ∀ turn, 0 ≤ weightPenalty turn) (charges : Charges g₀ nodeWeight weightPenalty)
    {route : List (Fin n) × List (DynamicEdge n QueryEdgeData)} {k : ℤ}
    (routes : Routes g₀ (endpointsOf source target).sourceRoots (endpointsOf source target).targetRoots route k) :
    Osrm.liveWeight (toPathFacade geometry weightPenalty durationPenalty) store source target route =
      k + delay (toPathFacade geometry weightPenalty durationPenalty) store nodeWeight route := by
  obtain ⟨s, hs, t, ht, calls, rfl, contiguous, input, rfl⟩ := routes
  obtain ⟨last, sum⟩ := contiguous.sum charges calls _ input
  have length : (calls.map (·.2)).length = (calls.map (·.1.2)).length := by simp
  exact @SnappedEnds.liveWeight_eq _ _ (toPathFacade geometry weightPenalty durationPenalty) _ _ _ _ _ _ _ ends nonneg _ _ _ hs ht _ _ _
    length last sum

end Ch

/-- The delay of `p` exceeds that of another route by no more than the route is heavier. -/
def Outweighs {P : Type*} (routes : P → ℤ → Prop) (delay : P → ℤ) (p : P) : Prop :=
  ∀ k p' k', routes p k → routes p' k' → delay p - delay p' ≤ k' - k

/-- A lightest route by the static weights is one by the live weights exactly if its delay is outweighed. -/
theorem StaticLightest.live_iff {P : Type*} {routes : P → ℤ → Prop} {live delay : P → ℤ}
    (adds : ∀ p k, routes p k → live p = k + delay p) {p : P} (lightest : StaticLightest routes p) :
    LiveLightest routes live p ↔ Outweighs routes delay p := by
  obtain ⟨k, isRoute, -⟩ := lightest
  constructor
  · intro ⟨_, low⟩ k p' k' routes routes'
    have := low p' k' routes'
    rw [adds p k routes, adds p' k' routes'] at this
    omega
  · intro outweighs
    refine ⟨⟨k, isRoute⟩, fun p' k' routes' => ?_⟩
    have := outweighs k p' k' isRoute routes'
    rw [adds p k isRoute, adds p' k' routes']
    omega

def oneSegment (weight : ℕ) : SegmentData :=
  ⟨[0, 1], [4194303, weight], [weight, 4194303], [4194303, weight], [weight, 4194303], [0, 0], [0, 0], le_rfl, by simp⟩

def townWeights : List ℕ := [10, 20, 12, 12, 10]

/-- Each node is a road of one segment. -/
def townGeometry : GeometryFacade (Fin 5) := ⟨fun u => ⟨u, true⟩, fun id => oneSegment (townWeights.getD id 0), fun _ => false⟩

/-- From road `0` to road `4` over the main road `1` or over the side roads `2` and `3`. -/
def town : MultiLevelGraph 5 :=
  .ofEdges [⟨0, 1, ⟨0, 10, 10, 10, true, false⟩⟩, ⟨0, 2, ⟨0, 10, 10, 10, true, false⟩⟩, ⟨1, 4, ⟨0, 20, 20, 20, true, false⟩⟩,
    ⟨2, 3, ⟨0, 12, 12, 12, true, false⟩⟩, ⟨3, 4, ⟨0, 12, 12, 12, true, false⟩⟩]

def townFacade : Mld.Facade 5 where
  graph := town
  partition := .undivided
  metric := CellStorage.makeMetric
  excludeNode _ := false
  nodeWeight u := townWeights.getD u 0
  weightPenalty _ := 0

/-- Traffic on one road moves at `10` km/h. -/
def jamOn (road : ℕ) : LiveDataStore :=
  ({} : LiveDataStore).update road { speedKmh := 10, weightFactor := computeTrafficWeightFactor (some 10), source := .live }

def startOfRoad (store : LiveDataStore) (u : Fin 5) : SnappedPhantom (Fin 5) :=
  townGeometry.makePhantomNode store ⟨⟨u, true⟩, ⟨u.rev, false⟩, 0⟩ 0

/-- What leads from each road to road `4`: the roads, the edges and the weight. -/
def townPaths : Fin 5 → List (List (Fin 5) × List (Option (Mld.EdgeID 5)) × ℤ)
  | 0 => [([1, 4], [some ⟨0, 0⟩, some ⟨1, 1⟩], 30), ([2, 3, 4], [some ⟨0, 1⟩, some ⟨2, 1⟩, some ⟨3, 1⟩], 34)]
  | 1 => [([4], [some ⟨1, 1⟩], 20)]
  | 2 => [([3, 4], [some ⟨2, 1⟩, some ⟨3, 1⟩], 24)]
  | 3 => [([4], [some ⟨3, 1⟩], 12)]
  | 4 => [([], [], 0)]

/-- How far it is to road `4` at most. -/
def townHeight : Fin 5 → ℤ := ![34, 20, 24, 12, 0]

theorem town_arcs (u v : Fin 5) (c : ℤ) (arc : townFacade.arcs u v c) : 0 < c ∧ c + townHeight v ≤ townHeight u := by
  have weights : ∀ u, ∀ e ∈ town.edges u, e.data.forward = true → 0 < townFacade.nodeWeight u + townFacade.weightPenalty e.data.turnId ∧
      townFacade.nodeWeight u + townFacade.weightPenalty e.data.turnId + townHeight e.target ≤ townHeight u := by decide
  obtain ⟨e, he, rfl, forward, rfl⟩ := arc
  exact weights u e he forward

theorem town_paths {u v : Fin 5} {rest : List (Fin 5)} {edges : List (Option (Mld.EdgeID 5))} {d : ℤ}
    (path : Mld.EdgePath townFacade u rest edges v d) (ends : v = 4) : (rest, edges, d) ∈ townPaths u := by
  have roads : ∀ u : Fin 5, ∀ i < 2, ∀ e ∈ (town.edges u)[i]?, e.data.forward = true →
      (u, i, e.target) ∈ ([(0, 0, 1), (0, 1, 2), (1, 1, 4), (2, 1, 3), (3, 1, 4)] : List (Fin 5 × ℕ × Fin 5)) := by decide
  have short : ∀ u, (town.edges u).length ≤ 2 := by decide
  induction path with
  | nil u =>
    subst ends
    exact mem_singleton_self _
  | @cons u x v rest id edges d e node at_ target forward _ _ _ ih =>
    subst node
    obtain ⟨inside, -⟩ := List.getElem?_eq_some_iff.1 at_
    have road := roads id.node id.index (inside.trans_le (short _)) e at_ forward
    rw [target] at road
    have later := ih ends
    rw [show townFacade.weightPenalty e.data.turnId = 0 from rfl]
    obtain ⟨from_, index⟩ := id
    simp only [mem_cons, not_mem_nil, or_false] at road
    rcases road with ⟨rfl, rfl, rfl⟩ | ⟨rfl, rfl, rfl⟩ | ⟨rfl, rfl, rfl⟩ | ⟨rfl, rfl, rfl⟩ | ⟨rfl, rfl, rfl⟩
    all_goals
      simp only [townPaths, mem_cons, not_mem_nil, or_false] at later ⊢
      obtain ⟨rfl, rfl, rfl⟩ := later
      decide

section Town

variable {endpoints : PhantomEndpointCandidates (Fin 5)} (source : endpoints.sourceRoots = [(0, 0)]) (target : endpoints.targetRoots = [(4, 0)])

include source target

/-- The routes from the start of road `0` to the start of road `4`. -/
theorem town_routes {route : List (Fin 5) × List (Option (Mld.EdgeID 5))} {k : ℤ} (routes : Mld.Routes townFacade endpoints route k) :
    route = ([0, 1, 4], [some ⟨0, 0⟩, some ⟨1, 1⟩]) ∧ k = 30 ∨
      route = ([0, 2, 3, 4], [some ⟨0, 1⟩, some ⟨2, 1⟩, some ⟨3, 1⟩]) ∧ k = 34 := by
  obtain ⟨s, hs, t, ht, rest, d, nodes, path, weight⟩ := routes
  rw [source] at hs
  rw [target] at ht
  obtain rfl := mem_singleton.1 hs
  obtain rfl := mem_singleton.1 ht
  have found := town_paths path rfl
  obtain ⟨first, edges⟩ := route
  simp only [townPaths, mem_cons, not_mem_nil, or_false] at found nodes path weight
  rcases found with ⟨rfl, rfl, rfl⟩ | ⟨rfl, rfl, rfl⟩
  · exact .inl ⟨by rw [nodes], weight.symm⟩
  · exact .inr ⟨by rw [nodes], weight.symm⟩

theorem town_main : Mld.Routes townFacade endpoints ([0, 1, 4], [some ⟨0, 0⟩, some ⟨1, 1⟩]) 30 := by
  refine ⟨(0, 0), by simp [source], (4, 0), by simp [target], [1, 4], 30, rfl, ?_, rfl⟩
  exact .cons (d := 20) rfl rfl rfl rfl rfl rfl (.cons (d := 0) rfl rfl rfl rfl rfl rfl (.nil 4))

theorem town_side : Mld.Routes townFacade endpoints ([0, 2, 3, 4], [some ⟨0, 1⟩, some ⟨2, 1⟩, some ⟨3, 1⟩]) 34 := by
  refine ⟨(0, 0), by simp [source], (4, 0), by simp [target], [2, 3, 4], 34, rfl, ?_, rfl⟩
  exact .cons (d := 24) rfl rfl rfl rfl rfl rfl
    (.cons (d := 12) rfl rfl rfl rfl rfl rfl (.cons (d := 0) rfl rfl rfl rfl rfl rfl (.nil 4)))

theorem town_query : Mld.FlatQuery townFacade endpoints where
  exact := Mld.Facade.exact_of_height (by decide) (Mld.mirrored_of_turns (by decide)) townHeight town_arcs (by decide) rfl (by decide)
  admissible := by
    refine ⟨by simp [source], by simp [target], fun _ _ => rfl, fun _ _ => rfl, ?_, ?_⟩
    · exact .of_height townHeight (fun u v c arc => (town_arcs u v c arc).2) (by rw [source, target]; decide)
    · intro k total
      rw [source, target] at total
      obtain ⟨d, walk, rfl⟩ := mem_totals_singleton.1 total
      have := walk.nonneg fun u v c arc => (town_arcs u v c arc.1).1
      omega
  fits _ _ := ⟨30, (town_main source target).total, by decide⟩
  connected := ⟨30, (town_main source target).total⟩
  first := by
    rintro nodes ⟨s, -, t, -, rest, d, rfl, trail, -⟩
    exact Mld.lightestAlong_of_forward (F := townFacade) (by decide) (fun _ _ => rfl) trail

end Town

/-- The nodes of the line are roads of one segment. -/
def lineGeometry : GeometryFacade (Fin 3) := ⟨fun u => ⟨u, true⟩, fun id => oneSegment ([2, 3].getD id 1), fun _ => false⟩

/-- The start of a road of the line. -/
def linePoint (u : Fin 3) : SnappedPhantom (Fin 3) := lineGeometry.makePhantomNode {} ⟨⟨u, true⟩, ⟨u.rev, false⟩, 0⟩ 0

theorem line_roots : (endpointsOf (linePoint 0) (linePoint 2)).sourceRoots = [(0, 0)] ∧
    (endpointsOf (linePoint 0) (linePoint 2)).targetRoots = [(2, 0)] := by
  decide +kernel

theorem line_query : Ch.ContractedQuery lineGraph lineQuery [(0, 0)] [(2, 0)] where
  mirrored := ⟨by decide, by decide, by decide⟩
  plain := by decide
  contracted := ⟨lineDone, lineDone_searched, by decide, rfl, fun _ => .refl _⟩
  distinct := by decide
  distinct' := by decide
  targets_nonneg := by decide
  nonneg := by
    intro k total
    obtain ⟨d, walk, rfl⟩ := mem_totals_singleton.1 total
    have := walk.nonneg line_positive
    omega
  fits := by
    intro s hs t ht d walk
    obtain rfl := mem_singleton.1 hs
    obtain rfl := mem_singleton.1 ht
    by_cases light : d < invalidEdgeWeight
    · exact ⟨d, le_rfl, walk, light, by simpa using light⟩
    · exact ⟨5, by simp only [invalidEdgeWeight] at light; omega, line_walk, by decide, by decide⟩
  keys := .of_height (fun _ => ![5, 7, 0]) (by decide) (by decide)

section Preprocessing

variable {n : ℕ} {g₀ : ContractorGraph n} {q q' : QueryGraph n} {sources targets : List (Fin n × ℤ)}

def lineFacade : Mld.Facade 3 where
  graph := .ofEdges ((finRange 3).flatMap fun u => ((lineGraph.edges u).filter (·.data.forward)).map fun e =>
    ⟨u, e.target, ⟨0, e.data.weight, 0, 0, true, false⟩⟩)
  partition := .undivided
  metric := CellStorage.makeMetric
  excludeNode _ := false
  nodeWeight := ![2, 3, 0]
  weightPenalty _ := 0

end Preprocessing

end Osrm
