import Osrm.Engine.AnnotatePath
import Osrm.Engine.Mld.Route

/-!
# Annotated and searched weight

The weight of a route is found twice: the search adds up node weights and turn penalties
between the keys of the two phantoms, and `annotatePath` lists the segments. Where the path
has more than one node the two agree if `FindEdge` gives edges as cheap as those searched.
Inside one node they agree if the source's segment comes first. The phantoms may also be at the two sides of one point, the
source at the start of a segment and the target at the end of the one before; the search
then reports `0`, but the segments are walked downward and counted.
-/

namespace Osrm

open List

open Extractor Live

variable {V E : Type*}

/-- A phantom lies on a node with segment weights `W`, travelled in direction `dir`. -/
structure OnNode (W : List ℕ) (dir : Bool) (p : SnappedPhantom V) : Prop where
  inside : p.position dir W.length < W.length
  offset : p.weightPlusOffset dir = (W.take (p.position dir W.length)).sum + p.weight dir
  low : 0 ≤ p.weight dir
  high : p.weight dir ≤ (W.getD (p.position dir W.length) 0 : ℕ)

/-- A segment of the road network belongs to a node of the graph: their geometries are the same, and the geometry runs
forward exactly at the forward node. Its segment weights are 32 bits wide. -/
structure Located [DecidableEq V] (facade : GeometryFacade V) (store : LiveDataStore) (data : EdgeData V) (node : V) : Prop where
  inside : data.fwdSegmentPosition < (facade.segmentData (facade.geometryOf data)).size
  geometry : facade.getGeometryIndex node = ⟨facade.geometryOf data, data.forwardSegmentId.id = node⟩
  typed : ∀ w ∈ facade.liveWeights store (facade.geometryOf data) (data.forwardSegmentId.id = node), w < 2 ^ 32

section Located

variable [DecidableEq V] {geometry : GeometryFacade V} {store : LiveDataStore} {data : EdgeData V} {node : V} {ratio : ℚ}
  {phantom : SnappedPhantom V}

/-- A node is travelled in the direction of its geometry. -/
theorem Located.traversed (located : Located geometry store data node) (snapped : phantom = geometry.makePhantomNode store data ratio) :
    phantom.traversed node = (geometry.getGeometryIndex node).forward := by
  rw [snapped, located.geometry]
  rfl

/-- A snapped point lies on its nodes, with the weights it was snapped with. -/
theorem Located.onNode {facade : PathFacade V E} (located : Located facade.toGeometryFacade store data node)
    (snapped : phantom = facade.makePhantomNode store data ratio) :
    OnNode (facade.nodeWeights store node) (phantom.traversed node) phantom := by
  have weights : facade.nodeWeights store node =
      facade.liveWeights store (facade.geometryOf data) (data.forwardSegmentId.id = node) := by
    rw [PathFacade.nodeWeights, located.geometry]
  have low : (0 : ℚ) ≤ min 1 (max 0 ratio) := le_min zero_le_one (le_max_left _ _)
  have inside := located.inside
  have typed := located.typed
  subst snapped
  rw [weights]
  change OnNode _ (data.forwardSegmentId.id = node) _
  generalize decide (data.forwardSegmentId.id = node) = dir at typed ⊢
  have length := length_liveWeights facade.toGeometryFacade store (facade.geometryOf data) dir
  have position : ∀ size, (facade.makePhantomNode store data ratio).position dir size = data.position dir size := fun _ => rfl
  have part : (facade.makePhantomNode store data ratio).weight dir =
      partialWeight dir (facade.isSpecial (data.segmentId dir).id) (min 1 (max 0 ratio))
        ((facade.liveWeights store (facade.geometryOf data) dir).getD
          (data.position dir (facade.segmentData (facade.geometryOf data)).size) 0) := by
    cases dir with
    | true => rfl
    | false => rfl
  have small : (facade.liveWeights store (facade.geometryOf data) dir).getD
      (data.position dir (facade.segmentData (facade.geometryOf data)).size) 0 < 2 ^ 32 := by
    rw [getD_eq_getElem?_getD]
    cases found : (facade.liveWeights store (facade.geometryOf data) dir)[data.position dir _]? with
    | none => exact Nat.two_pow_pos 32
    | some w => exact typed w (mem_of_getElem? found)
  obtain ⟨below, above⟩ := partialWeight_bounds dir (facade.isSpecial (data.segmentId dir).id) low (min_le_left _ _) small
  constructor
  · rw [position, length, EdgeData.position]
    cases dir with
    | true =>
      exact inside
    | false =>
      simp only [Bool.false_eq_true, if_false]
      omega
  · rw [length, part]
    exact weightPlusOffset_makePhantomNode facade.toGeometryFacade store data ratio dir
  · rw [part]
    exact below
  · rw [length, part]
    exact above

end Located

section Weights

variable [DecidableEq V] (facade : PathFacade V E) (store : LiveDataStore) (source target : SnappedPhantom V)

/-- The weight that the search reports for a path: the keys of the phantoms, and the weights of the nodes that are left
and of the turns. -/
def searchedWeight (nodeWeight : V → ℤ) (first : V) (rest : List V) (edges : List E) : ℤ :=
  -source.weightPlusOffset (source.traversed first) +
    (((first :: rest).zip edges).map fun step => nodeWeight step.1 + facade.weightPenalty (facade.turnId step.2)).sum +
    target.weightPlusOffset (target.traversed ((first :: rest).getLast (cons_ne_nil _ _)))

variable {facade store source target}

/-- **A path over several nodes.** -/
theorem annotatePath_nodes {first : V} {rest : List V} {edge : E} {edges : List E}
    (onSource : OnNode (facade.nodeWeights store first) (source.traversed first) source)
    (onTarget : OnNode (facade.nodeWeights store ((first :: rest).getLast (cons_ne_nil _ _)))
      (target.traversed ((first :: rest).getLast (cons_ne_nil _ _))) target)
    (nonneg : ∀ e ∈ edge :: edges, 0 ≤ facade.weightPenalty (facade.turnId e)) :
    pathWeight (facade.annotatePath store source target (first :: rest) (edge :: edges)) +
        target.weight (target.traversed ((first :: rest).getLast (cons_ne_nil _ _))) =
      searchedWeight facade source target (fun v => ((facade.nodeWeights store v).sum : ℕ)) first rest (edge :: edges) := by
  generalize last : (first :: rest).getLast (cons_ne_nil _ _) = targetNode at onTarget ⊢
  have getLast : (first :: rest).getLast? = some targetNode := by
    rw [getLast?_eq_some_getLast (cons_ne_nil _ _), last]
  have penalties : ∀ step ∈ rest.zip edges, 0 ≤ facade.weightPenalty (facade.turnId step.2) :=
    fun step mem => nonneg step.2 (mem_cons_of_mem _ (of_mem_zip mem).2)
  -- the nodes before the last
  obtain ⟨started, firstWeight⟩ := annotateNode_first facade store source (!source.traversed first) (first, edge)
    (source.position (source.traversed first) (facade.nodeWeights store first).length) (nonneg edge mem_cons_self)
    (by rw [Bool.not_not]) onSource.inside onSource.high
  obtain ⟨walked, total⟩ := foldl_annotateNode facade store source (!source.traversed first) (rest.zip edges) penalties _ started
  generalize hpath : (rest.zip edges).foldl (facade.annotateNode store source (!source.traversed first))
    (facade.annotateNode store source (!source.traversed first) [] (first, edge)) = path at walked total
  have filled : path.isEmpty = false := by
    obtain ⟨p, more, rfl, _⟩ := walked
    rfl
  -- the last node
  have ending : pathWeight (facade.lastSegments store targetNode 0
      (target.position (target.traversed targetNode) (facade.nodeWeights store targetNode).length)) =
      (((facade.nodeWeights store targetNode).take
        (target.position (target.traversed targetNode) (facade.nodeWeights store targetNode).length)).sum : ℕ) := by
    have inside := onTarget.inside
    generalize target.position (target.traversed targetNode) _ = stop at inside ⊢
    rw [PathFacade.lastSegments]
    by_cases some : 0 < stop
    · rw [if_pos some, pathWeight_segments facade store targetNode (· + 1) (by omega), drop_zero, Nat.sub_zero]
    · obtain rfl : stop = 0 := by omega
      rfl
  have cut : facade.annotatePath store source target (first :: rest) (edge :: edges) =
      PathFacade.cutSource (source.weight (source.traversed first)) (source.duration (source.traversed first))
        (path ++ facade.lastSegments store targetNode 0
          (target.position (target.traversed targetNode) (facade.nodeWeights store targetNode).length)) := by
    rw [PathFacade.annotatePath, getLast]
    simp [hpath, filled]
  have split := congrArg sum (take_append_drop
    (source.position (source.traversed first) (facade.nodeWeights store first).length) (facade.nodeWeights store first))
  rw [sum_append] at split
  have startsAt := onSource.offset
  have endsAt := onTarget.offset
  rw [cut, pathWeight_cutSource (walked.append _), pathWeight_append, total, firstWeight, searchedWeight, last,
    zip_cons_cons, map_cons, sum_cons]
  dsimp only
  unfold stepsWeight
  omega

/-- The segments of a node are walked upward, or there is nothing to walk, or all that is walked has no weight. -/
def WalkedUpward (W : List ℕ) (start stop : ℕ) (sourceWeight : ℤ) : Prop :=
  start < stop ∨ (start = stop ∧ sourceWeight = 0) ∨ (stop < start ∧ ∀ w ∈ (W.drop stop).take (start - stop + 1), w = 0)

/-- Two overlapping stretches have no weight exactly if their union has none. -/
theorem sum_stretches {W : List ℕ} {start stop : ℕ} (down : stop < start) (inside : start < W.length) :
    ((W.drop (stop + 1)).take (start - stop)).sum + ((W.drop stop).take (start - stop)).sum = 0 ↔
      ∀ w ∈ (W.drop stop).take (start - stop + 1), w = 0 := by
  have head : (W.drop stop).take (start - stop + 1) = W[stop] :: (W.drop (stop + 1)).take (start - stop) := by
    rw [drop_eq_getElem_cons (by omega), take_succ_cons]
  rw [Nat.add_eq_zero_iff, List.sum_eq_zero_iff_forall_eq_nat, List.sum_eq_zero_iff_forall_eq_nat]
  constructor
  · intro zero w mem
    rw [head, mem_cons] at mem
    rcases mem with rfl | mem
    · apply zero.2
      rw [drop_eq_getElem_cons (by omega), show start - stop = start - stop - 1 + 1 by omega]
      exact mem_cons_self
    · exact zero.1 w mem
  · intro zero
    constructor
    · intro w mem
      exact zero w (head ▸ mem_cons_of_mem _ mem)
    · intro w mem
      exact zero w ((take_sublist_take_left (Nat.le_succ _)).subset mem)

/-- **A path inside one node.** -/
theorem annotatePath_local {node : V} {dir : Bool} (fromSource : source.traversed node = dir) (fromTarget : target.traversed node = dir)
    (onSource : OnNode (facade.nodeWeights store node) dir source) (onTarget : OnNode (facade.nodeWeights store node) dir target) :
    pathWeight (facade.annotatePath store source target [node] []) + target.weight dir =
        -source.weightPlusOffset dir + target.weightPlusOffset dir ↔
      WalkedUpward (facade.nodeWeights store node) (source.position dir (facade.nodeWeights store node).length)
        (target.position dir (facade.nodeWeights store node).length) (source.weight dir) := by
  have cut : facade.annotatePath store source target [node] [] =
      PathFacade.cutSource (source.weight dir) (source.duration dir) (facade.lastSegments store node
        (source.position dir (facade.nodeWeights store node).length) (target.position dir (facade.nodeWeights store node).length)) := by
    rw [PathFacade.annotatePath]
    simp [fromSource, fromTarget]
  obtain ⟨insideS, offsetS, lowS, highS⟩ := onSource
  obtain ⟨insideT, offsetT, _, _⟩ := onTarget
  rw [cut, offsetS, offsetT]
  generalize source.position dir (facade.nodeWeights store node).length = start at *
  generalize target.position dir (facade.nodeWeights store node).length = stop at *
  have between : ∀ {a b}, a ≤ b → (facade.nodeWeights store node).take b =
      (facade.nodeWeights store node).take a ++ ((facade.nodeWeights store node).drop a).take (b - a) := by
    intro a b le
    rw [← take_add, Nat.add_sub_of_le le]
  unfold WalkedUpward PathFacade.lastSegments
  rcases Nat.lt_trichotomy start stop with up | same | down
  · -- upward, all but the target's segment
    have started := startsWith_segments facade store node (· + 1) start (stop - start) (by omega) highS
    rw [if_pos up, pathWeight_cutSource started, pathWeight_segments facade store node (· + 1) (by omega), between up.le, sum_append]
    refine iff_of_true ?_ (.inl up)
    omega
  · -- nothing is listed, so nothing is taken off
    subst same
    rw [if_neg (Nat.lt_irrefl _), Nat.sub_self]
    change (0 : ℤ) + _ = _ ↔ _
    omega
  · -- downward, where the search counts the segments the other way
    have started : StartsWith (source.weight dir)
        ((range (start - stop)).map fun k => facade.segment store node (start - k) (start - k - 1)) := by
      obtain ⟨k, count⟩ := Nat.exists_eq_add_of_lt down
      rw [show start - stop = k + 1 by omega, range_succ_eq_map]
      exact ⟨_, _, rfl, highS⟩
    rw [if_neg (by omega), pathWeight_cutSource started, pathWeight_downward facade store node down.le insideS,
      between down.le, sum_append, ← sum_stretches down insideS]
    omega

end Weights

/-- The facade of a query on a multi-level partition, with the geometries of its nodes. -/
def Mld.Facade.toPathFacade {n : ℕ} (F : Mld.Facade n) (geometry : GeometryFacade (Fin n)) : PathFacade (Fin n) (Option (Mld.EdgeID n)) where
  toGeometryFacade := geometry
  turnId := F.turnOf
  weightPenalty := F.weightPenalty
  durationPenalty _ := 0

/-- The candidates of one source and one target. -/
def endpointsOf {V : Type*} (source target : SnappedPhantom V) : PhantomEndpointCandidates V :=
  ⟨[source.toPhantomNode], [target.toPhantomNode]⟩

section Searched

variable {n : ℕ} {F : Mld.Facade n} {geometry : GeometryFacade (Fin n)} {source target : SnappedPhantom (Fin n)}

variable (F geometry source target) in
/-- The weight of a path with the edges that `FindEdge` gives. -/
theorem searchedWeight_edgesOf (nodeWeight : Fin n → ℤ) (first : Fin n) (rest : List (Fin n)) :
    searchedWeight (F.toPathFacade geometry) source target nodeWeight first rest (Mld.edgesOf F first rest) =
      -source.weightPlusOffset (source.traversed first) +
        Mld.stepSum (fun x y => nodeWeight x + Mld.firstPenalty F x y) (first :: rest) +
        target.weightPlusOffset (target.traversed ((first :: rest).getLast (cons_ne_nil _ _))) := by
  have steps : ∀ (rest : List (Fin n)) (first : Fin n), (((first :: rest).zip (Mld.edgesOf F first rest)).map fun step =>
      nodeWeight step.1 + F.weightPenalty (F.turnOf step.2)).sum =
        Mld.stepSum (fun x y => nodeWeight x + Mld.firstPenalty F x y) (first :: rest) := by
    intro rest
    induction rest with
    | nil => intro first; rfl
    | cons x rest ih =>
      intro first
      rw [Mld.edgesOf, zip_cons_cons, map_cons, sum_cons, ih]
      rfl
  rw [searchedWeight, ← steps]
  rfl

/-- The key of a node of the source is the weight before the source in the direction in which the node is travelled. -/
theorem key_of_source (apart : source.forwardSegmentId.id ≠ source.reverseSegmentId.id) {s : Fin n × ℤ}
    (hs : s ∈ (endpointsOf source target).sourceRoots) : s.2 = -source.weightPlusOffset (source.traversed s.1) := by
  simp only [PhantomEndpointCandidates.sourceRoots, endpointsOf, flatMap_cons, flatMap_nil, append_nil, PhantomNode.sourceRoots] at hs
  obtain ⟨dir, -, rfl⟩ := mem_map.1 hs
  cases dir <;> simp [SnappedPhantom.traversed, PhantomNode.segmentId, apart]

theorem key_of_target (apart : target.forwardSegmentId.id ≠ target.reverseSegmentId.id) {t : Fin n × ℤ}
    (ht : t ∈ (endpointsOf source target).targetRoots) : t.2 = target.weightPlusOffset (target.traversed t.1) := by
  simp only [PhantomEndpointCandidates.targetRoots, endpointsOf, flatMap_cons, flatMap_nil, append_nil, PhantomNode.targetRoots] at ht
  obtain ⟨dir, -, rfl⟩ := mem_map.1 ht
  cases dir <;> simp [SnappedPhantom.traversed, PhantomNode.segmentId, apart]

end Searched

/-- A road of two segments of weights `4` and `6`. -/
def bend : SegmentData :=
  ⟨[0, 1, 2], [4194303, 4, 6], [4, 6, 4194303], [4194303, 4, 6], [4, 6, 4194303], [0, 0, 0], [0, 0, 0], by decide, by decide⟩

def outward : Fin 2 := ⟨0, Nat.two_pos⟩

def homeward : Fin 2 := ⟨1, Nat.one_lt_two⟩

/-- Both directions of the road, with a turn from the end of one to the start of the other. -/
def bendGeometry : GeometryFacade (Fin 2) := ⟨fun u => ⟨0, u.val = 0⟩, fun _ => bend, fun _ => false⟩

def bendFacade : Mld.Facade 2 where
  graph := .ofEdges [⟨outward, homeward, ⟨0, 10, 10, 10, true, false⟩⟩]
  partition := .undivided
  metric := CellStorage.makeMetric
  excludeNode _ := false
  nodeWeight _ := 10
  weightPenalty _ := 0

/-- A point on the road, by the directions it may be used in, its segment and its place on the segment. -/
def bendPoint (forward reverse : Bool) (position : ℕ) (ratio : ℚ) : SnappedPhantom (Fin 2) :=
  bendGeometry.makePhantomNode {} ⟨⟨outward, forward⟩, ⟨homeward, reverse⟩, position⟩ ratio

theorem bend_query : Mld.ConnectedQuery bendFacade (endpointsOf (bendPoint true false 0 (1 / 2)) (bendPoint false true 1 (1 / 2))) := by
  have source : (endpointsOf (bendPoint true false 0 (1 / 2)) (bendPoint false true 1 (1 / 2))).sourceRoots = [(0, -2)] := by
    decide +kernel
  have target : (endpointsOf (bendPoint true false 0 (1 / 2)) (bendPoint false true 1 (1 / 2))).targetRoots = [(1, 3)] := by
    decide +kernel
  have arcs : ∀ u, ∀ e ∈ bendFacade.graph.edges u, e.data.forward = true → (10 : ℤ) + ![10, 0] e.target = ![10, 0] u := by
    decide
  have steps : ∀ u v c, bendFacade.arcs u v c → 0 < c ∧ c + ![10, 0] v = ![10, 0] u := by
    rintro u v c ⟨e, he, rfl, forward, rfl⟩
    exact ⟨show (0 : ℤ) < 10 by decide, arcs u e he forward⟩
  have length : ∀ {u v d}, Lib.Walk bendFacade.allowedArcs u v d → d + ![10, 0] v = ![10, 0] u := by
    intro u v d walk
    induction walk with
    | nil u => simp
    | cons arc _ ih =>
      have := (steps _ _ _ arc.1).2
      omega
  have walk : Lib.Walk bendFacade.allowedArcs 0 1 10 := .single ⟨⟨_, mem_cons_self, rfl, rfl, rfl⟩, rfl, rfl⟩
  have total : (11 : ℤ) ∈ Lib.Totals bendFacade.allowedArcs [(0, -2)] [(1, 3)] := Lib.mem_totals_singleton.2 ⟨10, walk, rfl⟩
  have down : ∀ u v c, bendFacade.arcs u v c → 0 < c ∧ c + ![10, 0] v ≤ ![10, 0] u :=
    fun u v c arc => ⟨(steps u v c arc).1, (steps u v c arc).2.le⟩
  constructor
  · exact Mld.Facade.exact_of_height (by decide) (Mld.mirrored_of_turns (by decide)) ![10, 0] down (by decide) rfl (by decide)
  · refine ⟨by rw [source]; decide, by rw [target]; decide, fun _ _ => rfl, fun _ _ => rfl, ?_, ?_⟩
    · exact .of_height ![10, 0] (fun u v c arc => (down u v c arc).2) (by rw [source, target]; decide)
    rw [source, target]
    intro k mem
    obtain ⟨d, walk, rfl⟩ := Lib.mem_totals_singleton.1 mem
    have : d + 0 = 10 := length walk
    omega
  · rw [source, target]
    exact fun _ _ => ⟨11, total, by decide⟩
  · rw [source, target]
    exact ⟨11, total⟩

end Osrm
