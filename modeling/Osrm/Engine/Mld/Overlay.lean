import Osrm.Lib.Bidirectional
import Osrm.Engine.Mld.RoutingBase

/-!
# What the multi-level query follows

The query levels divide the nodes into regions: a node of level `l` belongs to its cell on
level `l`, where all nodes have the same level (`Leveled.stable`). Between the regions the
query follows edges, inside a region the rows of an exact metric. It is a search on the
overlay of the regions, forward and backward (`offers_pruned`).

The level rule of a whole route and that of the search of one cell are both `Leveled`
(`leveled_candidates`, `leveled_restricted`).
-/

namespace Osrm.Mld

open List

open Lib Lib.KeyedQueue MultiLevelPartition CellStorage

variable {n : ℕ}

def Facade.arcs (F : Facade n) : Arcs (Fin n) := fun u v c =>
  ∃ e ∈ F.graph.edges u, e.target = v ∧ e.data.forward = true ∧ F.nodeWeight u + F.weightPenalty e.data.turnId = c

/-- The nodes that a query may use. -/
def Facade.allowed (F : Facade n) (u : Fin n) : Bool := !F.excludeNode u

variable (F : Facade n) (args : Args n)

abbrev level (u : Fin n) : ℕ := getNodeQueryLevel F.partition u args

/-- A node that a search with these arguments may use. -/
def permitted (u : Fin n) : Bool :=
  F.allowed u && checkParentCellRestriction (F.partition.cell (level F args u + 1) u) args

def flatArcs : Arcs (Fin n) := fun u v c => F.arcs u v c ∧ permitted F args u = true ∧ permitted F args v = true

/-- `u` and `v` share the cell in which the query sees `u`. -/
def SameRegion (u v : Fin n) : Prop := F.partition.SameCell (level F args u) u v

/-- A node with a row in the cell in which the query sees it. -/
def IsEntry (u : Fin n) : Prop := IsSource F.partition F.graph (level F args u) u

/-- A node with a column in the cell in which the query sees it. -/
def IsExit (v : Fin n) : Prop := IsDestination F.partition F.graph (level F args v) v

abbrev crossArcs : Arcs (Fin n) := crossing (flatArcs F args) (SameRegion F args)

abbrev cliqueArcs : Arcs (Fin n) := clique (inner (flatArcs F args) (SameRegion F args)) (IsEntry F args) (IsExit F args)

abbrev overlayArcs : Arcs (Fin n) := overlay (flatArcs F args) (SameRegion F args) (IsEntry F args) (IsExit F args)

/-- The arcs whose weights a search adds to its labels: also an edge from a node to itself. -/
def addedArcs (dir : Bool) : Arcs (Fin n) := fun u v c =>
  along dir (flatArcs F args) u v c ∨ along dir (cliqueArcs F args) u v c

/-- The labels of the roots of both searches. -/
abbrev rootsOf (sources targets : List (Fin n × ℤ)) (dir : Bool) : List (Label (Fin n) (HeapData n)) :=
  if dir then rootLabels sources else rootLabels targets

/-- The sums of both searches stay below `2 ^ 30`, so that two of them can be added. -/
def SumsFit (sources targets : List (Fin n × ℤ)) : Prop := ∀ dir, KeysWithin (along dir (overlayArcs F args))
  (addedArcs F args dir) (rootsOf sources targets dir) (2 ^ 30)

/-- Both entries of an edge charge it the same. Where opposite edges have been merged into one entry, that entry has
the turn of one of them only. -/
def Facade.Mirrored (F : Facade n) : Prop := ∀ u v c, F.arcs u v c ↔
  ∃ e ∈ F.graph.edges v, e.target = u ∧ e.data.backward = true ∧ F.nodeWeight u + F.weightPenalty e.data.turnId = c

/-- Exactly customized cells under positive weights that both ends of an edge agree on. -/
structure Facade.Exact (F : Facade n) : Prop where
  few : ∀ u, (F.graph.edges u).length ≤ 255
  mirrored : F.Mirrored
  positive : Positive F.arcs
  exact : ∀ l, 1 ≤ l → l < F.partition.numLevels → ExactLevel F.partition F.graph F.allowed F.arcs F.metric l
  cells : ∀ l u x, l + 1 < F.partition.numLevels → F.partition.SameCell (l + 1) u x →
    SumsFit F (.restricted l (F.partition.cell (l + 1) u)) [(u, 0)] [(x, 0)]

/-- The query level is constant on the cells it selects, which lie within the permitted part. -/
structure Leveled : Prop where
  lt : ∀ u, level F args u < F.partition.numLevels
  stable : ∀ u v, SameRegion F args u v → level F args v = level F args u
  closed : ∀ u v, SameRegion F args u v → F.allowed v = true → permitted F args u = true → permitted F args v = true

variable {F args} {u v : Fin n} {c d : ℤ} {dir : Bool}

theorem linked_of_arcs (arc : F.arcs u v c) : F.graph.Linked u v := by
  obtain ⟨e, he, target, forward, -⟩ := arc
  exact ⟨e, he, target, forward⟩

theorem flatArcs_positive (exact : F.Exact) : Positive (flatArcs F args) := fun u v c arc => exact.positive u v c arc.1

section Leveled

variable (leveled : Leveled F args)

include leveled

theorem Leveled.symm (same : SameRegion F args u v) : SameRegion F args v u := by
  have level := leveled.stable u v same
  unfold SameRegion at same ⊢
  rw [level]
  exact same.symm

/-- Walks inside a region are walks inside its cell. -/
theorem Leveled.inner_walk (start : permitted F args u = true) :
    Walk (inner (flatArcs F args) (SameRegion F args)) u v d ↔
      Walk (cellArcs F.partition F.allowed F.arcs (level F args u)) u v d := by
  have allowed : ∀ {x}, permitted F args x = true → F.allowed x = true := fun h => (Bool.and_eq_true_iff.1 h).1
  constructor
  · intro walk
    clear start
    induction walk with
    | nil u => exact .nil u
    | @cons u x v c d arc rest ih =>
      obtain ⟨⟨arc, pu, px⟩, same⟩ := arc
      rw [leveled.stable u x same] at ih
      exact .cons ⟨arc, allowed pu, allowed px, same⟩ ih
  · intro walk
    generalize here : level F args u = l at walk
    induction walk with
    | nil u => exact .nil u
    | @cons u x v c d arc rest ih =>
      subst here
      obtain ⟨arc, -, ax, same⟩ := arc
      have px := leveled.closed u x same ax start
      exact .cons ⟨⟨arc, start, px⟩, same⟩ (ih px (leveled.stable u x same))

/-- The cliques of the regions are what the metric stores. -/
theorem Leveled.clique_iff (exact : F.Exact) (start : permitted F args u = true) :
    cliqueArcs F args u v c ↔
      1 ≤ level F args u ∧ tableArcs F.partition F.graph F.metric (level F args u) u v c := by
  have walks : {w | Walk (inner (flatArcs F args) (SameRegion F args)) u v w} =
      {w | Walk (cellArcs F.partition F.allowed F.arcs (level F args u)) u v w} :=
    Set.ext fun w => leveled.inner_walk start
  have tables : 1 ≤ level F args u → (tableArcs F.partition F.graph F.metric (level F args u) u v c ↔
      clique (cellArcs F.partition F.allowed F.arcs (level F args u)) (IsSource F.partition F.graph (level F args u))
        (IsDestination F.partition F.graph (level F args u)) u v c) := by
    intro one
    rw [(exact.exact _ one (leveled.lt u)).tableArcs_eq]
  constructor
  · rintro ⟨entry, exit, ne, least⟩
    rw [walks] at least
    have same := sameCell_of_walk least.1
    have one : 1 ≤ level F args u := by
      by_contra zero
      have : level F args u = 0 := by omega
      rw [this] at same
      exact ne same
    unfold IsExit at exit
    rw [leveled.stable u v same] at exit
    exact ⟨one, (tables one).2 ⟨entry, exit, ne, least⟩⟩
  · rintro ⟨one, table⟩
    obtain ⟨source, destination, ne, least⟩ := (tables one).1 table
    have same := sameCell_of_walk least.1
    refine ⟨source, ?_, ne, by rw [walks]; exact least⟩
    unfold IsExit
    rw [leveled.stable u v same]
    exact destination

/-- The weight of an edge of `node` that leads to, or in the other direction comes from, its target. -/
def edgeWeight (F : Facade n) (dir : Bool) (node : Fin n) (edge : DynamicEdge n EdgeBasedGraphEdgeData) : ℤ :=
  F.nodeWeight (leftNode dir node edge) + F.weightPenalty edge.data.turnId

/-- All labels that `relaxOutgoingEdges` offers; `add` extends the weight of a label. -/
def allOffers (F : Facade n) (args : Args n) (dir : Bool) (add : ℤ → ℤ → ℤ) (p : Label (Fin n) (HeapData n)) :
    List (Label (Fin n) (HeapData n)) :=
  (if 1 ≤ level F args p.node && !p.data.fromCliqueArc then
    ((shortcuts F dir (level F args p.node) p.node).filter fun s =>
      s.2.weight ≠ invalidEdgeWeight && p.node ≠ s.1).map fun s => ⟨s.1, add p.weight s.2.weight, ⟨p.node, true⟩⟩
    else []) ++
  ((F.graph.borderEdgeRange F.partition (level F args p.node) p.node).filter fun e => e.data.flag dir &&
    (!F.excludeNode e.target && checkParentCellRestriction (F.partition.cell (level F args p.node + 1) e.target) args)).map
      fun e => ⟨e.target, add p.weight (edgeWeight F dir p.node e), ⟨p.node, false⟩⟩

/-- The labels that a permitted node offers to other nodes. -/
def offers (F : Facade n) (args : Args n) (dir : Bool) (p : Label (Fin n) (HeapData n)) : List (Label (Fin n) (HeapData n)) :=
  if permitted F args p.node then (allOffers F args dir (· + ·) p).filter (·.node ≠ p.node) else []

omit leveled in
theorem relaxOutgoingEdges_eq (p : Label (Fin n) (HeapData n)) (heap : QueryHeap n) :
    relaxOutgoingEdges F dir args p heap = (allOffers F args dir add32 p).foldl (relax lighter) heap := by
  have fold : ∀ {α : Type} (l : List α) (test : α → Bool) (f : α → Label (Fin n) (HeapData n)) (heap : QueryHeap n),
      l.foldl (fun heap a => if test a then heap.relax lighter (f a) else heap) heap =
        ((l.filter test).map f).foldl (relax lighter) heap := by
    intro α l test f
    induction l with
    | nil => intro heap; rfl
    | cons a l ih =>
      intro heap
      rw [foldl_cons, ih, filter_cons]
      cases test a <;> rfl
  have nested : ∀ (heap : QueryHeap n) (x y : Bool) (l : Label (Fin n) (HeapData n)),
      (if x = true then if y = true then heap.relax lighter l else heap else heap) =
        if (x && y) = true then heap.relax lighter l else heap := by
    intro heap x y l
    cases x <;> simp
  unfold relaxOutgoingEdges allOffers
  rw [foldl_append]
  simp only [nested, fold, add32_add32]
  congr 1
  split
  · rfl
  · rfl

omit leveled in
/-- The shortcuts of a node are the entries of the metric at its row or column. -/
theorem mem_shortcuts {l : ℕ} (one : 1 ≤ l) {s : Fin n × CellValue} : s ∈ shortcuts F dir l u ∧ u ≠ s.1 ∧
    s.2.weight ≠ invalidEdgeWeight ↔ along dir (tableArcs F.partition F.graph F.metric l) u s.1 s.2.weight ∧
      s.2 = if dir then F.metric.value l u s.1 else F.metric.value l s.1 u := by
  have zip : ∀ (l : List (Fin n)) (f : Fin n → CellValue), l.zip (l.map f) = l.map fun x => (x, f x) := by
    intro l f
    induction l with
    | nil => rfl
    | cons x l ih => simp [ih]
  obtain ⟨t, value⟩ := s
  cases dir with
  | true =>
    have any : (sourceNodes F.partition F.graph l (F.partition.cell l u)).any (· = u) = true ↔ IsSource F.partition F.graph l u := by
      simp [IsSource]
    simp only [shortcuts, if_true, along, outRange, tableArcs, sameCell_pos one]
    by_cases source : IsSource F.partition F.graph l u
    · rw [if_pos (any.2 source), zip, mem_map]
      simp only [mem_destinationNodes_iff, Prod.mk.injEq]
      constructor
      · rintro ⟨⟨t', ⟨cell, destination⟩, rfl, rfl⟩, ne, valid⟩
        exact ⟨⟨source, destination, cell.symm, ne, rfl, valid⟩, rfl⟩
      · rintro ⟨⟨-, destination, cell, ne, -, valid⟩, rfl⟩
        exact ⟨⟨t, ⟨cell.symm, destination⟩, rfl, rfl⟩, ne, valid⟩
    · rw [if_neg (mt any.1 source)]
      simp [source]
  | false =>
    have any : (destinationNodes F.partition F.graph l (F.partition.cell l u)).any (· = u) = true ↔
        IsDestination F.partition F.graph l u := by
      simp [IsDestination]
    simp only [shortcuts, Bool.false_eq_true, if_false, along, opposite, inRange, tableArcs, sameCell_pos one]
    by_cases destination : IsDestination F.partition F.graph l u
    · rw [if_pos (any.2 destination), zip, mem_map]
      simp only [mem_sourceNodes_iff, Prod.mk.injEq]
      constructor
      · rintro ⟨⟨t', ⟨cell, source⟩, rfl, rfl⟩, ne, valid⟩
        exact ⟨⟨source, destination, cell, ne.symm, rfl, valid⟩, rfl⟩
      · rintro ⟨⟨source, -, cell, ne, -, valid⟩, rfl⟩
        exact ⟨⟨t, ⟨cell, source⟩, rfl, rfl⟩, ne.symm, valid⟩
    · rw [if_neg (mt any.1 destination)]
      simp [destination]

omit leveled in
/-- The nodes an edge may lead to are the permitted ones, whatever the level of the node it is listed at. -/
theorem permitted_iff (u v : Fin n) : permitted F args v = true ↔
    (!F.excludeNode v && checkParentCellRestriction (F.partition.cell (level F args u + 1) v) args) = true := by
  cases args <;> rfl

/-- The edges that a permitted node follows are the crossing arcs. -/
theorem Leveled.crossing_iff (exact : F.Exact) (start : permitted F args u = true) (ne : v ≠ u) :
    along dir (crossArcs F args) u v c ↔
      ∃ e ∈ F.graph.borderEdgeRange F.partition (level F args u) u, e.target = v ∧ e.data.flag dir = true ∧
        permitted F args v = true ∧ edgeWeight F dir u e = c := by
  have leaves : (level F args u = 0 ∨ ¬ F.partition.SameCell (level F args u) u v) ↔ ¬ SameRegion F args u v := by
    unfold SameRegion
    by_cases zero : level F args u = 0
    · rw [zero, sameCell_zero]
      simp [ne.symm]
    · simp [zero]
  have listed : ∀ e : DynamicEdge n EdgeBasedGraphEdgeData, e.target = v →
      (e ∈ F.graph.borderEdgeRange F.partition (level F args u) u ↔ e ∈ F.graph.edges u ∧ ¬ SameRegion F args u v) := by
    rintro e rfl
    rw [MultiLevelGraph.mem_borderEdgeRange (exact.few u) (leveled.lt u), leaves]
  cases dir with
  | true =>
    constructor
    · rintro ⟨⟨⟨e, he, target, forward, weight⟩, -, permitted⟩, differ⟩
      exact ⟨e, (listed e target).2 ⟨he, differ⟩, target, forward, permitted, weight⟩
    · rintro ⟨e, he, target, forward, permitted, weight⟩
      obtain ⟨he, differ⟩ := (listed e target).1 he
      exact ⟨⟨⟨e, he, target, forward, weight⟩, start, permitted⟩, differ⟩
  | false =>
    -- the arc is listed backward at the end it enters
    constructor
    · rintro ⟨⟨arc, permitted, -⟩, differ⟩
      obtain ⟨e, he, target, backward, weight⟩ := (exact.mirrored v u c).1 arc
      have differ' := fun same => differ (leveled.symm same)
      exact ⟨e, (listed e target).2 ⟨he, differ'⟩, target, backward, permitted, by rw [← weight, ← target]; rfl⟩
    · rintro ⟨e, he, target, backward, permitted, weight⟩
      obtain ⟨he, differ⟩ := (listed e target).1 he
      refine ⟨⟨(exact.mirrored v u c).2 ⟨e, he, target, backward, ?_⟩, permitted, start⟩, fun same => differ (leveled.symm same)⟩
      rw [← weight, ← target]
      rfl

/-- The cliques of the regions as a search in one direction sees them. -/
theorem Leveled.clique_along_iff (exact : F.Exact) (start : permitted F args u = true) :
    along dir (cliqueArcs F args) u v c ↔
      1 ≤ level F args u ∧ along dir (tableArcs F.partition F.graph F.metric (level F args u)) u v c := by
  cases dir with
  | true => exact leveled.clique_iff exact start
  | false =>
    change cliqueArcs F args v u c ↔ 1 ≤ level F args u ∧ tableArcs _ _ _ (level F args u) v u c
    constructor
    · intro arc
      obtain ⟨x, _, first, -⟩ := (clique_walk arc).leaves arc.2.2.1
      obtain ⟨one, table⟩ := (leveled.clique_iff exact first.1.2.1).1 arc
      have same := leveled.stable v u table.2.2.1
      rw [same]
      exact ⟨one, table⟩
    · rintro ⟨one, table⟩
      have walk : Walk (cellArcs F.partition F.allowed F.arcs (level F args u)) v u c := by
        rw [(exact.exact _ one (leveled.lt u)).tableArcs_eq] at table
        exact clique_walk table
      have same : SameRegion F args u v := table.2.2.1.symm
      obtain ⟨x, _, first, -⟩ := walk.leaves table.2.2.2.1
      have permitted := leveled.closed u v same first.2.1 start
      rw [leveled.clique_iff exact permitted, leveled.stable u v same]
      exact ⟨one, table⟩

omit leveled in
/-- An edge that a search looks at is an arc. -/
theorem flat_of_edge (exact : F.Exact) (start : permitted F args u = true) {e : DynamicEdge n EdgeBasedGraphEdgeData}
    (he : e ∈ F.graph.edges u) (flag : e.data.flag dir = true) (target : permitted F args e.target = true) :
    along dir (flatArcs F args) u e.target (edgeWeight F dir u e) := by
  cases dir with
  | true => exact ⟨⟨e, he, rfl, flag, rfl⟩, start, target⟩
  | false => exact ⟨(exact.mirrored _ _ _).2 ⟨e, he, rfl, flag, rfl⟩, target, start⟩

/-- Where no sum overflows, the code's sums are the sums. -/
theorem allOffers_add32 (exact : F.Exact) {p : Label (Fin n) (HeapData n)} (start : permitted F args p.node = true)
    (sums : ∀ v c, addedArcs F args dir p.node v c → add32 p.weight c = p.weight + c) :
    allOffers F args dir add32 p = allOffers F args dir (· + ·) p := by
  unfold allOffers
  congr 1
  · split_ifs with scanned
    · simp only [Bool.and_eq_true, decide_eq_true_eq, Bool.not_eq_true'] at scanned
      refine map_congr_left fun s hs => ?_
      simp only [mem_filter, Bool.and_eq_true, decide_eq_true_eq] at hs
      have table := ((mem_shortcuts scanned.1).1 ⟨hs.1, hs.2.2, hs.2.1⟩).1
      rw [sums s.1 _ (.inr ((leveled.clique_along_iff exact start).2 ⟨scanned.1, table⟩))]
    · rfl
  · refine map_congr_left fun e he => ?_
    simp only [mem_filter, Bool.and_eq_true] at he
    obtain ⟨he, flag, target⟩ := he
    have listed := ((MultiLevelGraph.mem_borderEdgeRange (exact.few _) (leveled.lt _)).1 he).1
    have permitted := (permitted_iff p.node e.target).2 (by simpa using target)
    rw [sums e.target _ (.inl (flat_of_edge exact start listed flag permitted))]

/-- What a node offers: crossing arcs, and clique arcs unless it was reached along one. -/
theorem mem_offers (exact : F.Exact) {p o : Label (Fin n) (HeapData n)} :
    o ∈ offers F args dir p ↔ permitted F args p.node = true ∧ o.node ≠ p.node ∧
      ((p.data.fromCliqueArc = false ∧ o.data = ⟨p.node, true⟩ ∧ along dir (cliqueArcs F args) p.node o.node (o.weight - p.weight)) ∨
        (o.data = ⟨p.node, false⟩ ∧ along dir (crossArcs F args) p.node o.node
          (o.weight - p.weight))) := by
  unfold offers
  by_cases start : permitted F args p.node = true
  · rw [if_pos start, mem_filter, decide_eq_true_eq, allOffers, mem_append]
    simp only [start, true_and]
    rw [and_comm]
    refine and_congr_right fun ne => or_congr ?_ ?_
    · rw [leveled.clique_along_iff exact start]
      constructor
      · intro mem
        split_ifs at mem with scanned
        · simp only [Bool.and_eq_true, decide_eq_true_eq, Bool.not_eq_true'] at scanned
          simp only [mem_map, mem_filter, Bool.and_eq_true, decide_eq_true_eq] at mem
          obtain ⟨s, ⟨hs, valid, other⟩, rfl⟩ := mem
          have table := ((mem_shortcuts scanned.1).1 ⟨hs, other, valid⟩).1
          refine ⟨scanned.2, rfl, scanned.1, ?_⟩
          simpa using table
        · cases mem
      · rintro ⟨flag, data, one, table⟩
        rw [if_pos (by simp [one, flag])]
        simp only [mem_map, mem_filter, Bool.and_eq_true, decide_eq_true_eq]
        have value : (if dir then F.metric.value (level F args p.node) p.node o.node
            else F.metric.value (level F args p.node) o.node p.node).weight = o.weight - p.weight := by
          cases dir
          · exact table.2.2.2.2.1
          · exact table.2.2.2.2.1
        obtain ⟨hs, other, valid⟩ := (mem_shortcuts (s := (o.node, if dir then F.metric.value (level F args p.node) p.node o.node
          else F.metric.value (level F args p.node) o.node p.node)) one).2 ⟨by rw [value]; exact table, rfl⟩
        refine ⟨_, ⟨hs, valid, other⟩, ?_⟩
        cases o
        simp only at data value
        simp only [data, Label.mk.injEq, true_and, and_true]
        omega
    · rw [leveled.crossing_iff exact start ne]
      simp only [mem_map, mem_filter, Bool.and_eq_true]
      constructor
      · rintro ⟨e, ⟨he, flag, target⟩, rfl⟩
        refine ⟨rfl, e, he, rfl, flag, (permitted_iff p.node e.target).2 (by simpa using target), ?_⟩
        simp
      · rintro ⟨data, e, he, target, flag, permitted, weight⟩
        rw [← target, permitted_iff p.node e.target, Bool.and_eq_true] at permitted
        refine ⟨e, ⟨he, flag, permitted⟩, ?_⟩
        cases o
        simp only at data target weight
        simp only [data, Label.mk.injEq, and_true]
        omega
  · simp [start]

omit leveled in
theorem along_overlay : along dir (overlayArcs F args) u v c ↔
    along dir (crossArcs F args) u v c ∨
      along dir (cliqueArcs F args) u v c := by
  cases dir <;> rfl

omit leveled in
theorem along_positive {A : Arcs (Fin n)} (pos : Positive A) : Positive (along dir A) := by
  intro u v c arc
  cases dir
  · exact pos v u c arc
  · exact pos u v c arc

/-- **The query is a search on the overlay of the regions.** -/
theorem offers_pruned (exact : F.Exact) :
    Pruned (offers F args dir) HeapData.fromCliqueArc (along dir (crossArcs F args))
      (along dir (cliqueArcs F args)) where
  crosses p v c arc := by
    by_cases ne : v = p.node
    · exact .inl ne
    · have start : permitted F args p.node = true := by
        cases dir
        · exact arc.1.2.2
        · exact arc.1.2.1
      refine .inr ⟨⟨v, p.weight + c, ⟨p.node, false⟩⟩, (mem_offers leveled exact).2 ⟨start, ne, .inr ⟨rfl, ?_⟩⟩, rfl, rfl⟩
      simpa using arc
  jumps p v c flag arc := by
    have ends : v ≠ p.node ∧ permitted F args p.node = true := by
      cases dir
      · obtain ⟨x, _, last, -⟩ := (clique_walk arc).arrives arc.2.2.1
        exact ⟨arc.2.2.1, last.1.2.2⟩
      · obtain ⟨x, _, first, -⟩ := (clique_walk arc).leaves arc.2.2.1
        exact ⟨arc.2.2.1.symm, first.1.2.1⟩
    refine ⟨⟨v, p.weight + c, ⟨p.node, true⟩⟩, (mem_offers leveled exact).2 ⟨ends.2, ends.1, .inl ⟨flag, rfl, ?_⟩⟩, rfl, rfl⟩
    simpa using arc
  origin p o offered := by
    obtain ⟨-, -, ⟨flag, data, arc⟩ | ⟨data, arc⟩⟩ := (mem_offers leveled exact).1 offered
    · exact .inr ⟨by rw [data], flag, arc⟩
    · exact .inl ⟨by rw [data], arc⟩

omit leveled in
theorem crossing_positive (exact : F.Exact) : Positive (along dir (crossArcs F args)) :=
  along_positive fun u v c arc => exact.positive u v c arc.1.1

omit leveled in
theorem cliques_positive (exact : F.Exact) :
    Positive (along dir (cliqueArcs F args)) :=
  along_positive (clique_positive fun u v c arc => exact.positive u v c arc.1.1)

theorem offers_ascending (exact : F.Exact) : Ascending (offers F args dir) :=
  (offers_pruned leveled exact).ascending (crossing_positive exact) (cliques_positive exact)

/-- What is offered stands for an arc of the overlay. -/
theorem offers_arcs (exact : F.Exact) (p : Label (Fin n) (HeapData n)) :
    ∀ o ∈ offers F args dir p, along dir (overlayArcs F args) p.node o.node (o.weight - p.weight) := by
  intro o offered
  rw [along_overlay]
  rcases (offers_pruned leveled exact).origin p o offered with ⟨-, arc⟩ | ⟨-, -, arc⟩
  · exact .inl arc
  · exact .inr arc

omit leveled in
theorem walk_of_overlay (arc : along dir (overlayArcs F args) u v c) : Walk (along dir (flatArcs F args)) u v c := by
  cases dir
  · exact (overlay_walk arc).reverse
  · exact overlay_walk arc

/-- What is offered stands for a walk. -/
theorem offers_sound (exact : F.Exact) (p : Label (Fin n) (HeapData n)) :
    ∀ o ∈ offers F args dir p, Walk (along dir (flatArcs F args)) p.node o.node (o.weight - p.weight) :=
  fun o offered => walk_of_overlay (offers_arcs leveled exact p o offered)

/-- A settled label has been carried along the overlay. -/
theorem offers_followed (exact : F.Exact) {roots : List (Label (Fin n) (HeapData n))}
    (unmarked : ∀ l ∈ roots, l.data.fromCliqueArc = false) {heap : QueryHeap n}
    (inv : Settling (offers F args dir) (· ∈ roots) (fun _ => False) heap) : Followed (along dir (overlayArcs F args)) heap := by
  have positive : Positive (inner (flatArcs F args) (SameRegion F args)) := fun u v c arc => exact.positive u v c arc.1.1
  have trans : ∀ u v w c c', along dir (cliqueArcs F args) u v c →
      along dir (cliqueArcs F args) v w c' →
      u = w ∨ ∃ c'' ≤ c + c', along dir (cliqueArcs F args) u w c'' := by
    intro u v w c c' first second
    cases dir
    · rcases clique_trans positive second first with same | ⟨c'', le, arc⟩
      · exact .inl same.symm
      · exact .inr ⟨c'', by omega, arc⟩
    · exact clique_trans positive first second
  have followed := (offers_pruned leveled exact).followed (crossing_positive exact) (cliques_positive exact) trans unmarked inv
  intro p hp settled v c arc
  exact followed p hp settled v c (along_overlay.1 arc)

/-- Between nodes without a region of their own or on the boundary of it, the overlay has the arcs it needs. -/
theorem Leveled.doors {s t : Fin n}
    (hs : 1 ≤ level F args s → isBoundaryNode F.partition F.graph (level F args s) s = true)
    (ht : 1 ≤ level F args t → isBoundaryNode F.partition F.graph (level F args t) t = true) :
    Doors (flatArcs F args) (SameRegion F args) (IsEntry F args) (IsExit F args) s t := by
  have above : ∀ {u x : Fin n}, F.partition.SameCell (level F args u) u x → u ≠ x → 1 ≤ level F args u := by
    intro u x same ne
    by_contra zero
    rw [show level F args u = 0 by omega] at same
    exact ne same
  constructor
  · intro u x c arc ne enters
    have one := above arc.2 ne
    apply isSource_of_boundary one _ (linked_of_arcs arc.1.1) arc.2
    rcases enters with rfl | ⟨y, c', cross⟩
    · exact hs one
    · exact isBoundaryNode_of_entered one (linked_of_arcs cross.1.1) fun same => cross.2 (leveled.symm same.symm)
  · intro v x c arc ne leaves
    have back := leveled.symm arc.2
    have one := above back ne.symm
    apply isDestination_of_boundary one _ (linked_of_arcs arc.1.1) back.symm
    rcases leaves with rfl | ⟨y, c', cross⟩
    · exact ht one
    · exact isBoundaryNode_of_left one (linked_of_arcs cross.1.1) cross.2

end Leveled

/-- Where all arcs go down a height, the height bounds the sums. -/
theorem SumsFit.of_height {sources targets : List (Fin n × ℤ)} (h : Fin n → ℤ) (arc : ∀ u v c, F.arcs u v c → c + h v ≤ h u)
    (roots : ∀ r ∈ sources ++ targets, -2 ^ 30 < r.2 ∧ r.2 < 2 ^ 30 ∧ ∀ u v, r.2 + (h u - h v) < 2 ^ 30) :
    SumsFit F args sources targets := by
  intro dir
  have flat : ∀ u v c, along dir (flatArcs F args) u v c → c + (if dir then h v else -h v) ≤ if dir then h u else -h u := by
    intro u v c edge
    cases dir
    · have := arc v u c edge.1
      simp only [Bool.false_eq_true, if_false]
      omega
    · exact arc u v c edge.1
  have down : ∀ u v c, along dir (overlayArcs F args) u v c → c + (if dir then h v else -h v) ≤ if dir then h u else -h u :=
    fun u v c arc => (walk_of_overlay arc).le_height flat
  refine .of_height (fun v => if dir then h v else -h v) down ?_ fun l hl => ?_
  · rintro u v c (edge | clique)
    · exact flat u v c edge
    · exact down u v c (along_overlay.2 (.inr clique))
  · have mem : ∃ r ∈ sources ++ targets, l.weight = r.2 := by
      cases dir
      · obtain ⟨r, hr, rfl⟩ := mem_map.1 hl
        exact ⟨r, mem_append_right _ hr, rfl⟩
      · obtain ⟨r, hr, rfl⟩ := mem_map.1 hl
        exact ⟨r, mem_append_left _ hr, rfl⟩
    obtain ⟨r, hr, weight⟩ := mem
    obtain ⟨low, high, sums⟩ := roots r hr
    refine ⟨by omega, by omega, fun v => ?_⟩
    have := sums l.node v
    have := sums v l.node
    cases dir
    · simp only [Bool.false_eq_true, if_false]
      omega
    · simp only [if_true]
      omega

/-- The rule of the search of one cell. -/
theorem leveled_restricted {l parent : ℕ} (lt : l + 1 < F.partition.numLevels) : Leveled F (.restricted l parent) where
  lt _ := by
    change l < _
    omega
  stable _ _ _ := rfl
  closed u v same allowed permitted := by
    have here := (sameCell_pos (by omega)).1 (MultiLevelPartition.SameCell.up same (Nat.le_succ l) lt)
    simp only [Mld.permitted, Bool.and_eq_true] at permitted ⊢
    exact ⟨allowed, here ▸ permitted.2⟩

section Candidates

variable {P : MultiLevelPartition n} {endpoints : PhantomEndpointCandidates (Fin n)} {m : ℕ} {x : Fin n}

variable (endpoints x) in
/-- A node of an enabled segment of the source where some segment of the target is enabled, or the other way round. -/
def IsTerminal : Prop :=
  ∃ s ∈ endpoints.sourcePhantoms, ∃ t ∈ endpoints.targetPhantoms, ∃ dir dir' : Bool, (s.segmentId dir).enabled = true ∧
    (t.segmentId dir').enabled = true ∧ (x = (s.segmentId dir).id ∨ x = (t.segmentId dir').id)

theorem le_segmentLevel {source target : SegmentID (Fin n)} (bound : m ≤ invalidLevelId) :
    m ≤ segmentLevel P u source target ↔ (source.enabled = true → target.enabled = true →
      m ≤ P.highestDifferentLevel source.id u ∧ m ≤ P.highestDifferentLevel target.id u) := by
  unfold segmentLevel queryLevel
  split
  · rename_i both
    rw [Bool.and_eq_true] at both
    simp [both.1, both.2]
  · rename_i missing
    rw [Bool.and_eq_true] at missing
    exact ⟨fun _ es et => absurd ⟨es, et⟩ missing, fun _ => bound⟩

theorem le_phantomLevel {s t : PhantomNode (Fin n)} : m ≤ phantomLevel P u s t ↔
    ∀ dir dir', m ≤ segmentLevel P u (s.segmentId dir) (t.segmentId dir') := by
  simp only [phantomLevel, le_min_iff, Bool.forall_bool]
  tauto

/-- The level of a node is the least of its highest different levels to the terminals. -/
theorem le_candidatesLevel : m ≤ candidatesLevel P u endpoints ↔
    m ≤ invalidLevelId ∧ ∀ x, IsTerminal endpoints x → m ≤ P.highestDifferentLevel x u := by
  have inner : ∀ (ts : List (PhantomNode (Fin n))) (s : PhantomNode (Fin n)) (start : ℕ),
      m ≤ ts.foldl (fun l t => min l (phantomLevel P u s t)) start ↔ m ≤ start ∧ ∀ t ∈ ts, m ≤ phantomLevel P u s t := by
    intro ts s
    induction ts with
    | nil => simp
    | cons t ts ih =>
      intro start
      rw [foldl_cons, ih, le_min_iff, forall_mem_cons, and_assoc]
  have outer : ∀ (ss : List (PhantomNode (Fin n))) (start : ℕ), m ≤ ss.foldl (fun l s => min l
      (endpoints.targetPhantoms.foldl (fun l t => min l (phantomLevel P u s t)) l)) start ↔
      m ≤ start ∧ ∀ s ∈ ss, ∀ t ∈ endpoints.targetPhantoms, m ≤ phantomLevel P u s t := by
    intro ss
    induction ss with
    | nil => simp
    | cons s ss ih =>
      intro start
      rw [foldl_cons, ih, le_min_iff, inner, forall_mem_cons]
      tauto
  rw [candidatesLevel, outer]
  refine and_congr_right fun bound => ?_
  simp only [le_phantomLevel, le_segmentLevel bound]
  constructor
  · rintro levels x ⟨s, hs, t, ht, dir, dir', es, et, rfl | rfl⟩
    · exact (levels s hs t ht dir dir' es et).1
    · exact (levels s hs t ht dir dir' es et).2
  · intro levels s hs t ht dir dir' es et
    exact ⟨levels _ ⟨s, hs, t, ht, dir, dir', es, et, .inl rfl⟩, levels _ ⟨s, hs, t, ht, dir, dir', es, et, .inr rfl⟩⟩

/-- A terminal is a region of its own. -/
theorem level_terminal (terminal : IsTerminal endpoints x) : level F (.candidates endpoints) x = 0 := by
  have bound := (le_candidatesLevel.1 (le_refl (level F (.candidates endpoints) x))).2 x terminal
  rw [highestDifferentLevel_self] at bound
  omega

/-- The rule of a whole route. -/
theorem leveled_candidates (terminal : IsTerminal endpoints x) : Leveled F (.candidates endpoints) where
  lt u := by
    have bound := (le_candidatesLevel.1 (le_refl (level F (.candidates endpoints) u))).2 x terminal
    have := F.partition.highestDifferentLevel_le (u := x) (v := u)
    have := F.partition.numLevels_pos
    omega
  stable u v same := by
    by_cases zero : level F (.candidates endpoints) u = 0
    · unfold SameRegion at same
      rw [zero] at same
      rw [same]
    · have far := (le_candidatesLevel.1 (le_refl (level F (.candidates endpoints) u))).2
      have short := F.partition.highestDifferentLevel_le (u := x) (v := u)
      have := far x terminal
      have agree : ∀ y, IsTerminal endpoints y →
          F.partition.highestDifferentLevel y v = F.partition.highestDifferentLevel y u := by
        intro y hy
        exact highestDifferentLevel_congr (by omega) (by omega) same (far y hy)
      have levels : ∀ m, m ≤ level F (.candidates endpoints) v ↔ m ≤ level F (.candidates endpoints) u := by
        intro m
        change m ≤ candidatesLevel _ _ _ ↔ m ≤ candidatesLevel _ _ _
        rw [le_candidatesLevel, le_candidatesLevel]
        refine and_congr_right fun _ => forall_congr' fun y => forall_congr' fun hy => ?_
        rw [agree y hy]
      exact Nat.le_antisymm ((levels _).1 le_rfl) ((levels _).2 le_rfl)
  closed u v _ allowed _ := by
    simpa [permitted, checkParentCellRestriction] using allowed

end Candidates

end Osrm.Mld
