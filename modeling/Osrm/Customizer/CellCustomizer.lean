import Osrm.Partitioner.CellStorage

/-!
# Customizing the cells

`CellCustomizer::Customize` fills the rows of a metric, level by level from below. For each
allowed source node of a cell it searches the cell until all allowed destinations are
settled. Above the first level the search runs on the overlay of the level below: along
the rows of the subcells (`relaxSubcell`) and along the edges between them
(`relaxInternal`).

The loop over a row advances the iterators over the destinations, durations and distances
by hand, and a `continue` for a destination that is not allowed leaves them where they are.
As long as no such destination has a valid weight the loop reads its row as intended
(`relaxSubcell_eq`).
-/

namespace Osrm.Customizer

open List

open Lib Lib.KeyedQueue CellStorage

variable {n : ℕ}

structure HeapData where
  fromClique : Bool
  duration : ℤ
  distance : ℚ
  deriving DecidableEq, Repr

abbrev Heap (n : ℕ) := KeyedQueue (Fin n) HeapData

/-- The comparison of `std::tie(weight, duration, distance)`. -/
def tieLess (a b : Label (Fin n) HeapData) : Bool :=
  decide (a.weight < b.weight) || (decide (a.weight = b.weight) &&
    (decide (a.data.duration < b.data.duration) || (decide (a.data.duration = b.data.duration) &&
      decide (a.data.distance < b.data.distance))))

/-- The label that `node` offers across an arc with the values `v`. -/
def offer (node : Label (Fin n) HeapData) (fromClique : Bool) (target : Fin n) (v : CellValue) : Label (Fin n) HeapData :=
  ⟨target, add32 node.weight v.weight, ⟨fromClique, add32 node.data.duration v.duration, addFloat node.data.distance v.distance⟩⟩

/-- The loop of `RelaxNode` over the weights of a row; the other lists are its iterators. -/
def relaxSubcell (allowed : Fin n → Bool) (node : Label (Fin n) HeapData) :
    List ℤ → List (Fin n) → List ℤ → List ℚ → Heap n → Heap n
  | weight :: weights, target :: targets, duration :: durations, distance :: distances, heap =>
    if weight ≠ invalidEdgeWeight then
      if allowed target then
        relaxSubcell allowed node weights targets durations distances
          (heap.relax tieLess (offer node true target ⟨weight, duration, distance⟩))
      else relaxSubcell allowed node weights (target :: targets) (duration :: durations) (distance :: distances) heap
    else relaxSubcell allowed node weights targets durations distances heap
  | _, _, _, _, heap => heap

variable (P : MultiLevelPartition n) (g : MultiLevelGraph n) (allowed : Fin n → Bool) (metric : CellMetric n) (level : ℕ)

def edgeValue (data : EdgeBasedGraphEdgeData) : CellValue := ⟨data.weight, data.duration, data.distance⟩

/-- The loop of `RelaxNode` over the edges inside the cell. -/
def relaxInternal (node : Label (Fin n) HeapData) (heap : Heap n) : Heap n :=
  (g.internalEdgeRange P level node.node).foldl (fun heap edge =>
    if allowed edge.target then
      if edge.data.forward && (level = 1 || P.cell (level - 1) node.node ≠ P.cell (level - 1) edge.target) then
        heap.relax tieLess (offer node false edge.target (edgeValue edge.data))
      else heap
    else heap) heap

/-- The row of `node` in its cell at `level`. -/
def row (node : Fin n) : List CellValue := outRange P g metric level (P.cell level node) node

def relaxNode (node : Label (Fin n) HeapData) (heap : Heap n) : Heap n :=
  let values := row P g metric (level - 1) node.node
  let heap :=
    if level ≠ 1 && !node.data.fromClique then
      relaxSubcell allowed node (values.map (·.weight)) (destinationNodes P g (level - 1) (P.cell (level - 1) node.node))
        (values.map (·.duration)) (values.map (·.distance)) heap
    else heap
  relaxInternal P g allowed level node heap

/-- The search of `Customize` from one source; the first argument bounds the iterations. -/
def explore : ℕ → Heap n → List (Fin n) → Heap n
  | 0, heap, _ => heap
  | fuel + 1, heap, destinations =>
    match heap.top? with
    | none => heap
    | some node =>
      if destinations.isEmpty then heap
      else explore fuel (relaxNode P g allowed metric level node.toLabel (heap.dequeue node.node))
        (destinations.filter (· ≠ node.node))

def root (source : Fin n) : Label (Fin n) HeapData := ⟨source, 0, ⟨false, 0, 0⟩⟩

/-- The heap after the search from `source`. Each iteration settles a node, so `n` of them are enough. -/
def exploreFrom (id : ℕ) (source : Fin n) : Heap n :=
  explore P g allowed metric level n (empty.insert (root source)) ((destinationNodes P g level id).filter (allowed ·))

/-- What is written for a destination. -/
def valueOf (heap : Heap n) (destination : Fin n) : CellValue :=
  match heap.find? destination with
  | some e => ⟨e.weight, e.data.duration, e.data.distance⟩
  | none => invalidCellValue

def writeValue (source destination : Fin n) (v : CellValue) : CellMetric n :=
  ⟨fun l s d => if position P g l s d = position P g level source destination then v else metric.value l s d⟩

/-- The body of the loop of `Customize` over the sources of a cell. -/
def customizeSource (id : ℕ) (source : Fin n) : CellMetric n :=
  if allowed source then
    let heap := exploreFrom P g allowed metric level id source
    (destinationNodes P g level id).foldl (fun metric d => writeValue P g metric level source d (valueOf heap d)) metric
  else metric

def customizeCell (id : ℕ) : CellMetric n :=
  (sourceNodes P g level id).foldl (fun metric source => customizeSource P g allowed metric level id source) metric

/-- The cells of one level. They are customized in parallel; each reads the level below and writes rows of its own. -/
def customizeLevel : CellMetric n :=
  (range (P.numCells level)).foldl (fun metric id => customizeCell P g allowed metric level id) metric

def customize : CellMetric n :=
  (range' 1 (P.numLevels - 1)).foldl (fun metric level => customizeLevel P g allowed metric level) metric

section Relax

variable {P g allowed metric level} (node : Label (Fin n) HeapData)

theorem tieLess_better : Better (tieLess (n := n)) where
  le a b h := by
    simp only [tieLess, Bool.or_eq_true, Bool.and_eq_true, decide_eq_true_eq] at h
    omega
  of_lt a b h := by
    simp [tieLess, h]

/-- The label with the weight in full: the 32-bit sum is the same where it does not overflow. -/
def fullOffer (node : Label (Fin n) HeapData) (fromClique : Bool) (target : Fin n) (v : CellValue) : Label (Fin n) HeapData :=
  { offer node fromClique target v with weight := node.weight + v.weight }

variable (label : Label (Fin n) HeapData → Bool → Fin n → CellValue → Label (Fin n) HeapData)

/-- The labels a row offers, each made by `label`. -/
def rowOffers (values : Fin n → CellValue) (node : Label (Fin n) HeapData) (targets : List (Fin n)) :
    List (Label (Fin n) HeapData) :=
  (targets.filter fun t => (values t).weight ≠ invalidEdgeWeight).map fun t => label node true t (values t)

/-- Where every destination with a valid weight is allowed, the iterators stay in step. -/
theorem relaxSubcell_eq {values : Fin n → CellValue} : ∀ (targets : List (Fin n)) (heap : Heap n),
    (∀ t ∈ targets, (values t).weight ≠ invalidEdgeWeight → allowed t = true) →
    relaxSubcell allowed node (targets.map fun t => (values t).weight) targets (targets.map fun t => (values t).duration)
      (targets.map fun t => (values t).distance) heap = (rowOffers offer values node targets).foldl (relax tieLess) heap := by
  intro targets
  induction targets with
  | nil => intro heap _; rfl
  | cons t targets ih =>
    intro heap safe
    have later := fun heap => ih heap fun t ht => safe t (mem_cons_of_mem _ ht)
    simp only [map_cons, relaxSubcell, rowOffers, filter_cons] at later ⊢
    by_cases valid : (values t).weight = invalidEdgeWeight
    · simp only [valid]
      exact later heap
    · simp only [valid, ne_eq, safe t (by simp) valid]
      exact later _

variable (P g allowed level) in
/-- The labels the edges inside the cell offer. -/
def edgeOffers (node : Label (Fin n) HeapData) : List (Label (Fin n) HeapData) :=
  ((g.internalEdgeRange P level node.node).filter fun edge => allowed edge.target && (edge.data.forward &&
    (level = 1 || P.cell (level - 1) node.node ≠ P.cell (level - 1) edge.target))).map
      fun edge => label node false edge.target (edgeValue edge.data)

theorem relaxInternal_eq (heap : Heap n) :
    relaxInternal P g allowed level node heap = (edgeOffers P g allowed level offer node).foldl (relax tieLess) heap := by
  unfold relaxInternal edgeOffers
  induction g.internalEdgeRange P level node.node generalizing heap with
  | nil => rfl
  | cons edge rest ih =>
    rw [foldl_cons, ih, filter_cons]
    by_cases permitted : allowed edge.target = true
    · simp only [permitted, if_true, Bool.true_and]
      split
      · rfl
      · rfl
    · simp [permitted]

end Relax

section Writes

variable {P g allowed metric level} {metric' : CellMetric n}

/-- The loop over the destinations writes one row. -/
theorem foldl_writeValue (sizes : SizesFit P g) {source : Fin n} (f : Fin n → CellValue) (ds : List (Fin n)) :
    ∀ (metric : CellMetric n) (l : ℕ) (s d : Fin n), (∀ d ∈ ds, Stored P g level source d) → Stored P g l s d →
    (ds.foldl (fun metric d => writeValue P g metric level source d (f d)) metric).value l s d =
      if l = level ∧ s = source ∧ d ∈ ds then f d else metric.value l s d := by
  induction ds with
  | nil => simp
  | cons d₀ ds ih =>
    intro metric l s d row stored
    rw [foldl_cons, ih _ l s d (fun d hd => row d (mem_cons_of_mem _ hd)) stored]
    by_cases later : l = level ∧ s = source ∧ d ∈ ds
    · obtain ⟨rfl, rfl, mem⟩ := later
      simp [mem]
    · by_cases here : position P g l s d = position P g level source d₀
      · obtain ⟨rfl, rfl, rfl⟩ := stored.position_inj sizes (row d₀ (by simp)) here
        simp [writeValue]
      · have other : ¬ (l = level ∧ s = source ∧ d ∈ d₀ :: ds) := by
          rintro ⟨rfl, rfl, mem⟩
          rcases mem_cons.1 mem with rfl | mem
          · exact here rfl
          · exact later ⟨rfl, rfl, mem⟩
        rw [if_neg later, if_neg other]
        simp only [writeValue]
        rw [if_neg here]

theorem relaxNode_congr (pos : 1 ≤ level) (lt : level < P.numLevels)
    (below : ∀ s d, Stored P g (level - 1) s d → metric.value (level - 1) s d = metric'.value (level - 1) s d) :
    relaxNode P g allowed metric level = relaxNode P g allowed metric' level := by
  funext node heap
  by_cases first : level = 1
  · subst first
    simp [relaxNode]
  · have same : row P g metric (level - 1) node.node = row P g metric' (level - 1) node.node := by
      unfold row outRange
      split
      · rename_i source
        refine map_congr_left fun d hd => below _ d ?_
        obtain ⟨cell, destination⟩ := mem_destinationNodes_iff.1 hd
        exact ⟨by omega, by omega, by simpa [IsSource] using source, destination, cell.symm⟩
      · rfl
    simp only [relaxNode, same]

/-- A search reads the level below only. -/
theorem exploreFrom_congr (pos : 1 ≤ level) (lt : level < P.numLevels)
    (below : ∀ s d, Stored P g (level - 1) s d → metric.value (level - 1) s d = metric'.value (level - 1) s d) (id : ℕ)
    (source : Fin n) : exploreFrom P g allowed metric level id source = exploreFrom P g allowed metric' level id source := by
  have loop : ∀ fuel heap ds, explore P g allowed metric level fuel heap ds = explore P g allowed metric' level fuel heap ds := by
    intro fuel
    induction fuel with
    | zero => intro heap ds; rfl
    | succ fuel ih =>
      intro heap ds
      simp only [explore, relaxNode_congr pos lt below, ih]
  exact loop _ _ _

variable (P g allowed metric level) in
/-- The value that customizing a level writes. -/
def newValue (source destination : Fin n) : CellValue :=
  valueOf (exploreFrom P g allowed metric level (P.cell level source) source) destination

variable (P g allowed metric level) in
/-- `metric'` has the rows of the allowed sources that satisfy `done` written. -/
structure Written (done : Fin n → Prop) (metric' : CellMetric n) : Prop where
  others : ∀ l s d, Stored P g l s d → l ≠ level → metric'.value l s d = metric.value l s d
  rows : ∀ s d, done s → Stored P g level s d → allowed s = true →
    metric'.value level s d = newValue P g allowed metric level s d
  blocked : ∀ s d, Stored P g level s d → allowed s = false → metric'.value level s d = metric.value level s d

section

variable (sizes : SizesFit P g) (pos : 1 ≤ level) (lt : level < P.numLevels)

include sizes pos lt

theorem Written.source {done : Fin n → Prop} (written : Written P g allowed metric level done metric') {id : ℕ} {source : Fin n}
    (mem : source ∈ sourceNodes P g level id) :
    Written P g allowed metric level (fun s => done s ∨ s = source) (customizeSource P g allowed metric' level id source) := by
  obtain ⟨others, rows, blocked⟩ := written
  obtain ⟨rfl, isSource⟩ := mem_sourceNodes_iff.1 mem
  have below : ∀ s d, Stored P g (level - 1) s d → metric'.value (level - 1) s d = metric.value (level - 1) s d :=
    fun s d stored => others (level - 1) s d stored (by omega)
  have row : ∀ d ∈ destinationNodes P g level (P.cell level source), Stored P g level source d := by
    intro d hd
    obtain ⟨cell, destination⟩ := mem_destinationNodes_iff.1 hd
    exact ⟨pos, lt, isSource, destination, cell.symm⟩
  unfold customizeSource
  by_cases permitted : allowed source = true
  · simp only [permitted, if_true]
    refine ⟨fun l s d stored ne => ?_, fun s d isDone stored as => ?_, fun s d stored as => ?_⟩
    · rw [foldl_writeValue sizes _ _ _ l s d row stored, if_neg (fun h => ne h.1)]
      exact others l s d stored ne
    · rw [foldl_writeValue sizes _ _ _ level s d row stored]
      by_cases here : s = source
      · subst here
        rw [if_pos ⟨rfl, rfl, stored.mem_destinations⟩, exploreFrom_congr pos lt below]
        rfl
      · rw [if_neg (fun h => here h.2.1)]
        exact rows s d (isDone.resolve_right here) stored as
    · rw [foldl_writeValue sizes _ _ _ level s d row stored, if_neg]
      · exact blocked s d stored as
      · rintro ⟨-, rfl, -⟩
        rw [permitted] at as
        cases as
  · simp only [permitted]
    refine ⟨others, fun s d isDone stored as => ?_, blocked⟩
    rcases isDone with before | rfl
    · exact rows s d before stored as
    · exact absurd as permitted

theorem Written.sources {id : ℕ} (ss : List (Fin n)) : ∀ {done : Fin n → Prop} {metric' : CellMetric n},
    Written P g allowed metric level done metric' → (∀ s ∈ ss, s ∈ sourceNodes P g level id) →
    Written P g allowed metric level (fun s => done s ∨ s ∈ ss)
      (ss.foldl (fun metric source => customizeSource P g allowed metric level id source) metric') := by
  induction ss with
  | nil =>
    intro done metric' written _
    simpa using written
  | cons s ss ih =>
    intro done metric' written mem
    have next := ih (written.source sizes pos lt (mem s (by simp))) fun s hs => mem s (mem_cons_of_mem _ hs)
    rw [foldl_cons]
    simpa only [mem_cons, or_assoc] using next

theorem Written.cells (ids : List ℕ) : ∀ {done : Fin n → Prop} {metric' : CellMetric n},
    Written P g allowed metric level done metric' →
    Written P g allowed metric level (fun s => done s ∨ P.cell level s ∈ ids ∧ IsSource P g level s)
      (ids.foldl (fun metric id => customizeCell P g allowed metric level id) metric') := by
  induction ids with
  | nil =>
    intro done metric' written
    simpa using written
  | cons id ids ih =>
    intro done metric' written
    have next := ih (written.sources sizes pos lt (sourceNodes P g level id) fun s hs => hs)
    refine ⟨next.others, fun s d isDone stored => next.rows s d ?_ stored, next.blocked⟩
    rcases isDone with before | ⟨cell, isSource⟩
    · exact .inl (.inl before)
    · rcases mem_cons.1 cell with here | later
      · exact .inl (.inr (mem_sourceNodes_iff.2 ⟨here, isSource⟩))
      · exact .inr ⟨later, isSource⟩

/-- **Customizing a level** writes the row of every allowed source and nothing else. -/
theorem customizeLevel_written :
    Written P g allowed metric level (fun _ => True) (customizeLevel P g allowed metric level) := by
  have start : Written P g allowed metric level (fun _ => False) metric :=
    ⟨fun _ _ _ _ _ => rfl, fun _ _ => False.elim, fun _ _ _ _ => rfl⟩
  have finish := start.cells sizes pos lt (range (P.numCells level))
  refine ⟨finish.others, fun s d _ stored => finish.rows s d (.inr ⟨?_, stored.source⟩) stored, finish.blocked⟩
  exact mem_range.2 (P.cell_lt level s pos lt)

end

end Writes

end Osrm.Customizer
