import Osrm.Partitioner.MultiLevelGraph
import Mathlib.Algebra.BigOperators.Intervals
import Mathlib.Algebra.Order.BigOperators.Group.Finset

/-!
# Cell storage

For each cell the storage lists its source and its destination nodes, and a metric keeps
one row of values for each source node with one column for each destination node. A node
is listed when one of its edges leaves the cell; it is a source when an edge leads from it
into the cell, a destination when an edge leads to it from inside, and a node with no edge
inside the cell is kept as a destination. The rows of all cells lie behind each other in
one array; `position` is the place of a value in it. The size of a cell is a product of two
32-bit integers, so cells overlap where a product is too large, and only there
(`Stored.position_inj`). A metric is read as a function of level, source and destination,
and a write changes it wherever the position is the same.

Where the values are exact, a row holds the clique arcs of an overlay over the cells
(`ExactLevel.tableArcs_eq`).
-/

namespace Osrm

open Lib MultiLevelPartition

variable {n : ℕ}

/-- The entries of the three arrays of a metric at one position. -/
structure CellValue where
  weight : ℤ
  duration : ℤ
  distance : ℚ
  deriving DecidableEq, Repr

/-- `CellMetric`: the value for a level, a source and a destination node. -/
structure CellMetric (n : ℕ) where
  value : ℕ → Fin n → Fin n → CellValue

/-- `INVALID_EDGE_DISTANCE`, the largest single-precision number. -/
def invalidEdgeDistance : ℚ := 340282346638528859811704183484516925440

/-- The value of a position that has not been written. -/
def invalidCellValue : CellValue := ⟨invalidEdgeWeight, maximalEdgeDuration, invalidEdgeDistance⟩

namespace CellStorage

variable (P : MultiLevelPartition n) (g : MultiLevelGraph n)

def isBoundaryNode (level : ℕ) (node : Fin n) : Bool :=
  (g.edges node).any fun e => P.cell level e.target ≠ P.cell level node

def isSourceNode (level : ℕ) (node : Fin n) : Bool :=
  (g.edges node).any fun e => P.cell level e.target = P.cell level node && e.data.forward

def isDestinationNode (level : ℕ) (node : Fin n) : Bool :=
  (g.edges node).any fun e => P.cell level e.target = P.cell level node && e.data.backward

def sourceNodes (level id : ℕ) : List (Fin n) :=
  (List.finRange n).filter fun node =>
    P.cell level node = id && isBoundaryNode P g level node && isSourceNode P g level node

def destinationNodes (level id : ℕ) : List (Fin n) :=
  (List.finRange n).filter fun node =>
    P.cell level node = id && isBoundaryNode P g level node &&
      (isDestinationNode P g level node || !isSourceNode P g level node)

def makeMetric : CellMetric n := ⟨fun _ _ _ => invalidCellValue⟩

/-- The number of values of a cell, as the product of two 32-bit integers. -/
def cellSize (level id : ℕ) : ℕ := (sourceNodes P g level id).length * (destinationNodes P g level id).length % 2 ^ 32

/-- `value_offset`: the sizes of all cells before the cell `id` of `level`. -/
def valueOffset (level id : ℕ) : ℕ :=
  ∑ l ∈ Finset.Ico 1 level, ∑ i ∈ Finset.range (P.numCells l), cellSize P g l i + ∑ i ∈ Finset.range id, cellSize P g level i

/-- The place of a value: the row of `source` in its cell, the column of `destination`. -/
def position (level : ℕ) (source destination : Fin n) : ℕ :=
  let id := P.cell level source
  valueOffset P g level id + (destinationNodes P g level id).length * (sourceNodes P g level id).idxOf source +
    (destinationNodes P g level id).idxOf destination

/-- `GetOutRange`: the row of a source node, nothing for another node. -/
def outRange (metric : CellMetric n) (level id : ℕ) (node : Fin n) : List CellValue :=
  if (sourceNodes P g level id).any (· = node) then (destinationNodes P g level id).map (metric.value level node) else []

/-- `GetInRange`: the column of a destination node, nothing for another node. -/
def inRange (metric : CellMetric n) (level id : ℕ) (node : Fin n) : List CellValue :=
  if (destinationNodes P g level id).any (· = node) then
    (sourceNodes P g level id).map fun source => metric.value level source node
  else []

def IsSource (level : ℕ) (u : Fin n) : Prop := u ∈ sourceNodes P g level (P.cell level u)

/-- `v` is a destination node of its cell. -/
def IsDestination (level : ℕ) (v : Fin n) : Prop := v ∈ destinationNodes P g level (P.cell level v)

variable {P g} {l id : ℕ} {u v x y : Fin n}

theorem mem_sourceNodes : u ∈ sourceNodes P g l id ↔
    P.cell l u = id ∧ isBoundaryNode P g l u = true ∧ isSourceNode P g l u = true := by
  simp [sourceNodes, and_assoc]

theorem mem_destinationNodes : v ∈ destinationNodes P g l id ↔ P.cell l v = id ∧ isBoundaryNode P g l v = true ∧
    (isDestinationNode P g l v = true ∨ isSourceNode P g l v = false) := by
  simp [destinationNodes, and_assoc]

theorem mem_sourceNodes_iff : u ∈ sourceNodes P g l id ↔ P.cell l u = id ∧ IsSource P g l u := by
  rw [IsSource, mem_sourceNodes, mem_sourceNodes]
  simp

theorem mem_destinationNodes_iff : v ∈ destinationNodes P g l id ↔ P.cell l v = id ∧ IsDestination P g l v := by
  rw [IsDestination, mem_destinationNodes, mem_destinationNodes]
  simp

variable (P g) in
/-- A cell of level `l` has a value for `s` and `d`. -/
structure Stored (l : ℕ) (s d : Fin n) : Prop where
  pos : 1 ≤ l
  lt : l < P.numLevels
  source : IsSource P g l s
  destination : IsDestination P g l d
  same : P.cell l s = P.cell l d

variable (P g) in
/-- The sizes of the cells are computed without overflow. -/
def SizesFit : Prop := ∀ l id, (sourceNodes P g l id).length * (destinationNodes P g l id).length < 2 ^ 32

theorem sizesFit_of_lt (small : n * n < 2 ^ 32) : SizesFit P g := by
  have length : ∀ p : Fin n → Bool, ((List.finRange n).filter p).length ≤ n := fun p =>
    (List.length_filter_le _ _).trans (List.length_finRange).le
  intro l id
  exact (Nat.mul_le_mul (length _) (length _)).trans_lt small

/-- A cell ends before the next one begins. -/
theorem valueOffset_next (l' id' : ℕ) (here : id < P.numCells l) (one : 1 ≤ l) (before : l < l' ∨ l = l' ∧ id < id') :
    valueOffset P g l id + cellSize P g l id ≤ valueOffset P g l' id' := by
  unfold valueOffset
  rw [add_assoc, ← Finset.sum_range_succ]
  rcases before with below | ⟨rfl, less⟩
  · refine le_trans ?_ (Nat.le_add_right _ _)
    calc _ ≤ ∑ l ∈ Finset.Ico 1 l, ∑ i ∈ Finset.range (P.numCells l), cellSize P g l i +
          ∑ i ∈ Finset.range (P.numCells l), cellSize P g l i := by
          gcongr
          omega
      _ = ∑ l ∈ Finset.Ico 1 (l + 1), ∑ i ∈ Finset.range (P.numCells l), cellSize P g l i :=
          (Finset.sum_Ico_succ_top one _).symm
      _ ≤ _ := by
          gcongr
          omega
  · gcongr
    omega

section Positions

variable {s d s' d' : Fin n} {l' : ℕ}

theorem Stored.mem_destinations (stored : Stored P g l s d) : d ∈ destinationNodes P g l (P.cell l s) :=
  mem_destinationNodes_iff.2 ⟨stored.same.symm, stored.destination⟩

/-- The values of a cell lie between its offset and its end. -/
theorem Stored.position_lt (sizes : SizesFit P g) (stored : Stored P g l s d) : valueOffset P g l (P.cell l s) ≤ position P g l s d ∧
    position P g l s d < valueOffset P g l (P.cell l s) + cellSize P g l (P.cell l s) := by
  have row := List.idxOf_lt_length_iff.2 stored.source
  have column := List.idxOf_lt_length_iff.2 stored.mem_destinations
  have inside := Nat.mul_le_mul_left (destinationNodes P g l (P.cell l s)).length (Nat.succ_le_of_lt row)
  rw [cellSize, Nat.mod_eq_of_lt (sizes l _), position, mul_comm (sourceNodes P g l (P.cell l s)).length]
  rw [Nat.mul_succ] at inside
  omega

/-- **No two values share a place.** -/
theorem Stored.position_inj (sizes : SizesFit P g) (stored : Stored P g l s d) (stored' : Stored P g l' s' d')
    (eq : position P g l s d = position P g l' s' d') : l = l' ∧ s = s' ∧ d = d' := by
  have range := stored.position_lt sizes
  have range' := stored'.position_lt sizes
  have after := valueOffset_next (g := g) l' (P.cell l' s') (P.cell_lt l s stored.pos stored.lt) stored.pos
  have before := valueOffset_next (g := g) l (P.cell l s) (P.cell_lt l' s' stored'.pos stored'.lt) stored'.pos
  obtain rfl : l = l' := by
    rcases lt_trichotomy l l' with less | same | less
    · have := after (.inl less)
      omega
    · exact same
    · have := before (.inl less)
      omega
  have cell : P.cell l s = P.cell l s' := by
    rcases lt_trichotomy (P.cell l s) (P.cell l s') with less | same | less
    · have := after (.inr ⟨rfl, less⟩)
      omega
    · exact same
    · have := before (.inr ⟨rfl, less⟩)
      omega
  -- within a cell the position determines row and column
  have column := List.idxOf_lt_length_iff.2 stored.mem_destinations
  have column' := List.idxOf_lt_length_iff.2 stored'.mem_destinations
  simp only [position, ← cell] at eq column'
  rw [add_assoc, add_assoc, Nat.add_left_cancel_iff] at eq
  have rows := congrArg (· / (destinationNodes P g l (P.cell l s)).length) eq
  have columns := congrArg (· % (destinationNodes P g l (P.cell l s)).length) eq
  simp only [Nat.mul_add_mod, Nat.mod_eq_of_lt column, Nat.mod_eq_of_lt column', Nat.mul_add_div (Nat.zero_lt_of_lt column),
    Nat.div_eq_of_lt column, Nat.div_eq_of_lt column', add_zero] at rows columns
  exact ⟨rfl, (List.idxOf_inj stored.source).1 rows, (List.idxOf_inj stored.mem_destinations).1 columns⟩

end Positions

/-- A node on the boundary of a cell is on the boundary of the cells below it. -/
theorem isBoundaryNode_down {m : ℕ} (pos : 1 ≤ l) (le : l ≤ m) (lt : m < P.numLevels)
    (boundary : isBoundaryNode P g m u = true) : isBoundaryNode P g l u = true := by
  simp only [isBoundaryNode, List.any_eq_true, decide_eq_true_eq] at boundary ⊢
  obtain ⟨e, he, differ⟩ := boundary
  refine ⟨e, he, fun same => differ ?_⟩
  have up := ((sameCell_pos pos).2 same).up le lt
  exact (sameCell_pos (by omega)).1 up

/-- A node that is entered from another cell is on the boundary of its own. -/
theorem isBoundaryNode_of_entered (pos : 1 ≤ l) (linked : g.Linked y u) (crosses : ¬ P.SameCell l y u) :
    isBoundaryNode P g l u = true := by
  obtain ⟨e, he, rfl, -⟩ := linked.backward
  rw [sameCell_pos pos] at crosses
  simp only [isBoundaryNode, List.any_eq_true, decide_eq_true_eq]
  exact ⟨e, he, crosses⟩

/-- A node that is left for another cell is on the boundary of its own. -/
theorem isBoundaryNode_of_left (pos : 1 ≤ l) (linked : g.Linked v y) (crosses : ¬ P.SameCell l v y) :
    isBoundaryNode P g l v = true := by
  obtain ⟨e, he, rfl, -⟩ := linked
  rw [sameCell_pos pos] at crosses
  simp only [isBoundaryNode, List.any_eq_true, decide_eq_true_eq]
  exact ⟨e, he, fun same => crosses same.symm⟩

/-- A boundary node with an arc into its cell is a source. -/
theorem isSource_of_boundary (pos : 1 ≤ l) (boundary : isBoundaryNode P g l u = true) (linked : g.Linked u x)
    (same : P.SameCell l u x) : IsSource P g l u := by
  obtain ⟨e, he, rfl, forward⟩ := linked
  rw [sameCell_pos pos] at same
  refine mem_sourceNodes.2 ⟨rfl, boundary, ?_⟩
  simp only [isSourceNode, List.any_eq_true, Bool.and_eq_true, decide_eq_true_eq]
  exact ⟨e, he, same.symm, forward⟩

/-- A boundary node with an arc from its cell is a destination. -/
theorem isDestination_of_boundary (pos : 1 ≤ l) (boundary : isBoundaryNode P g l v = true) (linked : g.Linked x v)
    (same : P.SameCell l x v) : IsDestination P g l v := by
  obtain ⟨e, he, rfl, backward⟩ := linked.backward
  rw [sameCell_pos pos] at same
  refine mem_destinationNodes.2 ⟨rfl, boundary, .inl ?_⟩
  simp only [isDestinationNode, List.any_eq_true, Bool.and_eq_true, decide_eq_true_eq]
  exact ⟨e, he, same, backward⟩

end CellStorage

/-- `w` is the length of a shortest walk from `s` to `d`; it is `invalidEdgeWeight` exactly when there is none. -/
def ExactWeight (A : Arcs (Fin n)) (s d : Fin n) (w : ℤ) : Prop :=
  (w < invalidEdgeWeight ∧ IsLeast {x | Walk A s d x} w) ∨ (w = invalidEdgeWeight ∧ ∀ x, ¬ Walk A s d x)

open CellStorage

/-- Between different nodes, the metric holds the lengths of shortest walks in the cells of level `l`. -/
def ExactLevel (P : MultiLevelPartition n) (g : MultiLevelGraph n) (allowed : Fin n → Bool) (A : Arcs (Fin n))
    (metric : CellMetric n) (l : ℕ) : Prop :=
  ∀ s d, IsSource P g l s → IsDestination P g l d → P.SameCell l s d → s ≠ d →
    ExactWeight (cellArcs P allowed A l) s d (metric.value l s d).weight

/-- The arcs a metric stores for the cells of level `l`. -/
def tableArcs (P : MultiLevelPartition n) (g : MultiLevelGraph n) (metric : CellMetric n) (l : ℕ) : Arcs (Fin n) :=
  fun u v c => IsSource P g l u ∧ IsDestination P g l v ∧ P.SameCell l u v ∧ u ≠ v ∧
    (metric.value l u v).weight = c ∧ c ≠ invalidEdgeWeight

section Exact

variable {P : MultiLevelPartition n} {g : MultiLevelGraph n} {allowed : Fin n → Bool} {A : Arcs (Fin n)}
  {metric : CellMetric n} {l : ℕ}

/-- An exact metric stores the cliques of the cells. -/
theorem ExactLevel.tableArcs_eq (exact : ExactLevel P g allowed A metric l) :
    tableArcs P g metric l = clique (cellArcs P allowed A l) (IsSource P g l) (IsDestination P g l) := by
  funext u v c
  apply propext
  constructor
  · rintro ⟨source, destination, same, ne, rfl, valid⟩
    rcases exact u v source destination same ne with ⟨-, least⟩ | ⟨invalid, -⟩
    · exact ⟨source, destination, ne, least⟩
    · exact absurd invalid valid
  · rintro ⟨source, destination, ne, least⟩
    have same := sameCell_of_walk least.1
    rcases exact u v source destination same ne with ⟨valid, least'⟩ | ⟨-, none⟩
    · obtain rfl := least.unique least'
      exact ⟨source, destination, same, ne, rfl, valid.ne⟩
    · exact absurd least.1 (none _)

end Exact

end Osrm
