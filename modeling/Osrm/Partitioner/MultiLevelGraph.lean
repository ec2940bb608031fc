import Osrm.Lib.Overlay
import Osrm.Util.DynamicGraph
import Osrm.Util.Typedefs
import Osrm.Partitioner.MultiLevelPartition
import Mathlib.Data.List.Sort
import Mathlib.Data.List.TakeWhile
import Mathlib.Data.Prod.Lex

/-!
# Multi-level graphs

The edge-based graph of a multi-level partition, given by the edges of each node. An edge
of the road network is stored at both of its ends, flagged forward at the end it leaves
and backward at the end it enters (`mirrored`). The edges of a node are sorted by the
highest level at which its ends lie in different cells, so that the edges leaving a cell
(`GetBorderEdgeRange`) and those staying in it (`GetInternalEdgeRange`) are contiguous. The
place where the one kind ends and the other begins is kept in eight bits, which is enough
for nodes with up to 255 edges (`beginBorderEdges_eq`).
-/

namespace Osrm

open Lib

variable {n : ℕ}

structure EdgeBasedGraphEdgeData where
  turnId : ℕ
  weight : ℤ
  distance : ℚ
  duration : ℤ
  forward : Bool
  backward : Bool
  deriving DecidableEq, Repr

/-- The flag of one direction; `true` is forward. -/
def EdgeBasedGraphEdgeData.flag (d : EdgeBasedGraphEdgeData) : Bool → Bool
  | true => d.forward
  | false => d.backward

structure MultiLevelGraph (n : ℕ) where
  /-- `GetAdjacentEdgeRange` -/
  edges : Fin n → List (DynamicEdge n EdgeBasedGraphEdgeData)
  mirrored : ∀ u v c, (∃ e ∈ edges u, e.target = v ∧ e.data.weight = c ∧ e.data.forward = true) ↔
    ∃ e ∈ edges v, e.target = u ∧ e.data.weight = c ∧ e.data.backward = true

namespace MultiLevelGraph

variable (g : MultiLevelGraph n) (P : MultiLevelPartition n)

/-- The order in which the edges of a node are stored: by the highest level at which the ends differ, then by target. -/
abbrev StoredBefore (node : Fin n) : DynamicEdge n EdgeBasedGraphEdgeData → DynamicEdge n EdgeBasedGraphEdgeData → Prop :=
  Order.Preimage (fun e => toLex (P.highestDifferentLevel node e.target, e.target)) (· ≤ ·)

def sortedEdges (node : Fin n) : List (DynamicEdge n EdgeBasedGraphEdgeData) :=
  (g.edges node).insertionSort (StoredBefore P node)

/-- Whether `node` is at most `max_border_node_id`. -/
def hasOffsets (node : Fin n) : Bool :=
  node.val = 0 || (List.finRange n).any fun u => (g.edges u).any fun e =>
    0 < P.highestDifferentLevel u e.target && (node ≤ u || node ≤ e.target)

/-- `BeginBorderEdges`, counted from the first edge of `node`. The stored offsets have eight bits. -/
def beginBorderEdges (level : ℕ) (node : Fin n) : ℕ :=
  if hasOffsets g P node then
    ((g.sortedEdges P node).takeWhile fun e => P.highestDifferentLevel node e.target < level).length % 256
  else if level = 0 then 0 else (g.sortedEdges P node).length

def internalEdgeRange (level : ℕ) (node : Fin n) : List (DynamicEdge n EdgeBasedGraphEdgeData) :=
  (g.sortedEdges P node).take (g.beginBorderEdges P level node)

def borderEdgeRange (level : ℕ) (node : Fin n) : List (DynamicEdge n EdgeBasedGraphEdgeData) :=
  (g.sortedEdges P node).drop (g.beginBorderEdges P level node)

/-- Some forward edge leads from `u` to `v`. -/
def Linked (u v : Fin n) : Prop := ∃ e ∈ g.edges u, e.target = v ∧ e.data.forward = true

/-- The directed graph that is stored. -/
def arcs : Arcs (Fin n) := fun u v c => ∃ e ∈ g.edges u, e.target = v ∧ e.data.weight = c ∧ e.data.forward = true

variable {g P} {l : ℕ} {u v : Fin n} {e : DynamicEdge n EdgeBasedGraphEdgeData}

theorem linked_of_arcs {c : ℤ} (arc : g.arcs u v c) : g.Linked u v := by
  obtain ⟨e, he, target, -, forward⟩ := arc
  exact ⟨e, he, target, forward⟩

/-- A linked node lists the edge backward. -/
theorem Linked.backward (linked : g.Linked u v) : ∃ e ∈ g.edges v, e.target = u ∧ e.data.backward = true := by
  obtain ⟨e, he, target, forward⟩ := linked
  obtain ⟨e', he', target', -, backward⟩ := (g.mirrored u v _).1 ⟨e, he, target, rfl, forward⟩
  exact ⟨e', he', target', backward⟩

/-- Up to 255 edges the offsets are exact. -/
theorem beginBorderEdges_eq (few : (g.edges u).length ≤ 255) : g.beginBorderEdges P l u =
    ((g.sortedEdges P u).takeWhile fun e => P.highestDifferentLevel u e.target < l).length := by
  have short := (List.takeWhile_sublist (l := g.sortedEdges P u) fun e => P.highestDifferentLevel u e.target < l).length_le
  rw [show (g.sortedEdges P u).length = _ from List.length_insertionSort _ _] at short
  unfold beginBorderEdges
  split_ifs with offsets zero
  · exact Nat.mod_eq_of_lt (by omega)
  · subst zero
    cases g.sortedEdges P u <;> simp
  · congr 1
    refine (List.takeWhile_eq_self_iff.2 fun e he => ?_).symm
    have listed : e ∈ g.edges u := (List.mem_insertionSort _).1 he
    by_contra border
    refine offsets (Bool.or_eq_true_iff.2 (.inr ?_))
    simp only [List.any_eq_true, Bool.and_eq_true, Bool.or_eq_true, decide_eq_true_eq]
    exact ⟨u, List.mem_finRange u, e, listed, by simp at border; omega, .inl le_rfl⟩

/-- In a sorted list the elements with a property that is inherited downwards come first. -/
theorem mem_takeWhile_of_sorted {α : Type*} {r : α → α → Prop} {p : α → Bool} (down : ∀ a b, r a b → p b = true → p a = true)
    {a : α} {l : List α} (sorted : l.Pairwise r) : (a ∈ l.take (l.takeWhile p).length ↔ a ∈ l ∧ p a = true) ∧
      (a ∈ l.drop (l.takeWhile p).length ↔ a ∈ l ∧ p a = false) := by
  induction l with
  | nil => simp
  | cons b l ih =>
    obtain ⟨first, rest⟩ := List.pairwise_cons.1 sorted
    cases hb : p b with
    | true =>
      simp only [List.takeWhile_cons, hb, if_true, List.length_cons, List.take_succ_cons, List.drop_succ_cons, List.mem_cons, ih rest]
      grind
    | false =>
      simp only [List.takeWhile_cons, hb]
      grind

/-- The two ranges of edges. -/
theorem mem_edgeRanges (few : (g.edges u).length ≤ 255) :
    (e ∈ g.internalEdgeRange P l u ↔ e ∈ g.edges u ∧ P.highestDifferentLevel u e.target < l) ∧
      (e ∈ g.borderEdgeRange P l u ↔ e ∈ g.edges u ∧ l ≤ P.highestDifferentLevel u e.target) := by
  have down : ∀ a b, StoredBefore P u a b → decide (P.highestDifferentLevel u b.target < l) = true →
      decide (P.highestDifferentLevel u a.target < l) = true := by
    intro a b before inside
    have := Prod.Lex.monotone_fst _ _ before
    simp only [decide_eq_true_eq] at inside ⊢
    exact lt_of_le_of_lt this inside
  have listed : e ∈ g.sortedEdges P u ↔ e ∈ g.edges u := List.mem_insertionSort _
  have split := mem_takeWhile_of_sorted down (a := e) (List.pairwise_insertionSort (StoredBefore P u) (g.edges u))
  rw [internalEdgeRange, borderEdgeRange, beginBorderEdges_eq few, ← listed]
  simpa [sortedEdges] using split

/-- Internal edges stay in the cell. -/
theorem mem_internalEdgeRange (few : (g.edges u).length ≤ 255) (pos : 1 ≤ l) (lt : l < P.numLevels) :
    e ∈ g.internalEdgeRange P l u ↔ e ∈ g.edges u ∧ P.SameCell l u e.target := by
  rw [(mem_edgeRanges few).1, ← not_le, MultiLevelPartition.le_highestDifferentLevel pos lt, not_not]

/-- Border edges leave the cell; on level `0` all edges are border edges. -/
theorem mem_borderEdgeRange (few : (g.edges u).length ≤ 255) (lt : l < P.numLevels) :
    e ∈ g.borderEdgeRange P l u ↔ e ∈ g.edges u ∧ (l = 0 ∨ ¬ P.SameCell l u e.target) := by
  rw [(mem_edgeRanges few).2]
  by_cases zero : l = 0
  · simp [zero]
  · rw [MultiLevelPartition.le_highestDifferentLevel (by omega) lt]
    simp [zero]

/-- `splitBidirectionalEdges`: an edge with its flags, and turned around with the flags exchanged. -/
def splitBidirectionalEdges (edges : List (InputEdge n EdgeBasedGraphEdgeData)) : List (InputEdge n EdgeBasedGraphEdgeData) :=
  (edges.filter fun e => e.data.weight ≠ invalidEdgeWeight).flatMap fun e =>
    let data := { e.data with weight := max e.data.weight 1 }
    [⟨e.source, e.target, data⟩, ⟨e.target, e.source, { data with forward := data.backward, backward := data.forward }⟩]

/-- With an edge the result holds the same edge turned around. -/
theorem mem_splitBidirectionalEdges_swap {edges : List (InputEdge n EdgeBasedGraphEdgeData)}
    {e : InputEdge n EdgeBasedGraphEdgeData} (mem : e ∈ splitBidirectionalEdges edges) :
    ⟨e.target, e.source, { e.data with forward := e.data.backward, backward := e.data.forward }⟩ ∈
      splitBidirectionalEdges edges := by
  simp only [splitBidirectionalEdges, List.mem_flatMap] at mem ⊢
  obtain ⟨e₀, he₀, mem⟩ := mem
  refine ⟨e₀, he₀, ?_⟩
  simp only [List.mem_cons, List.not_mem_nil, or_false] at mem ⊢
  rcases mem with rfl | rfl
  · exact .inr rfl
  · exact .inl rfl

/-- The graph of a list of edges, each node's edges in the order of the list. -/
def ofEdges (edges : List (InputEdge n EdgeBasedGraphEdgeData)) : MultiLevelGraph n where
  edges u := ((splitBidirectionalEdges edges).filter (·.source = u)).map fun e => ⟨e.target, e.data⟩
  mirrored u v c := by
    simp only [List.mem_map, List.mem_filter, decide_eq_true_eq]
    constructor
    all_goals
      rintro ⟨_, ⟨e, ⟨mem, rfl⟩, rfl⟩, rfl, rfl, flag⟩
      exact ⟨_, ⟨_, ⟨mem_splitBidirectionalEdges_swap mem, rfl⟩, rfl⟩, rfl, rfl, flag⟩

theorem ofEdges_positive (edges : List (InputEdge n EdgeBasedGraphEdgeData)) : Positive (ofEdges edges).arcs := by
  rintro u v c ⟨e, he, -, rfl, -⟩
  obtain ⟨e', he', rfl⟩ := List.mem_map.1 he
  simp only [splitBidirectionalEdges, List.mem_filter, List.mem_flatMap] at he'
  obtain ⟨⟨e₀, -, mem⟩, -⟩ := he'
  simp only [List.mem_cons, List.not_mem_nil, or_false] at mem
  rcases mem with rfl | rfl
  · exact lt_of_lt_of_le one_pos (le_max_right _ _)
  · exact lt_of_lt_of_le one_pos (le_max_right _ _)

end MultiLevelGraph

/-- The arcs of `A` between allowed nodes of one cell of level `l`. -/
def cellArcs (P : MultiLevelPartition n) (allowed : Fin n → Bool) (A : Arcs (Fin n)) (l : ℕ) : Arcs (Fin n) :=
  fun u v c => A u v c ∧ allowed u = true ∧ allowed v = true ∧ P.SameCell l u v

section CellArcs

variable {P : MultiLevelPartition n} {allowed : Fin n → Bool} {A : Arcs (Fin n)} {l : ℕ} {u v : Fin n}

theorem cellArcs_positive (pos : Positive A) : Positive (cellArcs P allowed A l) := fun u v c arc => pos u v c arc.1

/-- Inside the cells of one level, the arcs of a cell of the level below are those that stay in it. -/
theorem inner_cellArcs (lt : l + 1 < P.numLevels) :
    inner (cellArcs P allowed A (l + 1)) (P.SameCell l) = cellArcs P allowed A l := by
  funext u v c
  apply propext
  constructor
  · rintro ⟨⟨arc, au, av, -⟩, same⟩
    exact ⟨arc, au, av, same⟩
  · rintro ⟨arc, au, av, same⟩
    exact ⟨⟨arc, au, av, same.up (by omega) lt⟩, same⟩

/-- A walk along arcs of a cell stays in it. -/
theorem sameCell_of_walk {d : ℤ} (walk : Walk (cellArcs P allowed A l) u v d) : P.SameCell l u v := by
  induction walk with
  | nil u => exact .refl l u
  | cons arc _ ih => exact arc.2.2.2.trans ih

theorem allowed_of_walk {d : ℤ} (walk : Walk (cellArcs P allowed A l) u v d) (au : allowed u = true) :
    allowed v = true := by
  induction walk with
  | nil u => exact au
  | cons arc _ ih => exact ih arc.2.2.1

end CellArcs

end Osrm
