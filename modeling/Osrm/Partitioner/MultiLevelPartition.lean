import Mathlib.Data.Nat.Find
import Mathlib.Order.Lattice

/-!
# Multi-level partitions

`GetCell` numbers the cells of the levels `1, …, numLevels - 1`; a cell lies within one
cell of the level above. Level `0` is the graph itself, each node a cell of its own
(`SameCell`). The packing of the cell numbers into one 64-bit word is not modelled here:
`GetHighestDifferentLevel` reads the highest differing bit of two such words, which is the
highest level at which the cells differ.
-/

namespace Osrm

structure MultiLevelPartition (n : ℕ) where
  numLevels : ℕ
  numLevels_pos : 1 ≤ numLevels
  numCells : ℕ → ℕ
  cell : ℕ → Fin n → ℕ
  cell_lt : ∀ l u, 1 ≤ l → l < numLevels → cell l u < numCells l
  nested : ∀ l u v, 1 ≤ l → l + 1 < numLevels → cell l u = cell l v → cell (l + 1) u = cell (l + 1) v

namespace MultiLevelPartition

/-- One cell of all nodes, at one level. -/
def undivided {n : ℕ} : MultiLevelPartition n where
  numLevels := 2
  numLevels_pos := Nat.two_pos
  numCells _ := 1
  cell _ _ := 0
  cell_lt _ _ _ _ := Nat.one_pos
  nested _ _ _ _ _ _ := rfl

variable {n : ℕ} (P : MultiLevelPartition n)

def highestDifferentLevel (first second : Fin n) : ℕ :=
  Nat.findGreatest (fun l => P.cell l first ≠ P.cell l second) (P.numLevels - 1)

def queryLevel (start target node : Fin n) : ℕ :=
  min (P.highestDifferentLevel start node) (P.highestDifferentLevel target node)

/-- The cells of `u` and `v` at level `l` are the same. -/
def SameCell (l : ℕ) (u v : Fin n) : Prop := if l = 0 then u = v else P.cell l u = P.cell l v

variable {P} {l m : ℕ} {u v w t : Fin n}

theorem sameCell_zero : P.SameCell 0 u v ↔ u = v := by
  simp [SameCell]

theorem sameCell_pos (pos : 1 ≤ l) : P.SameCell l u v ↔ P.cell l u = P.cell l v := by
  have : l ≠ 0 := by omega
  simp [SameCell, this]

theorem SameCell.refl (l : ℕ) (u : Fin n) : P.SameCell l u u := by
  simp [SameCell]

theorem SameCell.symm (h : P.SameCell l u v) : P.SameCell l v u := by
  by_cases zero : l = 0
  · subst zero
    exact sameCell_zero.2 (sameCell_zero.1 h).symm
  · rw [sameCell_pos (by omega)] at h ⊢
    exact h.symm

theorem SameCell.trans (h : P.SameCell l u v) (h' : P.SameCell l v w) : P.SameCell l u w := by
  by_cases zero : l = 0
  · subst zero
    exact sameCell_zero.2 ((sameCell_zero.1 h).trans (sameCell_zero.1 h'))
  · rw [sameCell_pos (by omega)] at h h' ⊢
    exact h.trans h'

/-- Cells are contained in the cells of the levels above. -/
theorem SameCell.up (h : P.SameCell l u v) (le : l ≤ m) (lt : m < P.numLevels) : P.SameCell m u v := by
  induction m, le using Nat.le_induction with
  | base => exact h
  | succ m le ih =>
    have here := ih (by omega)
    by_cases zero : m = 0
    · subst zero
      rw [sameCell_zero.1 here]
      exact .refl _ _
    · rw [sameCell_pos (by omega)] at here ⊢
      exact P.nested m u v (by omega) lt here

theorem highestDifferentLevel_le : P.highestDifferentLevel u v ≤ P.numLevels - 1 := Nat.findGreatest_le _

theorem highestDifferentLevel_self : P.highestDifferentLevel u u = 0 := by
  rw [highestDifferentLevel, Nat.findGreatest_eq_zero_iff]
  simp

/-- The cells differ up to the highest level at which they differ, and only there. -/
theorem le_highestDifferentLevel (pos : 1 ≤ l) (lt : l < P.numLevels) :
    l ≤ P.highestDifferentLevel u v ↔ ¬ P.SameCell l u v := by
  constructor
  · intro le same
    have differ : P.cell (P.highestDifferentLevel u v) u ≠ P.cell (P.highestDifferentLevel u v) v :=
      Nat.findGreatest_of_ne_zero (P := fun l => P.cell l u ≠ P.cell l v) rfl (by omega)
    have bound := P.highestDifferentLevel_le (u := u) (v := v)
    have above := same.up le (by omega)
    rw [sameCell_pos (by omega)] at above
    exact differ above
  · intro differ
    rw [sameCell_pos pos] at differ
    exact Nat.le_findGreatest (by omega) differ

/-- Nodes of one cell differ from a node outside of it at the same highest level. -/
theorem highestDifferentLevel_congr (pos : 1 ≤ l) (lt : l < P.numLevels) (same : P.SameCell l u v)
    (le : l ≤ P.highestDifferentLevel t u) : P.highestDifferentLevel t v = P.highestDifferentLevel t u := by
  have above : ∀ m, l ≤ m → m < P.numLevels → (m ≤ P.highestDifferentLevel t v ↔ m ≤ P.highestDifferentLevel t u) := by
    intro m lm lt
    have here := same.up lm lt
    rw [le_highestDifferentLevel (by omega) lt, le_highestDifferentLevel (by omega) lt]
    exact not_congr ⟨fun h => h.trans here.symm, fun h => h.trans here⟩
  have boundU := P.highestDifferentLevel_le (u := t) (v := u)
  have boundV := P.highestDifferentLevel_le (u := t) (v := v)
  apply Nat.le_antisymm
  · have := (above l le_rfl lt).2 le
    exact (above _ this (by omega)).1 le_rfl
  · exact (above _ le (by omega)).2 le_rfl

end MultiLevelPartition

end Osrm
