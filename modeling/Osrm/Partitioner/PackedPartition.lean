import Osrm.Partitioner.MultiLevelPartition
import Mathlib.Algebra.Group.Nat.Defs
import Mathlib.Data.List.GetD
import Mathlib.Data.Nat.Log

/-!
# Packed partitions

`MultiLevelPartition` keeps the cells of a node at all levels in one 64-bit word, those of level `1`
in its lowest bits. The offsets of the levels leave room for one number more than there are cells,
since a sentinel behind the nodes holds the number of cells. Two words that differ do so in a highest
bit, which belongs to the highest level at which the cells differ: the tables `bit_to_level` and
`lidx_to_mask` are read off the same offsets.

`unpacked` forgets the words. An array element that the source leaves uninitialised is `0`.
-/

namespace Osrm

open List

abbrev PartitionID := BitVec 64

/-- `util::msb` of a word that is not zero -/
def msb (word : PartitionID) : ℕ := word.toNat.log2

/-- `LevelData`: the first bit of each level, the mask of its bits and the level of each bit. -/
structure LevelData where
  numLevel : ℕ
  lidxToOffset : List ℕ
  lidxToMask : List PartitionID
  bitToLevel : List ℕ
  deriving DecidableEq, Repr

namespace LevelData

/-- The loop of `MakeLevelOffsets`, and the sentinel. -/
def makeLevelOffsets (lidx sumBits : ℕ) : List ℕ → Except String (List ℕ)
  | [] => .ok [sumBits]
  | numCells :: rest =>
    -- bits needed to number all contained vertexes
    let bits := Nat.clog 2 (numCells + 1)
    if 64 < sumBits + bits then
      .error ("Can't pack the partition information at level " ++ toString (lidx + 1) ++
        " into a 64bit integer. Would require " ++ toString (sumBits + bits) ++ " bits.")
    else (makeLevelOffsets (lidx + 1) (sumBits + bits) rest).map (sumBits :: ·)

def lowBits (offset : ℕ) : PartitionID := (1#64 <<< offset) - 1#64

def makeLevelMasks (levelOffsets : List ℕ) : List PartitionID :=
  zipWith (fun offset nextOffset =>
    let mask := lowBits offset
    -- a shift by all 64 bits would overflow
    let nextMask := if nextOffset = 64 then -1#64 else lowBits nextOffset
    nextMask ^^^ mask) levelOffsets levelOffsets.tail

/-- The inner loop of `MakeBitToLevel`. -/
def setBits (bits l : ℕ) (bitToLevel : List ℕ) : List ℕ :=
  (range' bits (64 - bits)).foldl (fun table idx => table.set idx l) bitToLevel

def makeBitToLevel (levelOffsets : List ℕ) (numLevel : ℕ) : List ℕ :=
  (range' 1 (numLevel - 1)).foldl (fun table l => setBits (levelOffsets.getD (l - 1) 0) l table) (replicate 64 0)

def makeLevelData (lidxToNumCells : List ℕ) : Except String LevelData :=
  (makeLevelOffsets 0 0 lidxToNumCells).map fun offsets =>
    { numLevel := lidxToNumCells.length + 1
      lidxToOffset := offsets
      lidxToMask := makeLevelMasks offsets
      bitToLevel := makeBitToLevel offsets (lidxToNumCells.length + 1) }

variable (levelData : LevelData)

/-- `GetCell`, for the word of a node. A `CellID` has 32 bits. -/
def getCell (l : ℕ) (p : PartitionID) : ℕ :=
  ((p &&& levelData.lidxToMask.getD (l - 1) 0) >>> levelData.lidxToOffset.getD (l - 1) 0).toNat % 2 ^ 32

/-- `GetHighestDifferentLevel`, for the words of two nodes. -/
def getHighestDifferentLevel (first second : PartitionID) : ℕ :=
  if first = second then 0 else levelData.bitToLevel.getD (msb (first ^^^ second)) 0

/-- `GetQueryLevel`, for the words of three nodes. -/
def getQueryLevel (start target node : PartitionID) : ℕ :=
  min (levelData.getHighestDifferentLevel start node) (levelData.getHighestDifferentLevel target node)

end LevelData

/-! ### Bits and levels -/

theorem getLsbD_above_msb {word : PartitionID} {i : ℕ} (above : msb word < i) : word.getLsbD i = false := by
  apply Nat.testBit_lt_two_pow
  exact Nat.lt_of_lt_of_le Nat.lt_log2_self (Nat.pow_le_pow_right Nat.two_pos above)

namespace LevelData

/-- What the loop over the levels leaves: one offset for each level and the sentinel, in order, with at most 32 bits each. -/
structure Offsets (start count : ℕ) (offsets : List ℕ) : Prop where
  length : offsets.length = count + 1
  first : offsets.getD 0 0 = start
  step : ∀ i < count, offsets.getD i 0 ≤ offsets.getD (i + 1) 0 ∧ offsets.getD (i + 1) 0 ≤ offsets.getD i 0 + 32
  last : offsets.getD count 0 ≤ 64

theorem makeLevelOffsets_spec {offsets : List ℕ} : ∀ {lidx sumBits : ℕ} {numCells : List ℕ},
    makeLevelOffsets lidx sumBits numCells = .ok offsets → (∀ count ∈ numCells, count < 2 ^ 32) → sumBits ≤ 64 →
      Offsets sumBits numCells.length offsets := by
  intro lidx sumBits numCells
  induction numCells generalizing lidx sumBits offsets with
  | nil =>
    intro made _ low
    cases made
    exact ⟨rfl, rfl, fun i below => absurd below (Nat.not_lt_zero i), low⟩
  | cons count rest ih =>
    intro made small _
    have bits : Nat.clog 2 (count + 1) ≤ 32 := Nat.clog_le_of_le_pow (small count mem_cons_self)
    rw [makeLevelOffsets] at made
    split at made
    · cases made
    · cases later : makeLevelOffsets (lidx + 1) (sumBits + Nat.clog 2 (count + 1)) rest with
      | error _ =>
        rw [later] at made
        cases made
      | ok others =>
        rw [later] at made
        cases made
        have spec := ih later (fun c mem => small c (mem_cons_of_mem _ mem)) (by omega)
        refine ⟨by rw [length_cons, spec.length, length_cons], rfl, fun i below => ?_, spec.last⟩
        rw [length_cons] at below
        cases i with
        | zero =>
          rw [getD_cons_zero, getD_cons_succ, spec.first]
          omega
        | succ i => exact spec.step i (by omega)

variable {start count b : ℕ} {offsets : List ℕ}

theorem Offsets.mono (spec : Offsets start count offsets) {i j : ℕ} (le : i ≤ j) (inside : j ≤ count) :
    offsets.getD i 0 ≤ offsets.getD j 0 := by
  induction j, le using Nat.le_induction with
  | base => exact le_rfl
  | succ j _ ih => exact (ih (by omega)).trans (spec.step j (by omega)).1

theorem Offsets.le (spec : Offsets start count offsets) {i : ℕ} (inside : i ≤ count) : offsets.getD i 0 ≤ 64 :=
  (spec.mono inside le_rfl).trans spec.last

theorem getLsbD_lowBits {offset i : ℕ} (inside : offset ≤ 64) :
    (lowBits offset).getLsbD i = decide (i < offset) := by
  have number : (lowBits offset).toNat = 2 ^ offset - 1 := by
    rcases inside.lt_or_eq with lower | rfl
    · have small : 2 ^ offset < 2 ^ 64 := Nat.pow_lt_pow_right (by decide) lower
      have pos := Nat.two_pow_pos offset
      have one : (1#64).toNat = 1 := rfl
      rw [lowBits, BitVec.toNat_sub, BitVec.toNat_shiftLeft, one]
      omega
    · rfl
  rw [BitVec.getLsbD, number, Nat.testBit_two_pow_sub_one]

theorem getLsbD_allOnes (i : ℕ) : (-1#64).getLsbD i = decide (i < 64) := BitVec.getLsbD_allOnes

/-- The bits of a mask are those of its level. -/
theorem Offsets.getLsbD_mask (spec : Offsets start count offsets) {i : ℕ} (inside : i < count) :
    ((makeLevelMasks offsets).getD i 0).getLsbD b = decide (offsets.getD i 0 ≤ b ∧ b < offsets.getD (i + 1) 0) := by
  have length := spec.length
  have here : offsets[i]? = some (offsets.getD i 0) := by
    rw [getD_eq_getElem _ _ (by omega), getElem?_eq_getElem]
  have next : offsets.tail[i]? = some (offsets.getD (i + 1) 0) := by
    rw [getElem?_tail, getD_eq_getElem _ _ (by omega), getElem?_eq_getElem]
  rw [makeLevelMasks, getD_eq_getElem?_getD, getElem?_zipWith, here, next]
  have order := (spec.step i inside).1
  have bound := spec.le (Nat.succ_le_of_lt inside)
  generalize offsets.getD i 0 = offset at *
  generalize offsets.getD (i + 1) 0 = nextOffset at *
  have upper : (if nextOffset = 64 then -1#64 else lowBits nextOffset).getLsbD b = decide (b < nextOffset) := by
    split
    · next all => rw [all, getLsbD_allOnes]
    · exact getLsbD_lowBits bound
  simp only [Option.getD_some, BitVec.getLsbD_xor, upper, getLsbD_lowBits (order.trans bound)]
  by_cases low : b < offset
  · simp [low, low.trans_le order]
  · simp [low, Nat.not_lt.1 low]

theorem getElem?_foldl_set (l : ℕ) : ∀ (indices table : List ℕ),
    (indices.foldl (fun table idx => table.set idx l) table)[b]? =
      if b ∈ indices ∧ b < table.length then some l else table[b]?
  | [], table => by simp
  | idx :: indices, table => by
    rw [foldl_cons, getElem?_foldl_set l indices]
    grind

theorem getElem?_setBits {bits l : ℕ} {table : List ℕ} (full : table.length = 64) (low : bits ≤ 64) :
    (setBits bits l table)[b]? = if bits ≤ b ∧ b < 64 then some l else table[b]? := by
  have place : b ∈ range' bits (64 - bits) ∧ b < table.length ↔ bits ≤ b ∧ b < 64 := by
    rw [mem_range'_1]
    omega
  rw [setBits, getElem?_foldl_set]
  exact if_congr place rfl rfl

theorem length_setBits (bits l : ℕ) (table : List ℕ) : (setBits bits l table).length = table.length := by
  rw [setBits]
  induction range' bits (64 - bits) generalizing table with
  | nil => rfl
  | cons idx indices ih => rw [foldl_cons, ih, length_set]

/-- The level of a bit is the highest one that starts at or below it. -/
theorem Offsets.getElem?_bitToLevel (spec : Offsets start count offsets) (inside : b < 64) :
    (makeBitToLevel offsets (count + 1))[b]? =
      some (Nat.findGreatest (fun l => 1 ≤ l ∧ offsets.getD (l - 1) 0 ≤ b) count) := by
  -- after the levels up to `k`
  have after (k : ℕ) (le : k ≤ count) :
      ((range' 1 k).foldl (fun table l => setBits (offsets.getD (l - 1) 0) l table) (replicate 64 0)).length = 64 ∧
      ((range' 1 k).foldl (fun table l => setBits (offsets.getD (l - 1) 0) l table) (replicate 64 0))[b]? =
        some (Nat.findGreatest (fun l => 1 ≤ l ∧ offsets.getD (l - 1) 0 ≤ b) k) := by
    induction k with
    | zero => exact ⟨length_replicate, getElem?_replicate_of_lt inside⟩
    | succ k ih =>
      obtain ⟨full, entry⟩ := ih (by omega)
      rw [range'_1_concat, foldl_append, foldl_cons, foldl_nil, Nat.add_comm 1 k]
      refine ⟨(length_setBits _ _ _).trans full, ?_⟩
      rw [getElem?_setBits full (spec.le (by omega)), entry, Nat.findGreatest_succ]
      by_cases here : offsets.getD k 0 ≤ b
      · rw [if_pos ⟨here, inside⟩, if_pos ⟨Nat.le_add_left 1 k, here⟩]
      · rw [if_neg fun both => here both.1, if_neg fun both => here both.2]
  exact (after count le_rfl).2

variable {levelData : LevelData} {numCells : List ℕ}

/-- What is known of tables that `MakeLevelData` has made. -/
structure Tables (levelData : LevelData) : Prop where
  offsets : Offsets 0 (levelData.numLevel - 1) levelData.lidxToOffset
  pos : 1 ≤ levelData.numLevel
  masks : levelData.lidxToMask = makeLevelMasks levelData.lidxToOffset
  levels : levelData.bitToLevel = makeBitToLevel levelData.lidxToOffset levelData.numLevel

theorem makeLevelData_spec (made : makeLevelData numCells = .ok levelData) (small : ∀ count ∈ numCells, count < 2 ^ 32) :
    levelData.Tables := by
  rw [makeLevelData] at made
  cases offsets : makeLevelOffsets 0 0 numCells with
  | error _ =>
    rw [offsets] at made
    cases made
  | ok list =>
    rw [offsets] at made
    cases made
    exact ⟨makeLevelOffsets_spec offsets small (Nat.zero_le 64), Nat.le_add_left 1 _, rfl, rfl⟩

variable (tables : levelData.Tables) {l : ℕ} (one : 1 ≤ l) (lt : l < levelData.numLevel) {p q : PartitionID}

include tables one lt

theorem Tables.testBit_getCell (i : ℕ) : (levelData.getCell l p).testBit i =
    (p.getLsbD (levelData.lidxToOffset.getD (l - 1) 0 + i) &&
      decide (levelData.lidxToOffset.getD (l - 1) 0 + i < levelData.lidxToOffset.getD l 0)) := by
  have width := (tables.offsets.step (l - 1) (by omega)).2
  rw [Nat.sub_add_cancel one] at width
  rw [getCell, Nat.testBit_mod_two_pow, ← BitVec.getLsbD, BitVec.getLsbD_ushiftRight, BitVec.getLsbD_and, tables.masks,
    tables.offsets.getLsbD_mask (by omega), Nat.sub_add_cancel one]
  generalize levelData.lidxToOffset.getD (l - 1) 0 = offset at *
  by_cases inside : offset + i < levelData.lidxToOffset.getD l 0
  · have low : i < 32 := by omega
    simp [low]
  · have outside : ¬(offset ≤ offset + i ∧ offset + i < levelData.lidxToOffset.getD l 0) := fun both => inside both.2
    rw [decide_eq_false inside, decide_eq_false outside, Bool.and_false, Bool.and_false]

/-- Two nodes are in one cell of a level when their words agree on its bits. -/
theorem Tables.getCell_eq_iff : levelData.getCell l p = levelData.getCell l q ↔
    ∀ b, levelData.lidxToOffset.getD (l - 1) 0 ≤ b → b < levelData.lidxToOffset.getD l 0 → p.getLsbD b = q.getLsbD b := by
  constructor
  · intro same b low high
    have bit := congrArg (Nat.testBit · (b - levelData.lidxToOffset.getD (l - 1) 0)) same
    simp only [tables.testBit_getCell one lt, Nat.add_sub_cancel' low, high, decide_true, Bool.and_true] at bit
    exact bit
  · intro agree
    apply Nat.eq_of_testBit_eq
    intro i
    rw [tables.testBit_getCell one lt, tables.testBit_getCell one lt]
    by_cases inside : levelData.lidxToOffset.getD (l - 1) 0 + i < levelData.lidxToOffset.getD l 0
    · rw [agree _ (Nat.le_add_right _ i) inside]
    · rw [decide_eq_false inside, Bool.and_false, Bool.and_false]

omit one lt

/-- The level of the highest bit in which two words differ is the highest level at which their cells differ. -/
theorem Tables.getHighestDifferentLevel_eq (fits : p.toNat < 2 ^ levelData.lidxToOffset.getD (levelData.numLevel - 1) 0)
    (fits' : q.toNat < 2 ^ levelData.lidxToOffset.getD (levelData.numLevel - 1) 0) :
    levelData.getHighestDifferentLevel p q =
      Nat.findGreatest (fun l => levelData.getCell l p ≠ levelData.getCell l q) (levelData.numLevel - 1) := by
  have spec := tables.offsets
  rw [getHighestDifferentLevel]
  split
  · next same =>
    rw [same]
    exact (Nat.findGreatest_eq_zero_iff.2 fun l _ _ differ => differ rfl).symm
  · next differ =>
    have nonzero : p ^^^ q ≠ 0 := fun zero => differ (BitVec.xor_eq_zero_iff.1 zero)
    have top : (p ^^^ q).getLsbD (msb (p ^^^ q)) = true :=
      Nat.testBit_log2 fun zero => nonzero (BitVec.eq_of_toNat_eq zero)
    have above {b : ℕ} (high : msb (p ^^^ q) < b) : p.getLsbD b = q.getLsbD b := by
      have zero := getLsbD_above_msb high
      simpa using zero
    generalize msb (p ^^^ q) = b at top above
    have other : p.getLsbD b ≠ q.getLsbD b := by
      simpa using top
    have below : b < levelData.lidxToOffset.getD (levelData.numLevel - 1) 0 := by
      by_contra high
      have zero {word : PartitionID} (fits : word.toNat < 2 ^ levelData.lidxToOffset.getD (levelData.numLevel - 1) 0) :
          word.getLsbD b = false :=
        Nat.testBit_lt_two_pow (Nat.lt_of_lt_of_le fits (Nat.pow_le_pow_right Nat.two_pos (Nat.not_lt.1 high)))
      exact other ((zero fits).trans (zero fits').symm)
    have entry := spec.getElem?_bitToLevel (below.trans_le spec.last)
    rw [Nat.sub_add_cancel tables.pos] at entry
    rw [tables.levels, getD_eq_getElem?_getD, entry]
    -- the bit lies between the offset of this level and the next
    have some : levelData.numLevel - 1 ≠ 0 := fun zero => by
      rw [zero, spec.first] at below
      exact Nat.not_lt_zero b below
    generalize level : Nat.findGreatest (fun l => 1 ≤ l ∧ levelData.lidxToOffset.getD (l - 1) 0 ≤ b) (levelData.numLevel - 1) = l
    obtain ⟨le, found, greatest⟩ := Nat.findGreatest_eq_iff.1 level
    have positive : l ≠ 0 := fun zero => by
      refine @greatest 1 (by omega) (by omega) ⟨le_rfl, ?_⟩
      rw [spec.first]
      exact Nat.zero_le b
    have high : b < levelData.lidxToOffset.getD l 0 := by
      rcases le.eq_or_lt with rfl | lower
      · exact below
      · have next := greatest (Nat.lt_succ_self l) lower
        simp only [not_and, Nat.not_le] at next
        exact next (Nat.le_add_left 1 l)
    refine (Nat.findGreatest_eq_iff.2 ⟨le, fun _ same => ?_, fun m lower inside => not_not.2 ?_⟩).symm
    · exact other ((tables.getCell_eq_iff (by omega) (by omega)).1 same b (found positive).2 high)
    · refine (tables.getCell_eq_iff (by omega) (by omega)).2 fun b' low _ => above (high.trans_le ?_)
      exact (spec.mono (by omega) (by omega)).trans low

end LevelData

/-- A `MultiLevelPartition` as it is stored: the tables made for the numbers of cells and a word for each node and the sentinel,
with the cells of each level within those of the next. -/
structure PackedPartition (n : ℕ) where
  lidxToNumCells : List ℕ
  small : ∀ count ∈ lidxToNumCells, count < 2 ^ 32
  levelData : LevelData
  made : LevelData.makeLevelData lidxToNumCells = .ok levelData
  partition : Fin (n + 1) → PartitionID
  fits : ∀ node, (partition node).toNat < 2 ^ levelData.lidxToOffset.getD (levelData.numLevel - 1) 0
  cells : ∀ (l : ℕ) (u : Fin n), 1 ≤ l → l < levelData.numLevel →
    levelData.getCell l (partition u.castSucc) < levelData.getCell l (partition (Fin.last n))
  nested : ∀ (l : ℕ) (u v : Fin n), 1 ≤ l → l + 1 < levelData.numLevel →
    levelData.getCell l (partition u.castSucc) = levelData.getCell l (partition v.castSucc) →
      levelData.getCell (l + 1) (partition u.castSucc) = levelData.getCell (l + 1) (partition v.castSucc)

namespace PackedPartition

variable {n : ℕ} (packed : PackedPartition n)

def word (node : Fin n) : PartitionID := packed.partition node.castSucc

theorem tables : packed.levelData.Tables := LevelData.makeLevelData_spec packed.made packed.small

/-- The cells that the words stand for. -/
def unpacked : MultiLevelPartition n where
  numLevels := packed.levelData.numLevel
  numLevels_pos := packed.tables.pos
  numCells l := packed.levelData.getCell l (packed.partition (Fin.last n))
  cell l node := packed.levelData.getCell l (packed.word node)
  cell_lt := packed.cells
  nested := packed.nested

theorem getHighestDifferentLevel_eq (first second : Fin n) :
    packed.levelData.getHighestDifferentLevel (packed.word first) (packed.word second) =
      packed.unpacked.highestDifferentLevel first second :=
  packed.tables.getHighestDifferentLevel_eq (packed.fits _) (packed.fits _)

/-- **Query levels** read from the words are those of the cells. -/
theorem getQueryLevel_eq (start target node : Fin n) :
    packed.levelData.getQueryLevel (packed.word start) (packed.word target) (packed.word node) =
      packed.unpacked.queryLevel start target node := by
  rw [LevelData.getQueryLevel, getHighestDifferentLevel_eq, getHighestDifferentLevel_eq, MultiLevelPartition.queryLevel]

end PackedPartition

end Osrm
