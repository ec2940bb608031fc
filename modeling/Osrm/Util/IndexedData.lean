import Osrm.Util.GroupBlocks

/-!
# Indexed data

`util::IndexedData` holds a list of byte strings, such as the names of roads, in blocks of a group
block policy. It is built from the offsets of the strings in one array of bytes. A first pass writes
the block references and sums up the size; a second pass writes the prefix and the data of each
block. `at` finds the block of an index and lets the policy find the string in it.

`Laid` says how the blocks lie one after another. Both passes write what it says, and reading by it
gives every string back.
-/

namespace Osrm.IndexedData

open Function List FixedGroupBlock

structure IndexedDataImpl (policy : GroupBlockPolicy) where
  blocks : List policy.BlockReference
  values : List UInt8

section Code

variable (policy : GroupBlockPolicy)

/-- The number of strings of a block that have their length in the prefix, `distance` being that to the sentinel. -/
def inPrefix (distance : ℕ) : ℕ := min policy.blockSize distance

def inBlock (distance : ℕ) : ℕ := inPrefix policy distance + min 1 (distance - inPrefix policy distance)

/-- The loop over the blocks that writes the references, with the data size; the offsets are those from `curr` on. -/
def writeReferences : ℕ → List ℕ → ℕ → Except Fault (List policy.BlockReference × ℕ)
  | fuel + 1, curr :: following :: rest, dataSize => do
    let offsets := curr :: following :: rest
    let distance := offsets.length - 1
    let (reference, dataSize) ← policy.writeBlockReference (offsets.take (inPrefix policy distance + 1)) dataSize
    let next := offsets.getD (inBlock policy distance) 0
    let (references, dataSize) ←
      writeReferences fuel (offsets.drop (inBlock policy distance)) (dataSize + dataLength curr next)
    return (reference :: references, dataSize)
  | _, _, dataSize => .ok ([], dataSize)

/-- The loop over the blocks that writes their prefixes and data. -/
def writeBlocks (data : List UInt8) : ℕ → List ℕ → Except Fault (List UInt8)
  | fuel + 1, curr :: following :: rest => do
    let offsets := curr :: following :: rest
    let distance := offsets.length - 1
    let prefixBytes ← policy.writeBlockPrefix (offsets.take (inPrefix policy distance + 1))
    let next := offsets.getD (inBlock policy distance) 0
    let bytes ← writeBlocks data fuel (offsets.drop (inBlock policy distance))
    return prefixBytes ++ (data.drop curr).take (next - curr) ++ bytes
  | _, _ => .ok []

/-- `number_of_blocks`, before it is stored as a `BlocksNumberType` -/
def numberOfBlocks (blockSize numberOfElements : ℕ) : ℕ :=
  if numberOfElements = 0 then 0 else 1 + (numberOfElements - 1) / (blockSize + 1)

/-- `IndexedDataImpl(first, last, data)`. The vectors are resized first and then written through iterators, which must not
run over their ends. -/
def construct (offsets : List ℕ) (data : List UInt8) : Except Fault (IndexedDataImpl policy) := do
  let (blocks, dataSize) ← writeReferences policy offsets.length offsets 0
  if blocks.length > numberOfBlocks policy.blockSize (offsets.length - 1) % 2 ^ 32 then throw .outOfBounds
  let values ← writeBlocks policy data offsets.length offsets
  if values.length > dataSize then throw .outOfBounds
  return ⟨blocks, values ++ replicate (dataSize - values.length) 0⟩

def adapt (values : List UInt8) (first last : ℕ) : Except Fault (List UInt8) :=
  if first ≤ last ∧ last ≤ values.length then .ok ((values.drop first).take (last - first)) else .error .outOfBounds

variable {policy}

def atIndex (data : IndexedDataImpl policy) (index : ℕ) : Except Fault (List UInt8) :=
  if data.values.isEmpty then .ok []
  else
    let blockIdx := index / (policy.blockSize + 1)
    let internalIdx := index % (policy.blockSize + 1)
    match data.blocks[blockIdx]? with
    | none => .ok []
    | some reference => do
      let last := (data.blocks[blockIdx + 1]?.map policy.offset).getD data.values.length
      let (first, last) ← policy.readRefrencedBlock reference internalIdx data.values (policy.offset reference) last
      adapt data.values first last

end Code

/-! ### Offsets -/

/-- The offsets of strings that lie one after another from `base` on, with that of the end. -/
def offsetsFrom : ℕ → List (List UInt8) → List ℕ
  | base, [] => [base]
  | base, string :: strings => base :: offsetsFrom (base + string.length) strings

section Offsets

variable {base : ℕ} {strings : List (List UInt8)}

theorem length_offsetsFrom : ∀ (base : ℕ) (strings : List (List UInt8)), (offsetsFrom base strings).length = strings.length + 1
  | _, [] => rfl
  | base, string :: strings => by rw [offsetsFrom, length_cons, length_offsetsFrom, length_cons]

theorem take_offsetsFrom : ∀ (base : ℕ) (strings : List (List UInt8)) (count : ℕ),
    (offsetsFrom base strings).take (count + 1) = offsetsFrom base (strings.take count)
  | _, [], _ => by simp [offsetsFrom]
  | _, _ :: _, 0 => rfl
  | base, string :: strings, count + 1 => by
    rw [offsetsFrom, take_succ_cons, take_offsetsFrom, take_succ_cons, offsetsFrom]

theorem drop_offsetsFrom : ∀ (base : ℕ) (strings : List (List UInt8)) {count : ℕ}, count ≤ strings.length →
    (offsetsFrom base strings).drop count = offsetsFrom (base + (strings.take count).flatten.length) (strings.drop count)
  | _, _, 0, _ => rfl
  | base, string :: strings, count + 1, inside => by
    rw [offsetsFrom, drop_succ_cons, drop_offsetsFrom _ strings (Nat.le_of_succ_le_succ inside), take_succ_cons,
      flatten_cons, length_append, drop_succ_cons, Nat.add_assoc]

theorem getD_offsetsFrom {count : ℕ} (inside : count ≤ strings.length) :
    (offsetsFrom base strings).getD count 0 = base + (strings.take count).flatten.length := by
  have front (start : ℕ) : (offsetsFrom start (strings.drop count)).getD 0 0 = start := by cases strings.drop count <;> rfl
  replace front := front (base + (strings.take count).flatten.length)
  rw [← drop_offsetsFrom base strings inside, getD_eq_getElem?_getD, getElem?_drop] at front
  rwa [getD_eq_getElem?_getD]

theorem dataLength_add {length : ℕ} (small : base + length < 2 ^ 32) : dataLength base (base + length) = length := by
  rw [dataLength]
  omega

theorem dataLengths_offsetsFrom : ∀ (base : ℕ) (strings : List (List UInt8)), base + strings.flatten.length < 2 ^ 32 →
    dataLengths (offsetsFrom base strings) = strings.map length
  | _, [], _ => rfl
  | base, string :: strings, small => by
    rw [flatten_cons, length_append] at small
    have tail := dataLengths_offsetsFrom (base + string.length) strings (by omega)
    have first := @dataLength_add base string.length (by omega)
    cases strings with
    | nil => rw [offsetsFrom, offsetsFrom, dataLengths, first]; rfl
    | cons second strings => rw [offsetsFrom, offsetsFrom, dataLengths, first, map_cons, ← tail, offsetsFrom]

end Offsets

/-! ### The layout of all blocks -/

section Laid

variable {policy : GroupBlockPolicy} (layout : Layout policy) {strings : List (List UInt8)}

/-- The lengths in the prefix of the first block. -/
def prefixLengths (blockSize : ℕ) (strings : List (List UInt8)) : List ℕ := (strings.take blockSize).map length

/-- The strings of the first block, one after another. -/
def blockData (blockSize : ℕ) (strings : List (List UInt8)) : List UInt8 := (strings.take (blockSize + 1)).flatten

/-- The references and the bytes of the blocks of strings, the first block at `dataOffset`. -/
inductive Laid : ℕ → List (List UInt8) → List policy.BlockReference → List UInt8 → Prop
  | nil {dataOffset : ℕ} : Laid dataOffset [] [] []
  | block {dataOffset : ℕ} {strings : List (List UInt8)} {references : List policy.BlockReference} {bytes : List UInt8} :
      strings ≠ [] →
      Laid (dataOffset + layout.prefixLength (prefixLengths policy.blockSize strings) + (blockData policy.blockSize strings).length)
        (strings.drop (policy.blockSize + 1)) references bytes →
      Laid dataOffset strings (layout.reference (prefixLengths policy.blockSize strings) dataOffset :: references)
        (layout.prefixBytes (prefixLengths policy.blockSize strings) ++ blockData policy.blockSize strings ++ bytes)

/-- The bytes that strings take: for each block those of its prefix and its data. -/
def storedSize (prefixLength : List ℕ → ℕ) (blockSize : ℕ) (strings : List (List UInt8)) : ℕ :=
  ((range (numberOfBlocks blockSize strings.length)).map fun block =>
    prefixLength (prefixLengths blockSize (strings.drop (block * (blockSize + 1)))) +
      (blockData blockSize (strings.drop (block * (blockSize + 1)))).length).sum

theorem numberOfBlocks_step {n : ℕ} (blockSize : ℕ) (some : n ≠ 0) :
    numberOfBlocks blockSize n = numberOfBlocks blockSize (n - (blockSize + 1)) + 1 := by
  rw [numberOfBlocks, numberOfBlocks, if_neg some]
  split
  · next last => rw [Nat.div_eq_of_lt (by omega)]
  · next more =>
    have split : n - 1 = n - (blockSize + 1) - 1 + (blockSize + 1) := by omega
    rw [split, Nat.add_div_right _ (by omega)]
    omega

theorem le_of_numberOfBlocks_le {blockSize n i : ℕ} (behind : numberOfBlocks blockSize n ≤ i / (blockSize + 1)) : n ≤ i := by
  by_contra inside
  rw [numberOfBlocks, if_neg (by omega)] at behind
  have below : i / (blockSize + 1) ≤ (n - 1) / (blockSize + 1) := Nat.div_le_div_right (by omega)
  omega

theorem storedSize_step (prefixLength : List ℕ → ℕ) (blockSize : ℕ) (some : strings ≠ []) :
    storedSize prefixLength blockSize strings = prefixLength (prefixLengths blockSize strings) +
      (blockData blockSize strings).length + storedSize prefixLength blockSize (strings.drop (blockSize + 1)) := by
  have count := numberOfBlocks_step blockSize (length_pos_iff.2 some).ne'
  rw [storedSize, count, range_succ_eq_map, map_cons, sum_cons, Nat.zero_mul, storedSize,
    length_drop, map_map]
  congr 3
  funext block
  rw [comp_apply, drop_drop, Nat.succ_mul, Nat.add_comm (blockSize + 1)]

variable {layout} {dataOffset : ℕ} {strings : List (List UInt8)} {references : List policy.BlockReference} {bytes : List UInt8}
  {blockSize : ℕ} {localIndex base curr fuel : ℕ} {offsets : List ℕ} {before after : List UInt8} {P : ℕ → Prop}

theorem exists_laid (layout : Layout policy) : ∀ (n : ℕ) {dataOffset : ℕ} {strings : List (List UInt8)}, strings.length ≤ n →
    ∃ references bytes, Laid layout dataOffset strings references bytes
  | n, _, [], _ => ⟨[], [], .nil⟩
  | n + 1, dataOffset, string :: strings, short => by
    have fewer : ((string :: strings).drop (policy.blockSize + 1)).length ≤ n := by
      rw [length_drop] at *
      omega
    obtain ⟨references, bytes, laid⟩ := exists_laid layout n fewer
    exact ⟨_, _, .block (cons_ne_nil _ _) laid⟩

theorem length_prefixLengths_le (blockSize : ℕ) (strings : List (List UInt8)) :
    (prefixLengths blockSize strings).length ≤ blockSize := by
  rw [prefixLengths, length_map, length_take]
  exact Nat.min_le_left _ _

theorem Laid.length_references (laid : Laid layout dataOffset strings references bytes) :
    references.length = numberOfBlocks policy.blockSize strings.length := by
  induction laid with
  | nil => rfl
  | block some _ ih =>
    rw [length_cons, ih, length_drop, numberOfBlocks_step _ (length_pos_iff.2 some).ne']

theorem Laid.length_bytes (laid : Laid layout dataOffset strings references bytes) :
    bytes.length = storedSize layout.prefixLength policy.blockSize strings := by
  induction laid with
  | nil => rfl
  | block some _ ih =>
    rw [length_append, length_append, ih, layout.length_prefixBytes (length_prefixLengths_le _ _),
      storedSize_step _ _ some]

/-- The strings that have their length in a prefix have lengths with `P`. -/
def Prefixed (blockSize : ℕ) (strings : List (List UInt8)) (P : ℕ → Prop) : Prop :=
  ∀ i (inside : i < strings.length), i % (blockSize + 1) ≠ blockSize → P strings[i].length

theorem Prefixed.first (prefixed : Prefixed blockSize strings P) :
    ∀ length ∈ prefixLengths blockSize strings, P length := by
  intro length mem
  obtain ⟨string, early, rfl⟩ := mem_map.1 mem
  obtain ⟨i, inside, rfl⟩ := mem_take_iff_getElem.1 early
  have low : i < blockSize := Nat.lt_of_lt_of_le inside (Nat.min_le_left _ _)
  apply prefixed i
  rw [Nat.mod_eq_of_lt (Nat.lt_succ_of_lt low)]
  exact Nat.ne_of_lt low

theorem Prefixed.rest (prefixed : Prefixed blockSize strings P) :
    Prefixed blockSize (strings.drop (blockSize + 1)) P := by
  intro i inside notLast
  rw [getElem_drop]
  apply prefixed
  rwa [Nat.add_mod_left]

theorem inBlock_eq (policy : GroupBlockPolicy) (distance : ℕ) : inBlock policy distance = min (policy.blockSize + 1) distance := by
  rw [inBlock, inPrefix]
  omega

/-- What one round of the loops takes from the offsets. -/
structure Round (policy : GroupBlockPolicy) (base : ℕ) (strings : List (List UInt8)) : Prop where
  shape : ∃ following rest, offsetsFrom base strings = base :: following :: rest
  front : (offsetsFrom base strings).take (inPrefix policy ((offsetsFrom base strings).length - 1) + 1) =
    offsetsFrom base (strings.take policy.blockSize)
  lengths : dataLengths (offsetsFrom base (strings.take policy.blockSize)) = prefixLengths policy.blockSize strings
  next : (offsetsFrom base strings).getD (inBlock policy ((offsetsFrom base strings).length - 1)) 0 =
    base + (blockData policy.blockSize strings).length
  rest : (offsetsFrom base strings).drop (inBlock policy ((offsetsFrom base strings).length - 1)) =
    offsetsFrom (base + (blockData policy.blockSize strings).length) (strings.drop (policy.blockSize + 1))
  fewer : (strings.drop (policy.blockSize + 1)).length < strings.length
  smaller : base + (blockData policy.blockSize strings).length + (strings.drop (policy.blockSize + 1)).flatten.length < 2 ^ 32

theorem flatten_split (strings : List (List UInt8)) (n : ℕ) :
    strings.flatten = (strings.take n).flatten ++ (strings.drop n).flatten := by
  rw [← flatten_append, take_append_drop]

theorem round_offsetsFrom (some : strings ≠ []) (small : base + strings.flatten.length < 2 ^ 32) :
    Round policy base strings := by
  have distance : (offsetsFrom base strings).length - 1 = strings.length := by rw [length_offsetsFrom, Nat.add_sub_cancel]
  have inside := Nat.min_le_right (policy.blockSize + 1) strings.length
  have parts : (blockData policy.blockSize strings).length + (strings.drop (policy.blockSize + 1)).flatten.length =
      strings.flatten.length := by
    rw [flatten_split strings (policy.blockSize + 1), length_append, blockData]
  refine ⟨?_, ?_, ?_, ?_, ?_, by simpa using length_pos_iff.2 some, by omega⟩
  · obtain ⟨string, strings, rfl⟩ := exists_cons_of_ne_nil some
    cases strings with
    | nil => exact ⟨_, _, rfl⟩
    | cons second strings => exact ⟨_, _, rfl⟩
  · rw [distance, take_offsetsFrom, inPrefix, ← take_eq_take_min]
  · apply dataLengths_offsetsFrom
    have front := flatten_split strings policy.blockSize
    rw [front, length_append] at small
    omega
  · rw [distance, inBlock_eq, getD_offsetsFrom inside, ← take_eq_take_min, blockData]
  · rw [distance, inBlock_eq, drop_offsetsFrom base strings inside, ← take_eq_take_min, ← drop_eq_drop_min, blockData]

section

variable (laid : Laid layout dataOffset strings references bytes)

include laid

/-- The first pass writes the references and ends with the stored size. -/
theorem Laid.writeReferences_eq
    (enough : strings.length < fuel) (small : base + strings.flatten.length < 2 ^ 32)
    (described : Prefixed policy.blockSize strings layout.Described) :
    writeReferences policy fuel (offsetsFrom base strings) dataOffset =
      .ok (references, dataOffset + storedSize layout.prefixLength policy.blockSize strings) := by
  induction laid generalizing fuel base with
  | nil => cases fuel <;> rfl
  | @block dataOffset strings references bytes some _ ih =>
    obtain ⟨fuel, rfl⟩ := Nat.exists_eq_add_one_of_ne_zero (Nat.ne_zero_of_lt enough)
    have round : Round policy base strings := round_offsetsFrom some small
    have written := layout.writes_reference (offsetsFrom base (strings.take policy.blockSize)) dataOffset
    rw [round.lengths] at written
    have later := ih (round.fewer.trans_le (Nat.le_of_lt_succ enough)) round.smaller described.rest
    obtain ⟨following, rest, shape⟩ := round.shape
    rw [shape, writeReferences, ← shape]
    simp only [round.front, round.next, round.rest, written (length_prefixLengths_le _ _) described.first,
      dataLength_add (Nat.lt_of_le_of_lt (Nat.le_add_right _ _) round.smaller), later, storedSize_step _ _ some,
      bind, Except.bind, pure, Except.pure]
    rw [Nat.add_assoc, Nat.add_assoc, Nat.add_assoc]

/-- The second pass writes the bytes. -/
theorem Laid.writeBlocks_eq {data : List UInt8}
    (enough : strings.length < fuel) (small : base + strings.flatten.length < 2 ^ 32)
    (held : Prefixed policy.blockSize strings layout.Held) (source : data.drop base = strings.flatten ++ after) :
    writeBlocks policy data fuel (offsetsFrom base strings) = .ok bytes := by
  induction laid generalizing fuel base with
  | nil => cases fuel <;> rfl
  | @block dataOffset strings references bytes some _ ih =>
    obtain ⟨fuel, rfl⟩ := Nat.exists_eq_add_one_of_ne_zero (Nat.ne_zero_of_lt enough)
    have round : Round policy base strings := round_offsetsFrom some small
    have written := layout.writesPrefix (offsetsFrom base (strings.take policy.blockSize))
    rw [round.lengths] at written
    have parts : strings.flatten = blockData policy.blockSize strings ++ (strings.drop (policy.blockSize + 1)).flatten :=
      flatten_split strings (policy.blockSize + 1)
    rw [parts, append_assoc] at source
    have behind : data.drop (base + (blockData policy.blockSize strings).length) =
        (strings.drop (policy.blockSize + 1)).flatten ++ after := by
      rw [← drop_drop, source, drop_left]
    have later := ih (round.fewer.trans_le (Nat.le_of_lt_succ enough)) round.smaller held.rest behind
    obtain ⟨following, rest, shape⟩ := round.shape
    rw [shape, writeBlocks, ← shape]
    simp only [round.front, round.next, round.rest, written held.first, later, bind, Except.bind, pure, Except.pure,
      Nat.add_sub_cancel_left, source, take_left]

/-- The first block starts at the data offset, and without blocks the bytes end there. -/
theorem Laid.start (small : dataOffset + bytes.length < 2 ^ 32) :
    (references[0]?.map policy.offset).getD (dataOffset + bytes.length) = dataOffset := by
  cases laid with
  | nil => rfl
  | block => exact layout.offset_reference _ (Nat.lt_of_le_of_lt (Nat.le_add_right _ _) small)

end

theorem flatten_drop (strings : List (List UInt8)) (i : ℕ) :
    (strings.drop i).flatten = strings.getD i [] ++ (strings.drop (i + 1)).flatten := by
  by_cases inside : i < strings.length
  · rw [getD_eq_getElem _ _ inside, drop_eq_getElem_cons inside, flatten_cons]
  · have outside := Nat.not_lt.1 inside
    rw [getD_eq_default _ _ outside, drop_of_length_le outside, drop_of_length_le (Nat.le_succ_of_le outside)]
    rfl

/-- A string among others that lie one after another. -/
theorem adapt_flatten (strings : List (List UInt8)) (i : ℕ) :
    adapt (before ++ strings.flatten ++ after) (before.length + (strings.take i).flatten.length)
      (before.length + (strings.take i).flatten.length + (strings.getD i []).length) = .ok (strings.getD i []) := by
  have parts : strings.flatten = (strings.take i).flatten ++ (strings.getD i [] ++ (strings.drop (i + 1)).flatten) := by
    rw [← flatten_drop]
    exact flatten_split strings i
  have place : before ++ strings.flatten ++ after =
      (before ++ (strings.take i).flatten) ++ (strings.getD i [] ++ ((strings.drop (i + 1)).flatten ++ after)) := by
    rw [parts]
    simp
  rw [place, ← length_append, adapt, if_pos, drop_left, Nat.add_sub_cancel_left, take_left]
  simp only [length_append]
  omega

/-- The range that a policy finds is that of the string. -/
theorem blockRange (strings : List (List UInt8)) (inside : localIndex ≤ blockSize) :
    base + ((prefixLengths blockSize strings).take localIndex).sum = base + (strings.take localIndex).flatten.length ∧
      (if localIndex < blockSize then
        base + ((prefixLengths blockSize strings).take localIndex).sum + (prefixLengths blockSize strings).getD localIndex 0
      else base + (blockData blockSize strings).length) =
        base + (strings.take localIndex).flatten.length + (strings.getD localIndex []).length := by
  have front : ((prefixLengths blockSize strings).take localIndex).sum = (strings.take localIndex).flatten.length := by
    rw [prefixLengths, ← map_take, take_take, Nat.min_eq_left inside, length_flatten]
  refine ⟨by rw [front], ?_⟩
  split
  · next below =>
    have length : (prefixLengths blockSize strings).getD localIndex 0 = (strings.getD localIndex []).length := by
      rw [prefixLengths, getD_eq_getElem?_getD, getElem?_map, getElem?_take_of_lt below,
        getD_eq_getElem?_getD]
      cases strings[localIndex]? <;> rfl
    rw [front, length]
  · next last =>
    obtain rfl : localIndex = blockSize := by omega
    rw [blockData, take_add_one, getD_eq_getElem?_getD, Nat.add_assoc]
    cases strings[localIndex]? <;> simp

def Layout.blockBytes (layout : Layout policy) (strings : List (List UInt8)) : List UInt8 :=
  layout.prefixBytes (prefixLengths policy.blockSize strings) ++ blockData policy.blockSize strings

theorem Layout.length_blockBytes (layout : Layout policy) (strings : List (List UInt8)) (start : ℕ) :
    start + layout.prefixLength (prefixLengths policy.blockSize strings) + (blockData policy.blockSize strings).length =
      start + (layout.blockBytes strings).length := by
  rw [blockBytes, length_append, layout.length_prefixBytes (length_prefixLengths_le _ _), Nat.add_assoc]

/-- A string of the block that the reference describes. -/
theorem Layout.read_block (layout : Layout policy) (strings : List (List UInt8))
    (fits : ∀ length ∈ prefixLengths policy.blockSize strings, layout.Described length ∧ layout.Held length)
    (place : before.length = dataOffset) (inside : localIndex ≤ policy.blockSize) :
    ∃ first last,
      policy.readRefrencedBlock (layout.reference (prefixLengths policy.blockSize strings) dataOffset) localIndex
        (before ++ (layout.blockBytes strings ++ after)) dataOffset (dataOffset + (layout.blockBytes strings).length) =
          .ok (first, last) ∧
      adapt (before ++ (layout.blockBytes strings ++ after)) first last = .ok (strings.getD localIndex []) := by
  obtain ⟨rangeFirst, rangeLast⟩ := @blockRange policy.blockSize localIndex
    (dataOffset + layout.prefixLength (prefixLengths policy.blockSize strings)) strings inside
  rw [← layout.length_blockBytes, blockBytes, append_assoc]
  have front := @drop_left _ before (layout.prefixBytes (prefixLengths policy.blockSize strings) ++
    (blockData policy.blockSize strings ++ after))
  rw [place] at front
  refine ⟨_, _, layout.reads (length_prefixLengths_le policy.blockSize strings) fits front inside _, ?_⟩
  have here : (strings.take (policy.blockSize + 1)).getD localIndex [] = strings.getD localIndex [] := by
    rw [getD_eq_getElem?_getD, getElem?_take_of_lt (Nat.lt_succ_of_le inside), getD_eq_getElem?_getD]
  have earlier : (strings.take (policy.blockSize + 1)).take localIndex = strings.take localIndex := by
    rw [take_take, Nat.min_eq_left (Nat.le_succ_of_le inside)]
  have found := @adapt_flatten (before ++ layout.prefixBytes (prefixLengths policy.blockSize strings)) after
    (strings.take (policy.blockSize + 1)) localIndex
  rw [here, earlier, length_append, place, layout.length_prefixBytes (length_prefixLengths_le _ _), append_assoc,
    append_assoc] at found
  rw [rangeLast, rangeFirst]
  exact found

/-- **Every string is read from its block.** -/
theorem Laid.reads (laid : Laid layout dataOffset strings references bytes) (small : dataOffset + bytes.length < 2 ^ 32)
    (described : Prefixed policy.blockSize strings layout.Described)
    (held : Prefixed policy.blockSize strings layout.Held) (place : before.length = dataOffset) {block : ℕ}
    {reference : policy.BlockReference} (found : references[block]? = some reference) (inside : localIndex ≤ policy.blockSize) :
    ∃ first last,
      policy.readRefrencedBlock reference localIndex (before ++ bytes) (policy.offset reference)
        ((references[block + 1]?.map policy.offset).getD (dataOffset + bytes.length)) = .ok (first, last) ∧
      adapt (before ++ bytes) first last = .ok (strings.getD (block * (policy.blockSize + 1) + localIndex) []) := by
  induction laid generalizing before block with
  | nil => cases found
  | @block dataOffset strings references bytes some laid ih =>
    rw [layout.length_blockBytes] at laid ih
    rw [← Layout.blockBytes, length_append, ← Nat.add_assoc] at small ⊢
    cases block with
    | zero =>
      cases found
      have offset : policy.offset (layout.reference (prefixLengths policy.blockSize strings) dataOffset) = dataOffset :=
        layout.offset_reference _ (by omega)
      rw [offset, getElem?_cons_succ, laid.start small, Nat.zero_mul, Nat.zero_add]
      exact layout.read_block strings (fun length mem => ⟨described.first length mem, held.first length mem⟩) place inside
    | succ block =>
      have start : (before ++ layout.blockBytes strings).length = dataOffset + (layout.blockBytes strings).length := by
        rw [length_append, place]
      have read := ih small described.rest held.rest start found
      rw [append_assoc, getD_eq_getElem?_getD, getElem?_drop] at read
      have index : (block + 1) * (policy.blockSize + 1) + localIndex =
          policy.blockSize + 1 + (block * (policy.blockSize + 1) + localIndex) := by
        rw [Nat.succ_mul]
        omega
      rw [index]
      exact read

theorem Laid.length_le (laid : Laid layout dataOffset strings references bytes) : strings.flatten.length ≤ bytes.length := by
  induction laid with
  | nil => exact Nat.le_refl _
  | @block dataOffset strings references bytes some laid ih =>
    rw [flatten_split strings (policy.blockSize + 1)]
    simp only [length_append, blockData]
    omega

/-- The container gives every string back, and nothing beyond the last. -/
theorem Laid.atIndex_eq (laid : Laid layout 0 strings references bytes) (small : bytes.length < 2 ^ 32)
    (described : Prefixed policy.blockSize strings layout.Described) (held : Prefixed policy.blockSize strings layout.Held)
    (i : ℕ) : atIndex (⟨references, bytes⟩ : IndexedDataImpl policy) i = .ok (strings.getD i []) := by
  rw [atIndex]
  split_ifs with empty
  · have none : bytes = [] := isEmpty_iff.1 empty
    have bound := laid.length_le
    rw [none, flatten_split strings i, flatten_drop, length_append, length_append, length_nil] at bound
    rw [length_eq_zero_iff.1 (by omega : (strings.getD i []).length = 0)]
  · simp only
    cases found : references[i / (policy.blockSize + 1)]? with
    | none =>
      have behind := getElem?_eq_none_iff.1 found
      rw [laid.length_references] at behind
      rw [getD_eq_default _ _ (le_of_numberOfBlocks_le behind)]
    | some reference =>
      have inside : i % (policy.blockSize + 1) ≤ policy.blockSize := Nat.le_of_lt_succ (Nat.mod_lt _ (Nat.succ_pos _))
      obtain ⟨first, last, read, adapted⟩ := laid.reads (by rwa [Nat.zero_add]) described held length_nil found inside
      rw [nil_append, Nat.zero_add] at read
      rw [Nat.div_add_mod'] at adapted
      simp only [read]
      exact adapted

/-- The sizes of both stored arrays are below 2^32: the number of block references and the bytes of prefixes and data. -/
structure Fits (prefixLength : List ℕ → ℕ) (blockSize : ℕ) (strings : List (List UInt8)) : Prop where
  blocks : numberOfBlocks blockSize strings.length < 2 ^ 32
  values : storedSize prefixLength blockSize strings < 2 ^ 32

/-- What the sizes mean for the passes: offsets do not wrap, the loops end, and the references fit. -/
theorem Laid.sizes (laid : Laid layout 0 strings references bytes) (fits : Fits layout.prefixLength policy.blockSize strings) :
    0 + strings.flatten.length < 2 ^ 32 ∧ strings.length < (offsetsFrom 0 strings).length ∧
      ¬references.length > numberOfBlocks policy.blockSize ((offsetsFrom 0 strings).length - 1) % 2 ^ 32 := by
  have bound := laid.length_le
  have values := fits.values
  rw [← laid.length_bytes] at values
  rw [length_offsetsFrom, Nat.add_sub_cancel, Nat.mod_eq_of_lt fits.blocks, laid.length_references]
  exact ⟨by omega, Nat.lt_succ_self _, Nat.lt_irrefl _⟩

/-- **IndexedData gives back what was stored**, for a policy with a layout. -/
theorem construct_spec (layout : Layout policy)
    (fits : Fits layout.prefixLength policy.blockSize strings)
    (described : Prefixed policy.blockSize strings layout.Described) (held : Prefixed policy.blockSize strings layout.Held) :
    ∃ data, construct policy (offsetsFrom 0 strings) strings.flatten = .ok data ∧
      ∀ i, atIndex data i = .ok (strings.getD i []) := by
  obtain ⟨references, bytes, laid⟩ := @exists_laid policy layout strings.length 0 strings (Nat.le_refl _)
  obtain ⟨flat, enough, number⟩ := laid.sizes fits
  have size := laid.length_bytes
  have first := laid.writeReferences_eq enough flat described
  have second := laid.writeBlocks_eq enough flat held (append_nil strings.flatten).symm
  refine ⟨⟨references, bytes⟩, ?_, laid.atIndex_eq (size ▸ fits.values) described held⟩
  rw [Nat.zero_add, ← size] at first
  simp only [construct, first, second, bind, Except.bind, if_neg number, if_neg (Nat.lt_irrefl bytes.length), pure, Except.pure,
    Nat.sub_self, replicate_zero, append_nil]

theorem Prefixed.of_parts (first : ∀ length ∈ prefixLengths blockSize strings, P length)
    (rest : Prefixed blockSize (strings.drop (blockSize + 1)) P) : Prefixed blockSize strings P := by
  intro i inside notLast
  by_cases early : i < blockSize + 1
  · rw [Nat.mod_eq_of_lt early] at notLast
    apply first
    exact mem_map_of_mem (mem_take_iff_getElem.2 ⟨i, by omega, rfl⟩)
  · have later := rest (i - (blockSize + 1)) (by rw [length_drop]; omega)
    have place : blockSize + 1 + (i - (blockSize + 1)) = i := by omega
    rw [← Nat.add_mod_left (blockSize + 1)] at later
    simp only [getElem_drop, place] at later
    exact later notLast

/-- A length that does not fit its byte ends the second pass of `FixedGroupBlock`. -/
theorem writeBlocks_fixed_error (blockSize : ℕ) (data : List UInt8) : ∀ {fuel base : ℕ} {strings : List (List UInt8)},
    strings.length < fuel → base + strings.flatten.length < 2 ^ 32 → ¬Prefixed blockSize strings (· ≤ 255) →
      ∃ length, writeBlocks (fixedGroupBlock blockSize) data fuel (offsetsFrom base strings) = .error (.tooLargeDataLength length)
  | fuel + 1, base, strings, enough, small, large => by
    have some : strings ≠ [] := by
      rintro rfl
      exact large fun i inside => absurd inside (Nat.not_lt_zero i)
    have round : Round (fixedGroupBlock blockSize) base strings := round_offsetsFrom some small
    have positive := length_pos_iff.2 some
    have size : (fixedGroupBlock blockSize).blockSize = blockSize := rfl
    have lengths : dataLengths (offsetsFrom base (strings.take blockSize)) = prefixLengths blockSize strings := round.lengths
    obtain ⟨following, rest, shape⟩ := round.shape
    rw [shape, writeBlocks, ← shape]
    simp only [round.front, round.rest, size]
    by_cases first : ∀ length ∈ prefixLengths blockSize strings, length ≤ 255
    · have rest : ¬Prefixed blockSize (strings.drop (blockSize + 1)) (· ≤ 255) := fun rest => large (.of_parts first rest)
      have fewer : (strings.drop (blockSize + 1)).length < fuel := by
        rw [length_drop]
        omega
      obtain ⟨length, failed⟩ := @writeBlocks_fixed_error blockSize data fuel (base + (blockData blockSize strings).length)
        (strings.drop (blockSize + 1)) fewer round.smaller rest
      have written := (layout blockSize).writesPrefix (offsetsFrom base (strings.take blockSize))
        (by rw [lengths]; exact first)
      exact ⟨length, by rw [failed, written]; rfl⟩
    · push Not at first
      obtain ⟨length, failed⟩ := mapM_prefixByte_error first
      have written : (fixedGroupBlock blockSize).writeBlockPrefix (offsetsFrom base (strings.take blockSize)) =
          .error (.tooLargeDataLength length) := by
        change writeBlockPrefix blockSize _ = _
        rw [writeBlockPrefix, lengths, failed]
        rfl
      exact ⟨length, by rw [written]; rfl⟩

/-- `FixedGroupBlock` refuses exactly the strings with a length that does not fit its byte. -/
theorem construct_fixed_throws_iff
    (fits : Fits (fun _ => blockSize) blockSize strings) :
    (∃ length, construct (fixedGroupBlock blockSize) (offsetsFrom 0 strings) strings.flatten =
      .error (.tooLargeDataLength length)) ↔ ¬Prefixed blockSize strings (· ≤ 255) := by
  have described : Prefixed blockSize strings (layout blockSize).Described := fun _ _ _ => trivial
  constructor
  · rintro ⟨length, failed⟩ held
    obtain ⟨data, done, -⟩ := construct_spec (layout blockSize) fits described held
    rw [done] at failed
    cases failed
  · intro large
    obtain ⟨references, bytes, laid⟩ :=
      @exists_laid (fixedGroupBlock blockSize) (layout blockSize) strings.length 0 strings (Nat.le_refl _)
    obtain ⟨flat, enough, number⟩ := laid.sizes fits
    have first := laid.writeReferences_eq enough flat described
    obtain ⟨length, second⟩ := writeBlocks_fixed_error blockSize strings.flatten enough flat large
    refine ⟨length, ?_⟩
    simp only [construct, first, second, bind, Except.bind, if_neg number]

end Laid

/-- **IndexedData returns what was stored**: the string `i`, or the empty string behind the last, for both policies and every
block size they allow. `FixedGroupBlock` throws exactly where a string that needs a prefix byte is longer than 255 bytes. -/
theorem construct_atIndex (strings : List (List UInt8)) (blockSize : ℕ) :
    (blockSize ≤ 16 → Fits (fun lengths => (lengths.map VariableGroupBlock.log256).sum) blockSize strings →
      (∀ string ∈ strings, string.length < 2 ^ 24) →
        ∃ data, construct (variableGroupBlock blockSize) (offsetsFrom 0 strings) strings.flatten = .ok data ∧
          ∀ i, atIndex data i = .ok (strings.getD i [])) ∧
    (Fits (fun _ => blockSize) blockSize strings →
      ((∀ string ∈ strings, string.length ≤ 255) →
        ∃ data, construct (fixedGroupBlock blockSize) (offsetsFrom 0 strings) strings.flatten = .ok data ∧
          ∀ i, atIndex data i = .ok (strings.getD i [])) ∧
      ((∃ length, construct (fixedGroupBlock blockSize) (offsetsFrom 0 strings) strings.flatten =
          .error (.tooLargeDataLength length)) ↔
        ∃ i, ∃ inside : i < strings.length, i % (blockSize + 1) ≠ blockSize ∧ 255 < strings[i].length)) := by
  refine ⟨fun small fits lengths => ?_, fun fits => ⟨fun lengths => ?_, ?_⟩⟩
  · exact construct_spec (VariableGroupBlock.layout small) fits (fun i inside _ => lengths _ (getElem_mem inside))
      fun _ _ _ => trivial
  · exact construct_spec (layout blockSize) fits (fun _ _ _ => trivial)
      fun i inside _ => lengths _ (getElem_mem inside)
  · rw [construct_fixed_throws_iff fits]
    constructor
    · intro large
      by_contra none
      exact large fun i inside notLast => Nat.not_lt.1 fun above => none ⟨i, inside, notLast, above⟩
    · rintro ⟨i, inside, notLast, above⟩ held
      exact Nat.not_le.2 above (held i inside notLast)

/-- Five strings in blocks of three: both policies give them back. -/
theorem construct_atIndex_five :
    (∃ data, construct (variableGroupBlock 2) (offsetsFrom 0 [[65], [], [66, 67], [68], [69]]) [65, 66, 67, 68, 69] = .ok data ∧
      ∀ i, atIndex data i = .ok ([[65], [], [66, 67], [68], [69]].getD i [])) ∧
    (∃ data, construct (fixedGroupBlock 2) (offsetsFrom 0 [[65], [], [66, 67], [68], [69]]) [65, 66, 67, 68, 69] = .ok data ∧
      ∀ i, atIndex data i = .ok ([[65], [], [66, 67], [68], [69]].getD i [])) := by
  have both := construct_atIndex [[65], [], [66, 67], [68], [69]] 2
  exact ⟨both.1 (by decide) ⟨by decide, by decide⟩ (by decide), (both.2 ⟨by decide, by decide⟩).1 (by decide)⟩

end Osrm.IndexedData
