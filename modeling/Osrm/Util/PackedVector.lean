import Osrm.Lib.BitFields
import Osrm.Lib.Failure
import Mathlib.Tactic.Choose

/-!
# Packed vectors

`util::PackedVector` stores numbers of `Bits` bits in words of 64 bits. Elements are grouped in
blocks of 64, which take `Bits` words; masks and offsets of an element within its block are
computed once. An element may lie in two words, so that both its word and the next one are read
and written; a sentinel word at the end makes room for that.

Reading or writing outside the words and shifting a word by its width have no defined meaning and
end a run with a fault. The words are one string of bits (`Osrm.Lib.BitFields`) in which the
element `i` is the field from `i * Bits` on.
-/

namespace Osrm.PackedVector

open Function List

open Lib.BitFields

/-- What has no defined meaning. -/
inductive Fault
  | undefinedShift
  | outOfBounds
  deriving DecidableEq, Repr

abbrev Word := BitVec 64

/-- `(1ULL << Bits) - 1` -/
def elementMask (bits : ℕ) : Except Fault Word := if bits < 64 then .ok (((1 : Word) <<< bits) - 1) else .error .undefinedShift

/-- The tables that `initialize` fills, as functions of the place of an element in its block. -/
structure Tables where
  bits : ℕ
  mask : Word

namespace Tables

variable (tables : Tables) (element : ℕ)

def localOffset : ℕ := element * tables.bits % 64

def lowerMask : Word := tables.mask <<< tables.localOffset element

def upperMask : Word :=
  if tables.localOffset element + tables.bits > 64 then tables.mask >>> (64 - tables.localOffset element) else 0

def lowerOffset : ℕ := tables.localOffset element

def upperOffset : ℕ :=
  if tables.localOffset element + tables.bits > 64 then 64 - tables.localOffset element else tables.bits

def wordOffset : ℕ := element * tables.bits / 64

end Tables

variable (tables : Tables) {index i : ℕ}

def initializeTables (bits : ℕ) : Except Fault Tables := (elementMask bits).map (⟨bits, ·⟩)

structure InternalIndex where
  lowerWord : ℕ
  element : ℕ
  deriving DecidableEq, Repr

structure Packed where
  tables : Tables
  vec : List Word
  numElements : ℕ

def readWord (vec : List Word) (i : ℕ) : Except Fault Word :=
  match vec[i]? with
  | some word => .ok word
  | none => .error .outOfBounds

def Tables.blockWords : ℕ := tables.bits * 64 / 64

def Tables.getInternalIndex (index : ℕ) : InternalIndex :=
  let blockOffset := tables.blockWords * (index / 64)
  let elementIndex := index % 64
  ⟨blockOffset + tables.wordOffset elementIndex, elementIndex⟩

def getValue (vec : List Word) (index : InternalIndex) : Except Fault Word := do
  let lowerWord ← readWord vec index.lowerWord
  let upperWord ← readWord vec (index.lowerWord + 1)
  return ((lowerWord &&& tables.lowerMask index.element) >>> tables.lowerOffset index.element) |||
    ((upperWord &&& tables.upperMask index.element) <<< tables.upperOffset index.element)

/-- `set_value`; the compare-and-swap loops are assignments here. -/
def setValue (value : Word) (vec : List Word) (index : InternalIndex) : Except Fault (List Word) := do
  let lowerWord ← readWord vec index.lowerWord
  let upperWord ← readWord vec (index.lowerWord + 1)
  let newLowerWord := (lowerWord &&& ~~~tables.lowerMask index.element) |||
    ((value <<< tables.lowerOffset index.element) &&& tables.lowerMask index.element)
  let newUpperWord := (upperWord &&& ~~~tables.upperMask index.element) |||
    ((value >>> tables.upperOffset index.element) &&& tables.upperMask index.element)
  return (vec.set index.lowerWord newLowerWord).set (index.lowerWord + 1) newUpperWord

def resizeWords (vec : List Word) (size : ℕ) : List Word := vec.take size ++ replicate (size - vec.length) 0

/-- The loop of `push_back` that allocates blocks. -/
def allocate (blockWords lowerWord : ℕ) : ℕ → List Word → List Word
  | 0, vec => vec
  | fuel + 1, vec =>
    if lowerWord + 1 ≥ vec.length then allocate blockWords lowerWord fuel (resizeWords vec (vec.length + blockWords)) else vec

namespace Packed

variable (v : Packed)

def get (index : ℕ) : Except Fault Word := getValue v.tables v.vec (v.tables.getInternalIndex index)

def assign (index : ℕ) (value : Word) : Except Fault Packed := do
  let vec ← setValue v.tables value v.vec (v.tables.getInternalIndex index)
  return { v with vec := vec }

def pushBack (value : Word) : Except Fault Packed := do
  let index := v.tables.getInternalIndex v.numElements
  let vec ← setValue v.tables value (allocate v.tables.blockWords index.lowerWord (index.lowerWord + 2) v.vec) index
  return { v with vec := vec, numElements := v.numElements + 1 }

def resize (elements : ℕ) : Packed :=
  { v with vec := resizeWords v.vec ((elements + 64 - 1) / 64 * v.tables.blockWords + 1), numElements := elements }

/-- The places that `fill` runs through, block by block. -/
def places : List InternalIndex :=
  (range (v.vec.length / v.tables.blockWords)).flatMap fun blockIndex =>
    (range 64).map fun elementIndex => ⟨blockIndex * v.tables.blockWords + v.tables.wordOffset elementIndex, elementIndex⟩

def fill (value : Word) : Except Fault Packed := do
  let vec ← v.places.foldlM (setValue v.tables value) v.vec
  return { v with vec := vec }

end Packed

def empty (bits : ℕ) : Except Fault Packed := (initializeTables bits).map (⟨·, [], 0⟩)

/-- `PackedVector(size, initial_value)` -/
def filled (bits size : ℕ) (initialValue : Word) : Except Fault Packed := do
  let v ← empty bits
  (v.resize size).fill initialValue

/-! ### One element -/

section Element

variable {bits : ℕ} {vec : List Word} {value : Word}

/-- The tables of a width below 64. -/
def tablesOf (bits : ℕ) : Tables := ⟨bits, ((1 : Word) <<< bits) - 1⟩

theorem initializeTables_eq (small : bits < 64) : initializeTables bits = .ok (tablesOf bits) := by
  rw [initializeTables, elementMask, if_pos small]
  rfl

theorem mask_bit (small : bits < 64) (j : ℕ) : (tablesOf bits).mask.getLsbD j = decide (j < bits) := by
  have power : 2 ^ bits < 2 ^ 64 := Nat.pow_lt_pow_right (by omega) small
  have positive : 1 ≤ 2 ^ bits := Nat.one_le_two_pow
  have number : (tablesOf bits).mask.toNat = 2 ^ bits - 1 := by
    have one : (1 : Word).toNat = 1 := rfl
    simp only [tablesOf, BitVec.toNat_sub, BitVec.toNat_shiftLeft, one]
    omega
  rw [BitVec.getLsbD, number, Nat.testBit_two_pow_sub_one]

theorem lowerMask_bit (small : bits < 64) (element j : ℕ) :
    ((tablesOf bits).lowerMask element).getLsbD j =
      decide ((tablesOf bits).localOffset element ≤ j ∧ j < (tablesOf bits).localOffset element + bits ∧ j < 64) := by
  rw [Tables.lowerMask, BitVec.getLsbD_shiftLeft, mask_bit small, Bool.eq_iff_iff]
  simp only [Bool.and_eq_true, Bool.not_eq_true', decide_eq_true_eq, decide_eq_false_iff_not]
  omega

theorem upperMask_bit (small : bits < 64) (element j : ℕ) :
    ((tablesOf bits).upperMask element).getLsbD j = decide (j + 64 < (tablesOf bits).localOffset element + bits) := by
  have offset : (tablesOf bits).localOffset element < 64 := Nat.mod_lt _ (by omega)
  have width : (tablesOf bits).bits = bits := rfl
  rw [Tables.upperMask, Bool.eq_iff_iff]
  split
  · rw [BitVec.getLsbD_ushiftRight, mask_bit small]
    simp only [decide_eq_true_eq]
    omega
  · have none : (0 : Word).getLsbD j = false := BitVec.getLsbD_zero
    rw [none, decide_eq_true_eq]
    exact iff_of_false Bool.false_ne_true (by omega)

theorem readWord_eq (inside : i < vec.length) : readWord vec i = .ok (vec.getD i 0) := by
  rw [readWord, getElem?_eq_getElem inside, getD_eq_getElem _ _ inside]

theorem blockWords_tablesOf (bits : ℕ) : (tablesOf bits).blockWords = bits := Nat.mul_div_cancel bits (by omega)

/-- The place of the element `index`: its bits start at `index * bits`. -/
theorem getInternalIndex_eq (index : ℕ) :
    (tablesOf bits).getInternalIndex index = ⟨index * bits / 64, index % 64⟩ ∧
      (tablesOf bits).localOffset (index % 64) = index * bits % 64 := by
  have parts : index * bits = 64 * (bits * (index / 64)) + index % 64 * bits :=
    calc index * bits = (64 * (index / 64) + index % 64) * bits := by rw [Nat.div_add_mod]
      _ = 64 * (bits * (index / 64)) + index % 64 * bits := by rw [Nat.add_mul, Nat.mul_assoc, Nat.mul_comm (index / 64)]
  constructor
  · rw [Tables.getInternalIndex, blockWords_tablesOf, parts, Nat.mul_add_div (by omega)]
    rfl
  · rw [parts, Nat.mul_add_mod]
    rfl

theorem bit_word (p L j : ℕ) (place : p = 64 * L + j) (low : j < 64) : bit vec p = (vec.getD L 0).getLsbD j := by
  rw [bit, place, Nat.mul_add_div (by omega), Nat.mul_add_mod, Nat.div_eq_of_lt low, Nat.mod_eq_of_lt low, Nat.add_zero]

/-- **An element is read from its field.** -/
theorem getValue_spec (small : bits < 64) (inside : index * bits / 64 + 1 < vec.length) :
    ∃ v, getValue (tablesOf bits) vec ((tablesOf bits).getInternalIndex index) = .ok v ∧ Reads vec (index * bits) bits v := by
  obtain ⟨place, offset⟩ := @getInternalIndex_eq bits index
  have start : index * bits = 64 * (index * bits / 64) + index * bits % 64 := (Nat.div_add_mod _ _).symm
  have low : index * bits % 64 < 64 := Nat.mod_lt _ (by omega)
  rw [place, getValue, readWord_eq (Nat.lt_of_succ_lt inside), readWord_eq inside]
  refine ⟨_, rfl, fun j word => ?_⟩
  have width : (tablesOf bits).bits = bits := rfl
  simp only [BitVec.getLsbD_or, BitVec.getLsbD_ushiftRight, BitVec.getLsbD_shiftLeft, BitVec.getLsbD_and, lowerMask_bit small,
    upperMask_bit small, Tables.lowerOffset, Tables.upperOffset]
  generalize index * bits % 64 = o at *
  generalize index * bits / 64 = L at *
  by_cases same : o + j < 64
  · rw [bit_word (index * bits + j) L (o + j) (by omega) same]
    generalize (vec.getD L 0).getLsbD = first, (vec.getD (L + 1) 0).getLsbD = second
    grind
  · rw [bit_word (index * bits + j) (L + 1) (o + j - 64) (by omega) (by omega)]
    generalize (vec.getD L 0).getLsbD = first, (vec.getD (L + 1) 0).getLsbD = second
    grind

/-- **An element is written to its field** and to no other bit. -/
theorem setValue_spec (small : bits < 64) (inside : index * bits / 64 + 1 < vec.length) (value : Word) :
    ∃ vec', setValue (tablesOf bits) value vec ((tablesOf bits).getInternalIndex index) = .ok vec' ∧
      Written vec vec' (index * bits) bits value := by
  obtain ⟨place, offset⟩ := @getInternalIndex_eq bits index
  have start : index * bits = 64 * (index * bits / 64) + index * bits % 64 := (Nat.div_add_mod _ _).symm
  have low : index * bits % 64 < 64 := Nat.mod_lt _ (by omega)
  rw [place, setValue, readWord_eq (Nat.lt_of_succ_lt inside), readWord_eq inside]
  refine ⟨_, rfl, by rw [length_set, length_set], fun p => ?_⟩
  have width : (tablesOf bits).bits = bits := rfl
  have word : p % 64 < 64 := Nat.mod_lt _ (by omega)
  rw [bit_set (by rwa [length_set]), bit_set (Nat.lt_of_succ_lt inside), bit]
  simp only [BitVec.getLsbD_or, BitVec.getLsbD_ushiftRight, BitVec.getLsbD_shiftLeft, BitVec.getLsbD_and, BitVec.getLsbD_not,
    lowerMask_bit small, upperMask_bit small, Tables.lowerOffset, Tables.upperOffset, offset, width]
  have split := Nat.div_add_mod p 64
  generalize index * bits % 64 = o at *
  generalize index * bits / 64 = L at *
  generalize p / 64 = q at *
  generalize p % 64 = r at *
  -- the bit lies in the second word of the element, in its first or in neither
  by_cases next : q = L + 1
  · rw [if_pos next, next]
    by_cases field : r + 64 < o + bits
    · have place : 64 - o + r = p - index * bits := by omega
      rw [if_pos (by omega : o + bits > 64), place, if_pos (by omega)]
      simp [field]
    · rw [if_neg (by omega : ¬(index * bits ≤ p ∧ p < index * bits + bits))]
      simp [field, word]
  · rw [if_neg next]
    by_cases first : q = L
    · rw [if_pos first, first]
      by_cases field : o ≤ r ∧ r < o + bits
      · have place : r - o = p - index * bits := by omega
        rw [place, if_pos (by omega)]
        simp [field, word]
      · generalize vec.getD L 0 = lower
        grind
    · rw [if_neg first, if_neg (by omega)]

end Element

/-! ### The words -/

section Words

variable {bits : ℕ} {vec : List Word} {tables : Tables}

theorem length_resizeWords (size : ℕ) : (resizeWords vec size).length = size := by
  rw [resizeWords, length_append, length_take, length_replicate]
  omega

/-- The loop of `push_back` ends with room for the element, and the bits stay. -/
theorem allocate_spec {blockWords : ℕ} (block : 0 < blockWords) (lowerWord : ℕ) : ∀ (fuel : ℕ) (vec : List Word),
    lowerWord + 2 ≤ vec.length + fuel →
      lowerWord + 1 < (allocate blockWords lowerWord fuel vec).length ∧
      vec.length ≤ (allocate blockWords lowerWord fuel vec).length ∧
      ∀ p, bit (allocate blockWords lowerWord fuel vec) p = bit vec p
  | 0, vec, enough => ⟨enough, Nat.le_refl _, fun _ => rfl⟩
  | fuel + 1, vec, enough => by
    rw [allocate]
    split
    · have longer := @length_resizeWords vec (vec.length + blockWords)
      obtain ⟨room, grows, same⟩ :=
        allocate_spec block lowerWord fuel (resizeWords vec (vec.length + blockWords)) (by omega)
      refine ⟨room, by omega, fun p => ?_⟩
      rw [same, resizeWords, bit_grow (Nat.le_add_right _ _)]
    · next room => exact ⟨by omega, Nat.le_refl _, fun _ => rfl⟩

theorem readWord_ok {word : Word} (read : readWord vec i = .ok word) : i < vec.length := by
  rw [readWord] at read
  split at read
  · next found => exact (List.getElem?_eq_some_iff.1 found).1
  · cases read

/-- Where a value could be stored, both words were in range. -/
theorem setValue_length {value : Word} {vec' : List Word} {place : InternalIndex}
    (stored : setValue tables value vec place = .ok vec') : vec'.length = vec.length ∧ place.lowerWord + 1 < vec.length := by
  obtain ⟨lowerWord, -, stored⟩ := Lib.bind_eq_ok stored
  obtain ⟨upperWord, upper, stored⟩ := Lib.bind_eq_ok stored
  cases stored
  exact ⟨by rw [length_set, length_set], readWord_ok upper⟩

/-- A loop that stores to a place outside does not end. -/
theorem foldlM_setValue_inside {value : Word} : ∀ {places : List InternalIndex} {vec vec' : List Word},
    places.foldlM (setValue tables value) vec = .ok vec' → ∀ place ∈ places, place.lowerWord + 1 < vec.length
  | [], _, _, _, _, mem => absurd mem not_mem_nil
  | first :: rest, vec, vec', run, place, mem => by
    obtain ⟨next, stored, run⟩ := Lib.bind_eq_ok run
    obtain ⟨length, inside⟩ := setValue_length stored
    rcases mem_cons.1 mem with rfl | later
    · exact inside
    · rw [← length]
      exact foldlM_setValue_inside run place later

theorem fields_apart {k : ℕ} (other : i ≠ k) : i * bits + bits ≤ k * bits ∨ k * bits + bits ≤ i * bits := by
  rcases Nat.lt_or_gt_of_ne other with below | above
  · exact .inl (Nat.succ_mul i bits ▸ Nat.mul_le_mul_right bits below)
  · exact .inr (Nat.succ_mul k bits ▸ Nat.mul_le_mul_right bits above)

/-- A loop that stores to the places of elements stores to each, one after another. -/
theorem foldlM_setValue_spec (small : bits < 64) {value : Word} (fits : value.toNat < 2 ^ bits) :
    ∀ (indices : List ℕ) {vec : List Word}, (∀ i ∈ indices, i * bits / 64 + 1 < vec.length) →
      ∃ vec', (indices.map (tablesOf bits).getInternalIndex).foldlM (setValue (tablesOf bits) value) vec = .ok vec' ∧
        vec'.length = vec.length ∧
        ∀ i, i ∈ indices ∨ Reads vec (i * bits) bits value → Reads vec' (i * bits) bits value
  | [], vec, _ => ⟨vec, rfl, rfl, fun _ reads => reads.resolve_left not_mem_nil⟩
  | first :: rest, vec, inside => by
    obtain ⟨next, stored, written⟩ := setValue_spec small (inside first mem_cons_self) value
    obtain ⟨vec', run, length, reads⟩ := @foldlM_setValue_spec small _ fits rest next
      fun i mem => by rw [written.length]; exact inside i (mem_cons_of_mem _ mem)
    refine ⟨vec', ?_, length.trans written.length, fun i known => ?_⟩
    · rw [map_cons, foldlM_cons, stored]
      exact run
    · apply reads
      rcases eq_or_ne i first with rfl | other
      · exact .inr (written.reads fits)
      · refine known.imp (fun mem => (mem_cons.1 mem).resolve_left other) fun before => ?_
        exact written.reads_other before (fields_apart other)

end Words

/-! ### Runs -/

/-- How a packed vector is constructed: `PackedVector()` or `PackedVector(size, initial_value)`. -/
inductive Construction
  | empty
  | filled (size : ℕ) (initialValue : Word)

inductive Op
  | pushBack (value : Word)
  | resize (elements : ℕ)
  | assign (index : ℕ) (value : Word)

def construct (bits : ℕ) : Construction → Except Fault Packed
  | .empty => empty bits
  | .filled size initialValue => filled bits size initialValue

def step (v : Packed) : Op → Except Fault Packed
  | .pushBack value => v.pushBack value
  | .resize elements => .ok (v.resize elements)
  | .assign index value => v.assign index value

/-- A construction and the operations after it. -/
def run (bits : ℕ) (construction : Construction) (ops : List Op) : Except Fault Packed := do
  let v ← construct bits construction
  ops.foldlM step v

/-- The vector of numbers that a construction is to give. -/
def Construction.contents : Construction → List Word
  | .empty => []
  | .filled size initialValue => replicate size initialValue

/-- A construction with a value of `bits` bits. -/
def Construction.Fits (bits : ℕ) : Construction → Prop
  | .empty => True
  | .filled _ initialValue => initialValue.toNat < 2 ^ bits

/-- An operation that may be done to a vector of `size` elements: values fit, `resize` grows, assigned elements exist. -/
def Op.Allowed (bits size : ℕ) : Op → Prop
  | .pushBack value => value.toNat < 2 ^ bits
  | .resize elements => size ≤ elements
  | .assign index value => index < size ∧ value.toNat < 2 ^ bits

instance (bits size : ℕ) : (op : Op) → Decidable (op.Allowed bits size)
  | .pushBack value => inferInstanceAs (Decidable (value.toNat < 2 ^ bits))
  | .resize elements => inferInstanceAs (Decidable (size ≤ elements))
  | .assign index value => inferInstanceAs (Decidable (index < size ∧ value.toNat < 2 ^ bits))

/-- What an operation does to a vector of numbers. The elements that `resize` adds are not specified. -/
inductive Does : List Word → Op → List Word → Prop
  | pushBack {xs : List Word} {value : Word} : Does xs (.pushBack value) (xs ++ [value])
  | resize {xs fresh : List Word} : Does xs (.resize (xs.length + fresh.length)) (xs ++ fresh)
  | assign {xs : List Word} {index : ℕ} {value : Word} : Does xs (.assign index value) (xs.set index value)

/-- What operations do to a vector of numbers, one after another. -/
inductive DoesAll : List Word → List Op → List Word → Prop
  | nil {xs : List Word} : DoesAll xs [] xs
  | cons {xs ys zs : List Word} {op : Op} {ops : List Op} : Does xs op ys → DoesAll ys ops zs → DoesAll xs (op :: ops) zs

def Op.size (size : ℕ) : Op → ℕ
  | .pushBack _ => size + 1
  | .resize elements => elements
  | .assign _ _ => size

/-- Operations of which each is allowed at the size that the ones before leave. -/
def AllowedAll (bits : ℕ) : ℕ → List Op → Prop
  | _, [] => True
  | size, op :: ops => op.Allowed bits size ∧ AllowedAll bits (op.size size) ops

/-- The packed vector holds the numbers `xs`: it has their number, and every read gives its element. -/
structure Holds (v : Packed) (xs : List Word) : Prop where
  size : v.numElements = xs.length
  reads : ∀ i (inside : i < xs.length), v.get i = .ok xs[i]

/-- The words of a packed vector hold the numbers `xs` in their fields, with room for each. -/
structure Represents (bits : ℕ) (v : Packed) (xs : List Word) : Prop where
  tables : v.tables = tablesOf bits
  size : v.numElements = xs.length
  room : ∀ i < xs.length, i * bits / 64 + 1 < v.vec.length
  fields : ∀ i (inside : i < xs.length), Reads v.vec (i * bits) bits xs[i]

section Runs

variable {bits : ℕ} {v : Packed} {xs : List Word} {value : Word} {elements i blocks : ℕ}

theorem Represents.holds (small : bits < 64) (represents : Represents bits v xs) : Holds v xs := by
  refine ⟨represents.size, fun i inside => ?_⟩
  obtain ⟨x, read, reads⟩ := getValue_spec small (represents.room i inside)
  rw [Packed.get, represents.tables, read, reads.unique (represents.fields i inside)]

theorem Represents.assign (small : bits < 64) (represents : Represents bits v xs) (inside : index < xs.length)
    (fits : value.toNat < 2 ^ bits) : ∃ v', v.assign index value = .ok v' ∧ Represents bits v' (xs.set index value) := by
  obtain ⟨vec, stored, written⟩ := setValue_spec small (represents.room index inside) value
  refine ⟨{ v with vec := vec }, ?_, represents.tables, ?_, ?_, ?_⟩
  · rw [Packed.assign, represents.tables, stored]
    rfl
  · rw [length_set, ← represents.size]
  · intro i below
    rw [written.length]
    exact represents.room i (by rwa [length_set] at below)
  · intro i below
    rw [length_set] at below
    by_cases here : i = index
    · subst here
      rw [getElem_set_self]
      exact written.reads fits
    · rw [getElem_set_ne (Ne.symm here)]
      exact written.reads_other (represents.fields i below) (fields_apart here)

theorem Represents.pushBack (small : bits < 64) (positive : 1 ≤ bits) (represents : Represents bits v xs)
    (fits : value.toNat < 2 ^ bits) : ∃ v', v.pushBack value = .ok v' ∧ Represents bits v' (xs ++ [value]) := by
  obtain ⟨place, -⟩ := @getInternalIndex_eq bits xs.length
  have block : 0 < (tablesOf bits).blockWords := Nat.lt_of_lt_of_eq positive (blockWords_tablesOf bits).symm
  obtain ⟨room, grows, same⟩ :=
    allocate_spec block (xs.length * bits / 64) (xs.length * bits / 64 + 2) v.vec (Nat.le_add_left _ _)
  obtain ⟨vec, stored, written⟩ := setValue_spec small room value
  refine ⟨{ v with vec := vec, numElements := v.numElements + 1 }, ?_, represents.tables, ?_, ?_, ?_⟩
  · rw [place] at stored
    simp only [Packed.pushBack, represents.tables, represents.size, place, stored]
    rfl
  · rw [length_append, length_singleton, ← represents.size]
  · intro i below
    rw [length_append] at below
    rw [written.length]
    rcases Nat.lt_succ_iff_lt_or_eq.1 below with old | rfl
    · exact Nat.lt_of_lt_of_le (represents.room i old) grows
    · exact room
  · intro i below
    rw [length_append] at below
    rcases Nat.lt_succ_iff_lt_or_eq.1 below with old | rfl
    · rw [getElem_append_left old]
      have kept := (represents.fields i old).congr fun p _ _ => same p
      exact written.reads_other kept (fields_apart (Nat.ne_of_lt old))
    · rw [getElem_concat_length rfl]
      exact written.reads fits

/-- An element below a multiple of 64 lies in the words of the blocks below it. -/
theorem lowerWord_lt (positive : 1 ≤ bits) (below : i < blocks * 64) : i * bits / 64 < blocks * bits := by
  rw [Nat.div_lt_iff_lt_mul (by omega), Nat.mul_right_comm]
  exact Nat.mul_lt_mul_of_pos_right below positive

theorem length_resize (v : Packed) (tables : v.tables = tablesOf bits) (elements : ℕ) :
    (v.resize elements).vec.length = (elements + 63) / 64 * bits + 1 := by
  rw [Packed.resize, length_resizeWords, tables, blockWords_tablesOf]
  rfl

theorem resize_room (positive : 1 ≤ bits) (v : Packed) (tables : v.tables = tablesOf bits)
    (below : i < elements) : i * bits / 64 + 1 < (v.resize elements).vec.length := by
  rw [length_resize v tables]
  exact Nat.succ_lt_succ (lowerWord_lt positive (by omega))

theorem Represents.resize (small : bits < 64) (positive : 1 ≤ bits) (represents : Represents bits v xs)
    (grows : xs.length ≤ elements) :
    ∃ fresh : List Word, xs.length + fresh.length = elements ∧ Represents bits (v.resize elements) (xs ++ fresh) := by
  have readable : ∀ i < elements, ∃ x, Reads (v.resize elements).vec (i * bits) bits x := fun i below =>
    (getValue_spec small (resize_room positive v represents.tables below)).imp fun _ read => read.2
  choose! value reads using readable
  let fresh := (range (elements - xs.length)).map fun k => value (xs.length + k)
  have length : xs.length + fresh.length = elements := by simp [fresh]; omega
  refine ⟨fresh, length, represents.tables, ?_, ?_, ?_⟩
  · rw [length_append, length]
    rfl
  · intro i below
    rw [length_append, length] at below
    exact resize_room positive v represents.tables below
  · intro i below
    rw [length_append, length] at below
    by_cases old : i < xs.length
    · rw [getElem_append_left old]
      refine (represents.fields i old).congr fun p _ high => bit_resize ?_
      have inside : (i + 1) * bits ≤ (elements + 63) / 64 * 64 * bits := Nat.mul_le_mul_right bits (by omega)
      have words : p / 64 < (elements + 63) / 64 * bits := by
        rw [Nat.div_lt_iff_lt_mul (by omega), Nat.mul_right_comm]
        exact Nat.lt_of_lt_of_le (Nat.succ_mul i bits ▸ high) inside
      rw [represents.tables, blockWords_tablesOf]
      exact Nat.lt_succ_of_lt words
    · rw [getElem_append_right (Nat.not_lt.1 old)]
      have element : fresh[i - xs.length] = value i := by simp [fresh]; congr 1; omega
      rw [element]
      exact reads i below

/-- The elements whose places `fill` runs through. -/
def indices (blocks : ℕ) : List ℕ := (range blocks).flatMap fun blockIndex => (range 64).map (64 * blockIndex + ·)

theorem mem_indices : i ∈ indices blocks ↔ i < blocks * 64 := by
  simp only [indices, mem_flatMap, mem_range, mem_map]
  constructor
  · rintro ⟨blockIndex, below, elementIndex, low, rfl⟩
    omega
  · intro below
    exact ⟨i / 64, by omega, i % 64, by omega, by omega⟩

theorem places_eq (tables : v.tables = tablesOf bits) :
    v.places = (indices (v.vec.length / bits)).map (tablesOf bits).getInternalIndex := by
  rw [Packed.places, tables, blockWords_tablesOf, indices, map_flatMap]
  congr 1
  funext blockIndex
  rw [map_map]
  apply map_congr_left
  intro elementIndex low
  have low := mem_range.1 low
  have block : (64 * blockIndex + elementIndex) / 64 = blockIndex := by omega
  have element : (64 * blockIndex + elementIndex) % 64 = elementIndex := by omega
  rw [comp_apply, Tables.getInternalIndex, block, element, blockWords_tablesOf, Nat.mul_comm blockIndex]

theorem empty_eq (small : bits < 64) : empty bits = .ok ⟨tablesOf bits, [], 0⟩ := by
  rw [empty, initializeTables_eq small]
  rfl

theorem empty_ok (done : empty bits = .ok v) : bits < 64 := by
  by_contra large
  rw [empty, initializeTables, elementMask, if_neg large] at done
  cases done

/-- With two bits or more, the sentinel word does not make a block of its own. -/
theorem filled_spec (small : bits < 64) (wide : 2 ≤ bits) (size : ℕ) (fits : value.toNat < 2 ^ bits) :
    ∃ v, filled bits size value = .ok v ∧ Represents bits v (replicate size value) := by
  let v : Packed := ⟨tablesOf bits, [], 0⟩
  have length := length_resize v rfl size
  have blocks : (v.resize size).vec.length / bits = (size + 63) / 64 := by
    rw [length, Nat.mul_comm, Nat.mul_add_div (by omega), Nat.div_eq_of_lt wide, Nat.add_zero]
  have places := places_eq (v := v.resize size) rfl
  rw [blocks] at places
  have inside : ∀ i ∈ indices ((size + 63) / 64), i * bits / 64 + 1 < (v.resize size).vec.length := by
    intro i mem
    rw [length]
    exact Nat.succ_lt_succ (lowerWord_lt (by omega) (mem_indices.1 mem))
  obtain ⟨vec, stored, same, reads⟩ := foldlM_setValue_spec small fits _ inside
  refine ⟨{ v.resize size with vec := vec }, ?_, rfl, ?_, ?_, ?_⟩
  · rw [filled, empty_eq small]
    change (v.resize size).fill value = _
    rw [Packed.fill, places]
    change (foldlM (setValue (tablesOf bits) value) (v.resize size).vec _ >>= _) = _
    rw [stored]
    rfl
  · rw [length_replicate]
    rfl
  · intro i below
    rw [length_replicate] at below
    rw [same]
    exact inside i (mem_indices.2 (by omega))
  · intro i below
    rw [length_replicate] at below
    rw [getElem_replicate]
    exact reads i (.inl (mem_indices.2 (by omega)))

/-- With one bit the sentinel word counts as a block, whose elements have no second word. -/
theorem filled_one_error (size : ℕ) (value : Word) (v : Packed) : filled 1 size value ≠ .ok v := by
  intro done
  obtain ⟨start, started, done⟩ := Lib.bind_eq_ok done
  rw [empty_eq (by omega)] at started
  cases started
  obtain ⟨vec, stored, -⟩ := Lib.bind_eq_ok done
  have length := @length_resize 1 ⟨tablesOf 1, [], 0⟩ rfl size
  rw [@places_eq 1 _ rfl, Nat.div_one, length] at stored
  have last : (size + 63) / 64 * 64 ∈ indices ((size + 63) / 64 * 1 + 1) := mem_indices.2 (by omega)
  have inside := foldlM_setValue_inside stored _ (mem_map_of_mem last)
  rw [(getInternalIndex_eq _).1] at inside
  simp only at inside
  omega

/-- An allowed operation does to the packed vector what it does to the numbers. -/
theorem Represents.step (small : bits < 64) (positive : 1 ≤ bits) (represents : Represents bits v xs) {op : Op}
    (allowed : op.Allowed bits xs.length) :
    ∃ v' ys, step v op = .ok v' ∧ Does xs op ys ∧ ys.length = op.size xs.length ∧ Represents bits v' ys := by
  cases op with
  | pushBack value =>
    obtain ⟨v', stored, after⟩ := represents.pushBack small positive allowed
    exact ⟨v', _, stored, .pushBack, length_append, after⟩
  | resize elements =>
    obtain ⟨fresh, rfl, after⟩ := represents.resize small positive allowed
    exact ⟨_, _, rfl, .resize, length_append, after⟩
  | assign index value =>
    obtain ⟨v', stored, after⟩ := represents.assign small allowed.1 allowed.2
    exact ⟨v', _, stored, .assign, length_set, after⟩

theorem Represents.foldlM_step (small : bits < 64) (positive : 1 ≤ bits) : ∀ {ops : List Op} {v : Packed} {xs : List Word},
    Represents bits v xs → AllowedAll bits xs.length ops →
      ∃ v' ys, ops.foldlM PackedVector.step v = .ok v' ∧ DoesAll xs ops ys ∧ Represents bits v' ys
  | [], v, xs, represents, _ => ⟨v, xs, rfl, .nil, represents⟩
  | op :: ops, v, xs, represents, allowed => by
    obtain ⟨next, ys, stepped, does, length, after⟩ := represents.step small positive allowed.1
    obtain ⟨v', zs, run, doesAll, last⟩ := Represents.foldlM_step small positive after (length ▸ allowed.2)
    refine ⟨v', zs, ?_, .cons does doesAll, last⟩
    rw [foldlM_cons, stepped]
    exact run

theorem construct_spec (small : bits < 64) {construction : Construction} (fits : construction.Fits bits)
    (wide : ∀ size initialValue, construction = .filled size initialValue → 2 ≤ bits) :
    ∃ v, construct bits construction = .ok v ∧ Represents bits v construction.contents := by
  cases construction with
  | empty =>
    exact ⟨_, empty_eq small, rfl, rfl, fun i below => absurd below (Nat.not_lt_zero i),
      fun i below => absurd below (Nat.not_lt_zero i)⟩
  | filled size initialValue => exact filled_spec small (wide size initialValue rfl) size fits

/-- **A packed vector is a vector of numbers** of `bits` bits, whatever is done to it, exactly when they have less than 64
bits and, where it is constructed with a value, at least two. -/
theorem run_holds_iff (positive : 1 ≤ bits) (accepted : bits ≤ 64) (construction : Construction) (fits : construction.Fits bits)
    (ops : List Op) (allowed : AllowedAll bits construction.contents.length ops) :
    (∃ v xs, run bits construction ops = .ok v ∧ DoesAll construction.contents ops xs ∧ Holds v xs) ↔
      bits < 64 ∧ ∀ size initialValue, construction = .filled size initialValue → 2 ≤ bits := by
  constructor
  · rintro ⟨v, xs, done, -⟩
    obtain ⟨start, started, -⟩ := Lib.bind_eq_ok done
    constructor
    · cases construction with
      | empty => exact empty_ok started
      | filled size initialValue =>
        obtain ⟨first, allocated, -⟩ := Lib.bind_eq_ok started
        exact empty_ok allocated
    · rintro size initialValue rfl
      by_contra narrow
      obtain rfl : bits = 1 := by omega
      exact filled_one_error size initialValue start started
  · rintro ⟨small, wide⟩
    obtain ⟨start, started, represents⟩ := construct_spec small fits wide
    obtain ⟨v, xs, done, doesAll, after⟩ := represents.foldlM_step small positive allowed
    refine ⟨v, xs, ?_, doesAll, after.holds small⟩
    rw [run, started]
    exact done

/-- Three values of seven bits are pushed, the second is changed, and the vector grows. -/
theorem run_holds_sevenBits :
    ∃ v xs, run 7 .empty [.pushBack 100, .pushBack 3, .pushBack 127, .assign 1 64, .resize 70] = .ok v ∧
      DoesAll [] [.pushBack 100, .pushBack 3, .pushBack 127, .assign 1 64, .resize 70] xs ∧ Holds v xs := by
  have allowed : AllowedAll 7 0 [.pushBack 100, .pushBack 3, .pushBack 127, .assign 1 64, .resize 70] :=
    ⟨by decide, by decide, by decide, by decide, by decide, trivial⟩
  exact (run_holds_iff (by decide) (by decide) .empty trivial _ allowed).2 ⟨by decide, fun _ _ same => nomatch same⟩

/-- One element of one bit, constructed with the value 1: `fill` reads the word after the sentinel. -/
theorem run_filled_oneBit :
    (Construction.filled 1 1).Fits 1 ∧ AllowedAll 1 1 [] ∧ run 1 (.filled 1 1) [] = .error .outOfBounds := by
  refine ⟨?_, trivial, ?_⟩
  · change (1 : Word).toNat < 2 ^ 1
    decide
  · rfl

end Runs

end Osrm.PackedVector
