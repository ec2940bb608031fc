import Mathlib.Data.List.Destutter
import Mathlib.Data.List.Sort
import Mathlib.Data.List.TakeWhile
import Mathlib.Data.Prod.Lex

/-!
# Lookup tables from CSV files

`CSVFilesParser` merges the lines of its files as their parallel parsers finish, sorts them by key
and file in descending order and keeps one line of each key. The sort sees no line numbers, so of
the lines that a file has for one key any may come first.
-/

namespace Osrm.Updater.CSVFilesParser

open List

variable {Key Value : Type*} [LinearOrder Key]

/-- A line in the table, the value with its `source`. -/
abbrev Line (Key Value : Type*) := Key × Value × ℕ

/-- `ParseCSVFile`, on the lines of a file. The `source` is the number of the file in 8 bits. -/
def parseCSVFile (file : List (Key × Value)) (fileId : ℕ) : List (Line Key Value) :=
  file.map fun line => (line.1, line.2, fileId % 256)

/-- The lines of all files, in the order in which these are merged. -/
def merged (startIndex : ℕ) (files : List (List (Key × Value))) (order : List ℕ) : List (Line Key Value) :=
  order.flatMap fun idx => parseCSVFile (files.getD idx []) (startIndex + idx)

/-- `lhs` may stand before `rhs` in a table sorted on key and source. -/
abbrev Sorted (lhs rhs : Line Key Value) : Prop := toLex (rhs.1, rhs.2.2) ≤ toLex (lhs.1, lhs.2.2)

variable (lookup : List (Line Key Value)) (key : Key)

def unique : List (Line Key Value) := lookup.destutter fun lhs rhs => lhs.1 ≠ rhs.1

/-- `LookupTable::operator()`, whose `std::lower_bound` is the first line with a key not above `key`. -/
def find : Option (Value × ℕ) :=
  ((lookup.find? fun line => ¬key < line.1).filter fun line => ¬line.1 < key).map Prod.snd

def lastLine : Option (Value × ℕ) :=
  (lookup.reverse.find? fun line => line.1 = key).map Prod.snd

theorem sorted_iff {lhs rhs : Line Key Value} : Sorted lhs rhs ↔ rhs.1 < lhs.1 ∨ rhs.1 = lhs.1 ∧ rhs.2.2 ≤ lhs.2.2 :=
  Prod.Lex.toLex_le_toLex

/-- A search by key does not see the lines that `unique` removes. -/
theorem find?_unique (p : Key → Bool) :
    (unique lookup).find? (fun line => p line.1) = lookup.find? fun line => p line.1 := by
  cases lookup with
  | nil => rfl
  | cons first rest =>
    show (rest.destutter' _ first).find? _ = _
    induction rest generalizing first with
    | nil => rfl
    | cons next rest ih =>
      rw [destutter'_cons]
      split
      · rw [find?_cons, find?_cons, ih]
      · next same => grind

variable {lookup} in
/-- The table finds the first line of a key. -/
theorem find_unique (sorted : lookup.Pairwise Sorted) :
    find (unique lookup) key = (lookup.find? fun line => line.1 = key).map Prod.snd := by
  rw [find, find?_unique lookup fun other => ¬key < other]
  induction lookup with
  | nil => rfl
  | cons first rest ih =>
    obtain ⟨before, sorted⟩ := pairwise_cons.1 sorted
    rcases lt_trichotomy key first.1 with above | same | below
    · simpa [above, above.ne'] using ih sorted
    · simp [same, Option.filter_some]
    · have absent : ∀ line ∈ rest, ¬line.1 = key := fun line listed => by grind [sorted_iff.1 (before line listed)]
      have none : rest.find? (fun line => line.1 = key) = none := find?_eq_none.2 (by simpa using absent)
      simp [below, below.le, below.ne, none, Option.filter_some]

/-- **Every line of a key with the greatest source may be the one that is found**, so the last line of a key is certain to be found
just where those lines agree with it. -/
theorem find_lastLine_iff (startIndex : ℕ) (files : List (List (Key × Value))) :
    let lines := merged startIndex files (range files.length)
    (∀ order, order.Perm (range files.length) → ∀ lookup, lookup.Perm (merged startIndex files order) → lookup.Pairwise Sorted →
      ∀ key, find (unique lookup) key = lastLine lines key) ↔
      ∀ line ∈ lines, (∀ other ∈ lines, other.1 = line.1 → other.2.2 ≤ line.2.2) → lastLine lines line.1 = some line.2 := by
  classical
  intro lines
  constructor
  · intro always line listed greatest
    -- sorted by insertion, the line comes before all that it may come before
    obtain ⟨front, back, split⟩ := append_of_mem listed
    have sorted := pairwise_insertionSort Sorted (line :: (front ++ back))
    have perm := (perm_insertionSort Sorted (line :: (front ++ back))).trans (perm_middle.symm.trans (.of_eq split.symm))
    rw [← always _ (.refl _) _ perm sorted, find_unique _ sorted]
    rw [insertionSort_cons_eq_take_drop] at perm ⊢
    rw [find?_append, find?_eq_none.2]
    · simp
    · intro other before same
      have le := greatest other (perm.mem_iff.1 (mem_append_left _ before)) (of_decide_eq_true same)
      have ahead := mem_takeWhile_imp before
      exact of_decide_eq_true ahead (sorted_iff.2 (.inr ⟨of_decide_eq_true same, le⟩))
  · intro agree order ordered lookup permuted sorted key
    have perm : lookup.Perm lines := permuted.trans (ordered.flatMap_right _)
    rw [find_unique key sorted]
    cases found : lookup.find? fun line => line.1 = key with
    | none =>
      have absent : ∀ line ∈ lines.reverse, ¬decide (line.1 = key) = true := by
        intro line listed
        exact find?_eq_none.1 found line (perm.mem_iff.2 (mem_reverse.1 listed))
      rw [lastLine, find?_eq_none.2 absent]
    | some line =>
      obtain ⟨same, front, back, rfl, others⟩ := find?_eq_some_iff_append.1 found
      rw [← of_decide_eq_true same]
      refine (agree line (perm.mem_iff.1 (by simp)) fun other listed equal => ?_).symm
      have after := pairwise_cons.1 (pairwise_append.1 sorted).2.1
      grind [sorted_iff]

/-- A file with two lines for a key, for which the first is found. -/
theorem find_repeated : (merged 1 [[(0, 10), (0, 20)]] [0]).Pairwise Sorted ∧
    find (unique (merged 1 [[(0, 10), (0, 20)]] [0])) 0 = some (10, 1) ∧
      lastLine (merged 1 [[(0, 10), (0, 20)]] [0]) 0 = some (20, 1) := by
  decide

end Osrm.Updater.CSVFilesParser
