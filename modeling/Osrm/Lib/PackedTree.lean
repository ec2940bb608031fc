import Mathlib.Data.List.Range
import Mathlib.Algebra.BigOperators.Group.List.Basic
import Mathlib.Algebra.GroupWithZero.Nat

/-!
# Packed trees

A list is cut into windows of one width, the list of windows again into windows, and so on: the
nodes of a tree whose levels are full but for the last node of each. The node `i` of height `h`
covers the window `i` of the list for the width `L * B ^ h`; nothing has to be stored to get from a
node to its children. `explore` walks through such a tree, or any other, with a queue.
-/

namespace Osrm.Lib

open List

/-! ### Windows -/

section Windows

variable {α : Type*} {k b n i : ℕ}

/-- The number of windows of width `k` for `n` places; the last may be shorter. -/
def windowCount (k n : ℕ) : ℕ := (n + k - 1) / k

def window (k : ℕ) (xs : List α) (i : ℕ) : List α := (xs.drop (i * k)).take k

theorem lt_windowCount_iff (wide : 0 < k) : i < windowCount k n ↔ i * k < n := by
  rw [windowCount, ← Nat.succ_le_iff, Nat.le_div_iff_mul_le wide, Nat.succ_mul]
  omega

theorem le_windowCount_mul (wide : 0 < k) : n ≤ windowCount k n * k :=
  not_lt.1 fun below => lt_irrefl _ ((lt_windowCount_iff wide).2 below)

/-- Windows of windows are wider windows. -/
theorem windowCount_windowCount (wide : 0 < k) (branches : 0 < b) : windowCount b (windowCount k n) = windowCount (k * b) n := by
  apply eq_of_forall_lt_iff
  intro i
  rw [lt_windowCount_iff branches, lt_windowCount_iff wide, lt_windowCount_iff (Nat.mul_pos wide branches), mul_assoc,
    mul_comm b k]

theorem windowCount_lt (branches : 2 ≤ b) (many : 1 < n) : windowCount b n < n := by
  have wide : 0 < b := by omega
  have last : ¬(n - 1 < windowCount b n) := by
    rw [lt_windowCount_iff wide, not_lt]
    calc n ≤ (n - 1) * 2 := by omega
      _ ≤ (n - 1) * b := Nat.mul_le_mul_left _ branches
  omega

theorem windowCount_pos (wide : 0 < k) (some : 0 < n) : 0 < windowCount k n :=
  (lt_windowCount_iff wide).2 (by rwa [Nat.zero_mul])

theorem window_range (b n i : ℕ) : window b (List.range n) i = List.range' (i * b) (min b (n - i * b)) := by
  rw [window, range_eq_range', drop_range', Nat.mul_one, Nat.zero_add]
  rcases le_total b (n - i * b) with full | short
  · rw [min_eq_left full, take_range'_of_length_ge full]
  · rw [min_eq_right short, take_range'_of_length_le short]

/-- A window of the places reads a window of the list. -/
theorem map_window_range (b : ℕ) (xs : List α) (i : ℕ) :
    (window b (List.range xs.length) i).map (xs[·]?) = (window b xs i).map some := by
  have all : (List.range xs.length).map (xs[·]?) = xs.map some := by
    apply ext_getElem
    · simp
    · intro j inside _
      simp
  rw [window, window, map_take, map_drop, all, ← map_drop, ← map_take]

theorem reverse_range (n : ℕ) : (List.range (n + 1)).reverse = (List.range (n + 1)).map (n - ·) := by
  apply ext_getElem
  · simp
  · intro i inside _
    simp

theorem mem_window_range {j : ℕ} : j ∈ window b (List.range n) i ↔ i * b ≤ j ∧ j < i * b + b ∧ j < n := by
  rw [window_range, mem_range'_1]
  omega

variable {xs : List α}

/-- A window has the elements at its places. -/
theorem mem_window {x : α} : x ∈ window b xs i ↔ ∃ j ∈ window b (List.range xs.length) i, xs[j]? = some x := by
  constructor
  · intro mem
    obtain ⟨d, here⟩ := mem_iff_getElem?.1 mem
    obtain ⟨short, -⟩ := List.getElem?_eq_some_iff.1 here
    rw [window, length_take, length_drop] at short
    rw [window, getElem?_take_of_lt (by omega), getElem?_drop] at here
    exact ⟨i * b + d, mem_window_range.2 (by omega), here⟩
  · rintro ⟨j, place, here⟩
    obtain ⟨first, last, -⟩ := mem_window_range.1 place
    obtain ⟨d, rfl⟩ := Nat.exists_eq_add_of_le first
    apply mem_of_getElem?
    rw [window, getElem?_take_of_lt (by omega : d < b), getElem?_drop]
    exact here

theorem lt_windowCount_of_mem (wide : 0 < b) {x : α} (mem : x ∈ window b xs i) : i < windowCount b xs.length := by
  obtain ⟨j, place, -⟩ := mem_window.1 mem
  obtain ⟨first, -, last⟩ := mem_window_range.1 place
  exact (lt_windowCount_iff wide).2 (Nat.lt_of_le_of_lt first last)

/-- Neighbouring windows make up one stretch of the list. -/
theorem flatMap_window_range' (xs : List α) : ∀ first count : ℕ,
    (List.range' first count).flatMap (window k xs) = (xs.drop (first * k)).take (count * k)
  | first, 0 => by simp
  | first, count + 1 => by
    rw [range'_succ, flatMap_cons, flatMap_window_range' xs (first + 1) count, window, Nat.succ_mul, Nat.succ_mul,
      Nat.add_comm (count * k) k, take_add, drop_drop]

theorem flatMap_window (wide : 0 < k) (xs : List α) : (List.range (windowCount k xs.length)).flatMap (window k xs) = xs := by
  rw [range_eq_range', flatMap_window_range', Nat.zero_mul, drop_zero, take_of_length_le (le_windowCount_mul wide)]

theorem window_succ (k : ℕ) (xs : List α) (i : ℕ) : window k xs (i + 1) = window k (xs.drop k) i := by
  rw [window, window, drop_drop, Nat.succ_mul, Nat.add_comm]

/-- A window of a list that stands in the middle of another. -/
theorem window_middle (front xs back : List α) (b i : ℕ) :
    ((front ++ xs ++ back).drop (i * b + front.length)).take (min b (xs.length - i * b)) = window b xs i := by
  rw [append_assoc, Nat.add_comm, ← drop_drop, drop_left]
  rcases le_total xs.length (i * b) with behind | begins
  · rw [Nat.sub_eq_zero_of_le behind, Nat.min_zero, take_zero, window, drop_of_length_le behind, take_nil]
  · rw [drop_append_of_le_length begins, take_append_of_le_length (by rw [length_drop]; omega), window,
      ← length_drop]
    exact take_eq_take_min.symm

theorem windowCount_step (wide : 0 < k) (some : 0 < n) : windowCount k n = windowCount k (n - k) + 1 := by
  apply eq_of_forall_lt_iff
  intro i
  cases i with
  | zero => simp [windowCount_pos wide some]
  | succ i =>
    rw [Nat.succ_lt_succ_iff, lt_windowCount_iff wide, lt_windowCount_iff wide, Nat.succ_mul]
    omega

/-- A wide window is made of the windows in a window of these. -/
theorem window_mul (wide : 0 < k) (b : ℕ) (xs : List α) (i : ℕ) :
    window (k * b) xs i = (window b (List.range (windowCount k xs.length)) i).flatMap (window k xs) := by
  rw [window_range, flatMap_window_range', window, mul_comm k b, ← mul_assoc]
  have enough := le_windowCount_mul (n := xs.length) wide
  rcases le_total b (windowCount k xs.length - i * b) with full | partial'
  · rw [min_eq_left full]
  · have short : (xs.drop (i * b * k)).length ≤ (windowCount k xs.length - i * b) * k := by
      rw [length_drop, Nat.sub_mul]
      omega
    rw [min_eq_right partial', take_of_length_le short,
      take_of_length_le (short.trans (Nat.mul_le_mul_right k partial'))]

/-- Elements kept one by one. -/
theorem flatten_map_ite {β : Type*} (keep : α → Bool) (f : α → β) : ∀ xs : List α,
    (xs.map fun x => if keep x then [f x] else []).flatten = (xs.filter keep).map f
  | [] => rfl
  | x :: xs => by
    rw [map_cons, flatten_cons, flatten_map_ite keep f xs, filter_cons]
    cases keep x <;> rfl

end Windows

/-! ### Levels -/

section Levels

variable {α : Type*} (L B : ℕ) (n : ℕ)

def levelSize (h : ℕ) : ℕ := windowCount (L * B ^ h) n

/-- The children of the node `i` above a height. -/
def childrenOf (h i : ℕ) : List ℕ := window B (List.range (levelSize L B n h)) i

def subtreeSize : ℕ → ℕ → ℕ
  | 0, _ => 1
  | h + 1, i => 1 + ((childrenOf L B n h i).map (subtreeSize h)).sum

/-- What the node `i` of a height covers. -/
def covered (xs : List α) (h i : ℕ) : List α := window (L * B ^ h) xs i

variable {L B n} (wide : 0 < L) (branches : 0 < B)

include wide branches

theorem width_pos (h : ℕ) : 0 < L * B ^ h := Nat.mul_pos wide (Nat.pow_pos branches)

theorem levelSize_succ (h : ℕ) : levelSize L B n (h + 1) = windowCount B (levelSize L B n h) := by
  rw [levelSize, levelSize, windowCount_windowCount (width_pos wide branches h) branches, Nat.pow_succ, Nat.mul_assoc]

/-- Each node is the child of one node above. -/
theorem flatMap_childrenOf (h : ℕ) :
    (List.range (levelSize L B n (h + 1))).flatMap (childrenOf L B n h) = List.range (levelSize L B n h) := by
  have all := flatMap_window branches (List.range (levelSize L B n h))
  rwa [length_range, ← levelSize_succ wide branches] at all

/-- The subtrees of a level have all nodes of the levels below. -/
theorem sum_subtreeSize (h : ℕ) : ((List.range (levelSize L B n h)).map (subtreeSize L B n h)).sum =
    ((List.range (h + 1)).map (levelSize L B n)).sum := by
  induction h with
  | zero => simp [subtreeSize]
  | succ h ih =>
    have each (nodes : List ℕ) : (nodes.map (subtreeSize L B n (h + 1))).sum =
        ((nodes.flatMap (childrenOf L B n h)).map (subtreeSize L B n h)).sum + nodes.length := by
      induction nodes with
      | nil => rfl
      | cons i nodes ih =>
        rw [map_cons, sum_cons, flatMap_cons, map_append, sum_append, length_cons, subtreeSize]
        omega
    rw [each, flatMap_childrenOf wide branches, ih, length_range, @List.range_succ (h + 1), map_append, sum_append,
      map_singleton, sum_singleton]

/-- A node covers what its children cover. -/
theorem covered_succ (xs : List α) (h i : ℕ) :
    covered L B xs (h + 1) i = (childrenOf L B xs.length h i).flatMap (covered L B xs h) := by
  rw [covered, Nat.pow_succ, ← Nat.mul_assoc]
  exact window_mul (width_pos wide branches h) B xs i

/-- Children without a wanted element can be skipped. -/
theorem filter_covered_succ {wanted : α → Bool} {keep : ℕ → Bool} {h : ℕ}
    (kept : ∀ i, ∀ x ∈ covered L B xs h i, wanted x = true → keep i = true) (i : ℕ) :
    (covered L B xs (h + 1) i).filter wanted =
      ((childrenOf L B xs.length h i).filter keep).flatMap fun j => (covered L B xs h j).filter wanted := by
  rw [covered_succ wide branches, filter_flatMap]
  induction childrenOf L B xs.length h i with
  | nil => rfl
  | cons j children ih =>
    rw [flatMap_cons, ih, filter_cons]
    cases here : keep j with
    | true => rfl
    | false =>
      have none : (covered L B xs h j).filter wanted = [] := by
        rw [filter_eq_nil_iff]
        intro x mem isWanted
        rw [kept j x mem isWanted] at here
        cases here
      rw [none, nil_append, if_neg Bool.false_ne_true]

end Levels

/-! ### Levels in one array -/

section Array

variable {α : Type*} {f : ℕ → List α} {m i o : ℕ}

/-- Where the block `i` starts, among blocks of these sizes. -/
def blockStart (size : ℕ → ℕ) (i : ℕ) : ℕ := ((List.range i).map size).sum

theorem blockStart_succ (size : ℕ → ℕ) (i : ℕ) : blockStart size (i + 1) = blockStart size i + size i := by
  rw [blockStart, blockStart, range_succ, map_append, sum_append, map_singleton, sum_singleton]

theorem length_flatMap_range (f : ℕ → List α) (i : ℕ) :
    ((List.range i).flatMap f).length = blockStart (fun j => (f j).length) i := length_flatMap

/-- The blocks before, the block itself and those behind it. -/
theorem flatMap_range_split (f : ℕ → List α) (inside : i < m) : (List.range m).flatMap f =
    (List.range i).flatMap f ++ f i ++ (List.range' (i + 1) (m - (i + 1))).flatMap f := by
  have split : List.range m = List.range i ++ i :: List.range' (i + 1) (m - (i + 1)) := by
    rw [range_eq_range', range_eq_range', ← range'_succ]
    have parts := @List.range'_append 0 i (m - (i + 1) + 1) 1
    rw [Nat.one_mul, Nat.zero_add] at parts
    rw [parts]
    congr 1
    omega
  rw [split, flatMap_append, flatMap_cons, append_assoc]

theorem getElem?_flatMap_range (inside : i < m) (here : o < (f i).length) :
    ((List.range m).flatMap f)[blockStart (fun j => (f j).length) i + o]? = (f i)[o]? := by
  rw [flatMap_range_split f inside, ← length_flatMap_range, append_assoc, getElem?_append_right (Nat.le_add_right _ _),
    Nat.add_sub_cancel_left, getElem?_append_left here]

/-- The partial sums of the sizes are the starts of the blocks. -/
theorem getElem?_scanl_range (size : ℕ → ℕ) (inside : i ≤ m) :
    (((List.range m).map size).scanl (· + ·) 0)[i]? = some (blockStart size i) := by
  rw [getElem?_scanl, if_pos (by simpa using inside), ← map_take, take_range, min_eq_left inside, blockStart,
    sum_eq_foldl]

end Array

/-! ### Exploring with a queue -/

section Explore

variable {ν α : Type*}

/-- The loop over a queue of nodes. A visit gives what is found at a node and the nodes that go to the end of the queue. -/
def explore (visit : ν → Option (List α × List ν)) : ℕ → List ν → List α → Option (List α)
  | _, [], results => some results
  | 0, _ :: _, _ => none
  | fuel + 1, node :: queue, results =>
    (visit node).bind fun (found, next) => explore visit fuel (queue ++ next) (results ++ found)

/-- Where each node yields what is found at it and what the next nodes yield, the loop returns, in some order, what all
nodes in the queue yield. -/
theorem explore_perm {visit : ν → Option (List α × List ν)} {yield : ν → List α} {cost : ν → ℕ} {valid : ν → Prop}
    (step : ∀ node, valid node → ∃ found next, visit node = some (found, next) ∧ (∀ child ∈ next, valid child) ∧
      (yield node).Perm (found ++ next.flatMap yield) ∧ 1 + (next.map cost).sum ≤ cost node) :
    ∀ {fuel : ℕ} {queue : List ν} (results : List α), (∀ node ∈ queue, valid node) → (queue.map cost).sum ≤ fuel →
      ∃ all, explore visit fuel queue results = some all ∧ all.Perm (results ++ queue.flatMap yield)
  | fuel, [], results, _, _ => ⟨results, by rw [explore], by simp⟩
  | 0, node :: queue, results, good, enough => by
    obtain ⟨_, _, -, -, -, cost⟩ := step node (good node mem_cons_self)
    rw [map_cons, sum_cons] at enough
    omega
  | fuel + 1, node :: queue, results, good, enough => by
    obtain ⟨found, next, visited, goodNext, yields, cost⟩ := step node (good node mem_cons_self)
    rw [map_cons, sum_cons] at enough
    have later : ∀ child ∈ queue ++ next, valid child := fun child mem => by
      rcases mem_append.1 mem with old | new
      · exact good child (mem_cons_of_mem _ old)
      · exact goodNext child new
    obtain ⟨all, done, perm⟩ := explore_perm step (results ++ found) later
      (show ((queue ++ next).map _).sum ≤ fuel by rw [map_append, sum_append]; omega)
    refine ⟨all, ?_, perm.trans ?_⟩
    · rw [explore, visited]
      exact done
    · rw [append_assoc, flatMap_append]
      apply List.Perm.append_left
      apply (perm_append_comm.append_left found).trans
      rw [← append_assoc]
      exact yields.symm.append_right _

end Explore

end Osrm.Lib
