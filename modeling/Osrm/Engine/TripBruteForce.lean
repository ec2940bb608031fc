import Osrm.Lib.Enumeration
import Osrm.Lib.Tour
import Mathlib.Algebra.Order.BigOperators.Group.List
import Mathlib.Data.List.GetD
import Mathlib.Data.List.Lex
import Mathlib.Data.List.Permutation

/-!
# The best closed tour by trying all orders

`DistTableWrapper` is a square table of durations in one vector, row after row. `bruteForceTrip`
runs through all orders of the locations and keeps the one whose closed tour is shortest; a tour
is abandoned as soon as it is no shorter than the best one, and where it meets an entry that is
`INVALID_EDGE_DURATION`. `std::next_permutation` is a parameter with its documented behaviour.
-/

namespace Osrm

open List

open Lib.Enumeration Lib.Tour

def invalidEdgeDuration : ℤ := 2147483647

structure DistTableWrapper where
  table : List ℤ
  numberOfNodes : ℕ
  covers : numberOfNodes * numberOfNodes ≤ table.length

namespace DistTableWrapper

variable (t : DistTableWrapper)

/-- `operator()` -/
def entry (start target : ℕ) : ℤ := t.table.getD (start * t.numberOfNodes + target) 0

def setValue (start target : ℕ) (value : ℤ) : DistTableWrapper where
  table := t.table.set (start * t.numberOfNodes + target) value
  numberOfNodes := t.numberOfNodes
  covers := by
    rw [length_set]
    exact t.covers

/-- `SetValue` for one cell after the other. -/
def setAll (cells : List (ℕ × ℕ)) (value : ℤ) : DistTableWrapper :=
  cells.foldl (fun t cell => t.setValue cell.1 cell.2 value) t

variable (t : DistTableWrapper) {i j a b n : ℕ}

@[simp] theorem numberOfNodes_setValue (value : ℤ) : (t.setValue a b value).numberOfNodes = t.numberOfNodes := rfl

@[simp] theorem numberOfNodes_setAll (cells : List (ℕ × ℕ)) (value : ℤ) :
    (t.setAll cells value).numberOfNodes = t.numberOfNodes := by
  induction cells generalizing t with
  | nil => rfl
  | cons cell cells ih => exact ih _

theorem place_lt (hi : i < n) (hj : j < n) : i * n + j < n * n := by
  calc i * n + j < i * n + n := Nat.add_lt_add_left hj _
    _ = (i + 1) * n := (Nat.succ_mul i n).symm
    _ ≤ n * n := Nat.mul_le_mul_right n hi

theorem place_inj (hj : j < n) (hb : b < n) : a * n + b = i * n + j ↔ i = a ∧ j = b := by
  constructor
  · intro same
    have col := congrArg (· % n) same
    have row := congrArg (· / n) same
    simp only [Nat.mul_add_mod_self_right, Nat.mod_eq_of_lt hj, Nat.mod_eq_of_lt hb] at col
    simp only [Nat.mul_comm _ n, Nat.mul_add_div (Nat.zero_lt_of_lt hj), Nat.div_eq_of_lt hj, Nat.div_eq_of_lt hb] at row
    exact ⟨row.symm, col.symm⟩
  · rintro ⟨rfl, rfl⟩
    rfl

theorem entry_setValue (hi : i < t.numberOfNodes) (hj : j < t.numberOfNodes) (hb : b < t.numberOfNodes) (value : ℤ) :
    (t.setValue a b value).entry i j = if i = a ∧ j = b then value else t.entry i j := by
  have inside := (place_lt hi hj).trans_le t.covers
  have still : i * t.numberOfNodes + j < (t.table.set (a * t.numberOfNodes + b) value).length := by
    rw [length_set]
    exact inside
  have read : (t.setValue a b value).entry i j = (t.table.set (a * t.numberOfNodes + b) value).get ⟨_, still⟩ :=
    getD_eq_getElem _ _ still
  rw [read, get_eq_getElem, getElem_set, entry, getD_eq_getElem _ _ inside]
  exact if_congr (place_inj hj hb) rfl rfl

theorem entry_setAll (hi : i < t.numberOfNodes) (hj : j < t.numberOfNodes) {cells : List (ℕ × ℕ)}
    (inside : ∀ cell ∈ cells, cell.2 < t.numberOfNodes) (value : ℤ) :
    (t.setAll cells value).entry i j = if (i, j) ∈ cells then value else t.entry i j := by
  induction cells generalizing t with
  | nil => simp [setAll]
  | cons cell cells ih =>
    have rest := ih (t.setValue cell.1 cell.2 value) hi hj (fun c mem => inside c (mem_cons_of_mem _ mem))
    have first := @entry_setValue t i j cell.1 cell.2 hi hj (inside cell mem_cons_self) value
    rw [setAll, foldl_cons, ← setAll, rest, first]
    by_cases later : (i, j) ∈ cells
    · rw [if_pos later, if_pos (mem_cons_of_mem _ later)]
    · rw [if_neg later]
      apply if_congr _ rfl rfl
      rw [mem_cons, or_iff_left later, Prod.ext_iff]

end DistTableWrapper

namespace Trip

/-- The loop of `ReturnDistance` over the places of the order that are left. -/
def returnDistanceFrom (distTable : DistTableWrapper) (locationOrder : List ℕ) (minRouteDist : ℤ) (numberOfLocations : ℕ) :
    List ℕ → ℤ → ℤ
  | [], routeDist => routeDist
  | currentIndex :: rest, routeDist =>
    if routeDist < minRouteDist then
      let nextIndex := (currentIndex + 1) % numberOfLocations
      let edgeWeight := distTable.entry (locationOrder.getD currentIndex 0) (locationOrder.getD nextIndex 0)
      if edgeWeight = invalidEdgeDuration then invalidEdgeDuration
      else returnDistanceFrom distTable locationOrder minRouteDist numberOfLocations rest (routeDist + edgeWeight)
    else routeDist

def returnDistance (distTable : DistTableWrapper) (locationOrder : List ℕ) (minRouteDist : ℤ) (numberOfLocations : ℕ) : ℤ :=
  returnDistanceFrom distTable locationOrder minRouteDist numberOfLocations (range locationOrder.length) 0

/-- The body of the loop of `BruteForceTrip`, on `min_route_dist` and `route`. -/
def tryOrder (numberOfLocations : ℕ) (distTable : DistTableWrapper) (best : ℤ × List ℕ) (nodeOrder : List ℕ) : ℤ × List ℕ :=
  let newDistance := returnDistance distTable nodeOrder best.1 numberOfLocations
  if newDistance < best.1 then (newDistance, nodeOrder) else best

def bruteForceTrip (nextPermutation : List ℕ → Option (List ℕ)) (fuel numberOfLocations : ℕ)
    (distTable : DistTableWrapper) : Option (List ℕ) :=
  let nodeOrder := range numberOfLocations
  (doWhile nextPermutation (tryOrder numberOfLocations distTable) fuel nodeOrder (invalidEdgeDuration, nodeOrder)).map Prod.snd

/-- `std::next_permutation`: the next order in the lexicographic order of all orders of the same
elements; nothing where the function returns false, at the last of them. -/
structure NextPermutation (nextPermutation : List ℕ → Option (List ℕ)) : Prop where
  next : ∀ order later, nextPermutation order = some later → IsLeast {other | other.Perm order ∧ order < other} later
  last : ∀ order, nextPermutation order = none → ∀ other, other.Perm order → other ≤ order

section Search

variable {n : ℕ} {distTable : DistTableWrapper} {order : List ℕ} {minRouteDist : ℤ} {tried : List ℕ → Prop}
  {best : ℤ × List ℕ}

def tourDuration (distTable : DistTableWrapper) (order : List ℕ) : ℤ := total distTable.entry (tourLegs order)

/-- No step of the closed tour is at `INVALID_EDGE_DURATION`. -/
def Open (distTable : DistTableWrapper) (order : List ℕ) : Prop :=
  ∀ leg ∈ tourLegs order, distTable.entry leg.1 leg.2 ≠ invalidEdgeDuration

/-- The step from the place `i` of the order to the next one, as `ReturnDistance` reads it. -/
def legAt (n : ℕ) (order : List ℕ) (i : ℕ) : ℕ × ℕ := (order.getD i 0, order.getD ((i + 1) % n) 0)

theorem map_legAt (order : List ℕ) : (range order.length).map (legAt order.length order) = tourLegs order := by
  apply ext_getElem
  · simp [tourLegs]
  · intro i inside _
    have bound : i < order.length := by simpa using inside
    have next : (i + 1) % order.length < order.length := Nat.mod_lt _ (Nat.zero_lt_of_lt bound)
    simp only [tourLegs, getElem_map, getElem_range, getElem_zip, getElem_rotate, legAt,
      getD_eq_getElem _ _ bound, getD_eq_getElem _ _ next]

/-- The loop adds up the steps, or ends at a value that is not below the bound because the sum would not be
either or because a step is invalid. -/
theorem returnDistanceFrom_cases (bound : minRouteDist ≤ invalidEdgeDuration) (indices : List ℕ) (d : ℤ)
    (nonneg : ∀ leg ∈ indices.map (legAt n order), 0 ≤ distTable.entry leg.1 leg.2) :
    let result := returnDistanceFrom distTable order minRouteDist n indices d
    let valid := ∀ leg ∈ indices.map (legAt n order), distTable.entry leg.1 leg.2 ≠ invalidEdgeDuration
    let sum := d + total distTable.entry (indices.map (legAt n order))
    valid ∧ sum < minRouteDist ∧ result = sum ∨ minRouteDist ≤ result ∧ (valid → minRouteDist ≤ sum) := by
  induction indices generalizing d with
  | nil =>
    simp only [returnDistanceFrom, map_nil, not_mem_nil, total_nil, add_zero]
    rcases lt_or_ge d minRouteDist with below | above
    · exact .inl ⟨fun _ mem => mem.elim, below, trivial⟩
    · exact .inr ⟨above, fun _ => above⟩
  | cons i indices ih =>
    simp only [returnDistanceFrom, map_cons, forall_mem_cons, total_cons, ← add_assoc] at nonneg ⊢
    have later := ih (d + distTable.entry (legAt n order i).1 (legAt n order i).2) nonneg.2
    have rest : 0 ≤ total distTable.entry _ := sum_nonneg (forall_mem_map.2 nonneg.2)
    simp only [legAt] at nonneg later rest ⊢
    generalize distTable.entry (order.getD i 0) (order.getD ((i + 1) % n) 0) = w at nonneg later ⊢
    by_cases below : d < minRouteDist
    · rw [if_pos below]
      by_cases invalid : w = invalidEdgeDuration
      · rw [if_pos invalid]
        exact .inr ⟨bound, fun valid => absurd invalid valid.1⟩
      · rw [if_neg invalid]
        exact later.imp (fun ⟨valid, both⟩ => ⟨⟨invalid, valid⟩, both⟩) (fun ⟨low, high⟩ => ⟨low, fun valid => high valid.2⟩)
    · rw [if_neg below]
      have grown := add_le_add (add_le_add (not_lt.1 below) nonneg.1) rest
      rw [add_zero, add_zero] at grown
      exact .inr ⟨not_lt.1 below, fun _ => grown⟩

/-- What is kept after some of the orders have been tried: the shortest of their tours, or the first order
while none is below `INVALID_EDGE_DURATION`. -/
structure Best (n : ℕ) (distTable : DistTableWrapper) (tried : List ℕ → Prop) (best : ℤ × List ℕ) : Prop where
  le : ∀ order, tried order → Open distTable order → best.1 ≤ tourDuration distTable order
  kept : best = (invalidEdgeDuration, range n) ∨
    best.1 < invalidEdgeDuration ∧ best.2.Perm (range n) ∧ Open distTable best.2 ∧ tourDuration distTable best.2 = best.1

theorem Best.tryOrder (ok : Best n distTable tried best)
    (perm : order.Perm (range n)) (nonneg : ∀ leg ∈ tourLegs order, 0 ≤ distTable.entry leg.1 leg.2) :
    Best n distTable (fun other => other = order ∨ tried other) (tryOrder n distTable best order) := by
  have bound : best.1 ≤ invalidEdgeDuration := by
    rcases ok.kept with first | ⟨below, -⟩
    · rw [first]
    · exact below.le
  obtain rfl : order.length = n := by rw [perm.length_eq, length_range]
  have cases := returnDistanceFrom_cases bound (range order.length) 0 (by rwa [map_legAt])
  simp only [map_legAt, zero_add] at cases
  rw [Trip.tryOrder, returnDistance]
  rcases cases with ⟨valid, shorter, equal⟩ | ⟨longer, high⟩
  · rw [equal, if_pos shorter]
    refine ⟨?_, .inr ⟨shorter.trans_le bound, perm, valid, rfl⟩⟩
    rintro other (rfl | before) possible
    · exact le_refl _
    · exact shorter.le.trans (ok.le other before possible)
  · rw [if_neg (not_lt.2 longer)]
    refine ⟨?_, ok.kept⟩
    rintro other (rfl | before) possible
    · exact high possible
    · exact ok.le other before possible

theorem Best.foldl {orders : List (List ℕ)} (perm : ∀ order ∈ orders, order.Perm (range n))
    (nonneg : ∀ i < n, ∀ j < n, 0 ≤ distTable.entry i j)
    (ok : Best n distTable tried best) :
    Best n distTable (fun other => other ∈ orders ∨ tried other) (orders.foldl (Trip.tryOrder n distTable) best) := by
  induction orders generalizing tried best with
  | nil => simpa using ok
  | cons order orders ih =>
    have here := perm order mem_cons_self
    have inside : ∀ leg ∈ tourLegs order, 0 ≤ distTable.entry leg.1 leg.2 := by
      intro leg on
      obtain ⟨first, second⟩ := mem_of_mem_tourLegs on
      exact nonneg _ (mem_range.1 (here.mem_iff.1 first)) _ (mem_range.1 (here.mem_iff.1 second))
    have rest := ih (fun o mem => perm o (mem_cons_of_mem _ mem)) (ok.tryOrder here inside)
    exact ⟨fun other mem => rest.le other (by simpa [or_left_comm, or_assoc] using mem), rest.kept⟩

/-- A sorted list is the least of its permutations. -/
theorem le_of_perm {l m : List ℕ} (sorted : l.Pairwise (· < ·)) (perm : m.Perm l) : l ≤ m := by
  induction l generalizing m with
  | nil => exact (perm_nil.1 perm).ge
  | cons a l ih =>
    obtain ⟨above, tail⟩ := pairwise_cons.1 sorted
    cases m with
    | nil => exact absurd (nil_perm.1 perm) (cons_ne_nil a l)
    | cons b m =>
      rcases mem_cons.1 (perm.mem_iff.1 mem_cons_self) with rfl | mem
      · exact cons_le_cons b (ih tail perm.cons_inv)
      · exact le_of_lt (Lex.rel (above b mem))

variable {nextPermutation : List ℕ → Option (List ℕ)}

theorem NextPermutation.steps (lawful : NextPermutation nextPermutation) (n : ℕ) :
    Steps nextPermutation (range n).permutations.toFinset := by
  have members : ∀ order, order ∈ (range n).permutations.toFinset ↔ order.Perm (range n) := by
    intro order
    rw [mem_toFinset, mem_permutations]
  constructor
  · intro order mem later step
    obtain ⟨⟨perm, lt⟩, least⟩ := lawful.next order later step
    have mem' := (members order).1 mem
    refine ⟨⟨(members later).2 (perm.trans mem'), lt⟩, ?_⟩
    intro other ⟨inside, above⟩
    exact least ⟨((members other).1 inside).trans mem'.symm, above⟩
  · intro order mem stop other inside
    exact lawful.last order stop other (((members other).1 inside).trans ((members order).1 mem).symm)

/-- **The search ends at the shortest tour**, or at the first order when no tour is below
`INVALID_EDGE_DURATION`. -/
theorem bruteForceTrip_spec (lawful : NextPermutation nextPermutation) (nonneg : ∀ i < n, ∀ j < n, 0 ≤ distTable.entry i j) :
    ∃ best, Best n distTable (fun order => order.Perm (range n)) best ∧
      ∀ fuel, n.factorial ≤ fuel → bruteForceTrip nextPermutation fuel n distTable = some best.2 := by
  have first : range n ∈ (range n).permutations.toFinset := by
    rw [mem_toFinset, mem_permutations]
  obtain ⟨visited, members, run⟩ := (lawful.steps n).doWhile_eq first
  have all : ∀ order, order ∈ visited ↔ order.Perm (range n) := by
    intro order
    rw [members, mem_toFinset, mem_permutations]
    exact and_iff_left_of_imp (le_of_perm pairwise_lt_range)
  have start : Best n distTable (fun _ => False) (invalidEdgeDuration, range n) := ⟨fun _ no => no.elim, .inl rfl⟩
  have done := start.foldl (fun order => (all order).1) nonneg
  refine ⟨_, ⟨fun order perm => done.le order (.inl ((all order).2 perm)), done.kept⟩, fun fuel enough => ?_⟩
  have fewer : (above (range n).permutations.toFinset (range n)).card < fuel := by
    calc (above (range n).permutations.toFinset (range n)).card
        < (range n).permutations.toFinset.card := card_above_lt_card first
      _ ≤ (range n).permutations.length := toFinset_card_le _
      _ = n.factorial := by rw [length_permutations, length_range]
      _ ≤ fuel := enough
  rw [bruteForceTrip, run _ fuel _ fewer, Option.map_some]

end Search

end Trip

end Osrm
