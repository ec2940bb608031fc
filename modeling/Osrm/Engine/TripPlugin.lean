import Osrm.Engine.TripBruteForce
import Mathlib.Data.Finset.Max

/-!
# The order of a trip

The trip service optimises closed tours only. Where the ends of the trip are fixed, or where it
does not return, the table of durations is changed so that the best closed tour in the new table is
the best trip in the old one: entries that must not be used become `INVALID_EDGE_DURATION`, and the
step that closes the tour becomes free. Afterwards the tour is rotated to its start.

`Meets` says what a request asks of the order, `Encodes` that the changed table asks the same of a
tour; the optimality of the trip follows from the optimality of the tour.
-/

namespace Osrm.Trip

open List

open Lib.Tour

inductive SourceType
  | any
  | first
  deriving DecidableEq, Repr

inductive DestinationType
  | any
  | last
  deriving DecidableEq, Repr

/-- The part of `api::TripParameters` that decides on the order. -/
structure TripParameters where
  source : SourceType
  destination : DestinationType
  roundtrip : Bool
  deriving DecidableEq, Repr

variable (parameters : TripParameters)

/-- `source_id`; `INVALID_INDEX` is `none`. -/
def TripParameters.sourceId : Option ℕ :=
  match parameters.source with
  | .any => none
  | .first => some 0

/-- `destination_id`; `INVALID_INDEX` is `none`. -/
def TripParameters.destinationId (numberOfLocations : ℕ) : Option ℕ :=
  match parameters.destination with
  | .any => none
  | .last => some (numberOfLocations - 1)

def isSupportedParameterCombination (fixedStart fixedEnd roundtrip : Bool) : Bool := roundtrip || fixedStart || fixedEnd

def manipulateTableForFSE (sourceId destinationId : ℕ) (resultTable : DistTableWrapper) : DistTableWrapper :=
  let locations := range resultTable.numberOfNodes
  let noReturn := resultTable.setAll ((locations.filter (· ≠ sourceId)).map fun i => (i, sourceId)) invalidEdgeDuration
  let noExit := noReturn.setAll ((locations.filter (· ≠ destinationId)).map fun i => (destinationId, i)) invalidEdgeDuration
  (noExit.setValue destinationId sourceId 0).setValue sourceId destinationId invalidEdgeDuration

def manipulateTableForNonRoundtripFS (sourceId : ℕ) (resultTable : DistTableWrapper) : DistTableWrapper :=
  resultTable.setAll ((range resultTable.numberOfNodes).map fun i => (i, sourceId)) 0

def manipulateTableForNonRoundtripFE (destinationId : ℕ) (resultTable : DistTableWrapper) : DistTableWrapper :=
  resultTable.setAll ((range resultTable.numberOfNodes).map fun i => (destinationId, i)) 0

/-- The choice of the manipulation in `TripPlugin::HandleRequest`. -/
def manipulateTable (numberOfLocations : ℕ) (table : DistTableWrapper) : DistTableWrapper :=
  match parameters.sourceId, parameters.destinationId numberOfLocations with
  | some sourceId, some destinationId => manipulateTableForFSE sourceId destinationId table
  | some sourceId, none => if parameters.roundtrip then table else manipulateTableForNonRoundtripFS sourceId table
  | none, some destinationId => if parameters.roundtrip then table else manipulateTableForNonRoundtripFE destinationId table
  | none, none => table

/-- The rotation of the result in `TripPlugin::HandleRequest`. -/
def rotateTrip (numberOfLocations : ℕ) (durationTrip : List ℕ) : List ℕ :=
  match parameters.sourceId, parameters.destinationId numberOfLocations with
  | none, some destinationId =>
    let destinationIndex := durationTrip.idxOf destinationId
    if parameters.roundtrip then durationTrip.rotate destinationIndex
    -- the location after the destination comes to the front
    else durationTrip.rotate (if destinationIndex + 1 = durationTrip.length then 0 else destinationIndex + 1)
  | _, _ => durationTrip.rotate (durationTrip.idxOf 0)

/-- The order of a small trip in `TripPlugin::HandleRequest`; `none` where the request is not supported. -/
def smallTrip (nextPermutation : List ℕ → Option (List ℕ)) (fuel : ℕ) (parameters : TripParameters) (numberOfLocations : ℕ)
    (table : DistTableWrapper) : Option (List ℕ) :=
  let fixedStart := parameters.sourceId == some 0
  let fixedEnd := parameters.destinationId numberOfLocations == some (numberOfLocations - 1)
  if isSupportedParameterCombination fixedStart fixedEnd parameters.roundtrip then
    (bruteForceTrip nextPermutation fuel numberOfLocations (manipulateTable parameters numberOfLocations table)).map
      (rotateTrip parameters numberOfLocations)
  else none

/-- What a request asks of the order of its locations. A round trip that is free to start anywhere ends where it
started, so that a fixed destination is its first location. -/
structure Meets (n : ℕ) (order : List ℕ) : Prop where
  perm : order.Perm (range n)
  first : parameters.source = .first → order.head? = some 0
  last : parameters.destination = .last →
    (if parameters.roundtrip ∧ parameters.source = .any then order.head? else order.getLast?) = some (n - 1)

/-- The duration of a trip: of the closed tour for a round trip, of the path otherwise. -/
def tripDuration (table : DistTableWrapper) (order : List ℕ) : ℤ :=
  if parameters.roundtrip then tourDuration table order else total table.entry (pathLegs order)

section Rotation

variable {order : List ℕ} {v : ℕ} (parameters : TripParameters) (n : ℕ)

/-- A list rotated to one of its elements starts there. -/
theorem rotate_idxOf (mem : v ∈ order) : ∃ rest, order.rotate (order.idxOf v) = v :: rest := by
  have inside := idxOf_lt_length_iff.2 mem
  refine ⟨order.drop (order.idxOf v + 1) ++ order.take (order.idxOf v), ?_⟩
  rw [rotate_eq_drop_append_take inside.le, drop_eq_getElem_cons inside, getElem_idxOf, cons_append]

/-- Rotated one place further, it ends there. -/
theorem rotate_idxOf_succ (mem : v ∈ order) : ∃ rest, order.rotate (order.idxOf v + 1) = rest ++ [v] := by
  obtain ⟨rest, turned⟩ := rotate_idxOf mem
  refine ⟨rest, ?_⟩
  rw [← rotate_rotate, turned, rotate_cons_succ, rotate_zero]

theorem exists_rotateTrip (order : List ℕ) :
    ∃ k, rotateTrip parameters n order = order.rotate k := by
  rw [rotateTrip]
  split
  · split
    · exact ⟨_, rfl⟩
    · exact ⟨_, rfl⟩
  · exact ⟨_, rfl⟩

theorem rotateTrip_perm (order : List ℕ) :
    (rotateTrip parameters n order).Perm order := by
  obtain ⟨k, turned⟩ := exists_rotateTrip parameters n order
  rw [turned]
  exact rotate_perm order k

theorem tourDuration_rotateTrip (table : DistTableWrapper) (order : List ℕ) :
    tourDuration table (rotateTrip parameters n order) = tourDuration table order := by
  obtain ⟨k, turned⟩ := exists_rotateTrip parameters n order
  rw [turned]
  exact ((tourLegs_rotate_perm order k).map _).sum_eq

theorem open_rotateTrip (table : DistTableWrapper) (order : List ℕ) :
    Open table (rotateTrip parameters n order) ↔ Open table order := by
  obtain ⟨k, turned⟩ := exists_rotateTrip parameters n order
  rw [turned]
  exact forall_congr' fun leg => imp_congr_left (tourLegs_rotate_perm order k).mem_iff

theorem rotateTrip_first {parameters : TripParameters} (start : parameters.source = .first ∨ parameters.destination = .any)
    (n : ℕ) (order : List ℕ) : rotateTrip parameters n order = order.rotate (order.idxOf 0) := by
  obtain ⟨source, destination, roundtrip⟩ := parameters
  cases source <;> cases destination <;> simp_all [rotateTrip, TripParameters.sourceId, TripParameters.destinationId]

theorem rotateTrip_last (order : List ℕ) :
    rotateTrip ⟨.any, .last, true⟩ n order = order.rotate (order.idxOf (n - 1)) :=
  rfl

theorem rotateTrip_behindLast (order : List ℕ) :
    rotateTrip ⟨.any, .last, false⟩ n order = order.rotate (order.idxOf (n - 1) + 1) := by
  simp only [rotateTrip, TripParameters.sourceId, TripParameters.destinationId, Bool.false_eq_true, if_false]
  split
  · next full => rw [full, rotate_length, rotate_zero]
  · rfl

end Rotation

section Encoding

variable {n : ℕ} {table : DistTableWrapper} {parameters : TripParameters} {order : List ℕ}
  {source destination i j : ℕ} {changed : DistTableWrapper} {best : ℤ × List ℕ}

/-- The tours of the changed table that can be used are, rotated, the orders that meet the request, and their
durations agree up to a constant. -/
structure Encodes (parameters : TripParameters) (n : ℕ) (table changed : DistTableWrapper) (closing : ℤ) : Prop where
  meets : ∀ order, order.Perm (range n) → Open changed order → Meets parameters n (rotateTrip parameters n order)
  same : ∀ order, Meets parameters n order →
    Open changed order ∧ tripDuration parameters table order = tourDuration changed order + closing

/-- **The best tour of the changed table is the best trip of the old one.** -/
theorem Encodes.optimal {closing : ℤ} (encodes : Encodes parameters n table changed closing)
    (nonneg : 0 ≤ closing) (first : Meets parameters n (rotateTrip parameters n (range n)))
    (fits : ∀ order, order.Perm (range n) → tripDuration parameters table order ≤ invalidEdgeDuration)
    (found : Best n changed (fun order => order.Perm (range n)) best) :
    Meets parameters n (rotateTrip parameters n best.2) ∧
      ∀ order, Meets parameters n order →
        tripDuration parameters table (rotateTrip parameters n best.2) ≤ tripDuration parameters table order := by
  rcases found.kept with initial | ⟨-, perm, valid, duration⟩
  · rw [initial]
    refine ⟨first, fun order meets => ?_⟩
    obtain ⟨valid, same⟩ := encodes.same order meets
    have long : invalidEdgeDuration ≤ tourDuration changed order := by
      have le := found.le order meets.perm valid
      rwa [initial] at le
    calc tripDuration parameters table (rotateTrip parameters n (range n))
        ≤ invalidEdgeDuration := fits _ (rotateTrip_perm _ _ _)
      _ ≤ tourDuration changed order + closing := by omega
      _ = tripDuration parameters table order := same.symm
  · have meets := encodes.meets best.2 perm valid
    refine ⟨meets, fun order other => ?_⟩
    obtain ⟨possible, same⟩ := encodes.same order other
    rw [(encodes.same _ meets).2, same, tourDuration_rotateTrip, duration]
    exact add_le_add_left (found.le order other.perm possible) closing

/-- The durations of the table are non-negative and finite. -/
def Finite (n : ℕ) (table : DistTableWrapper) : Prop :=
  ∀ i < n, ∀ j < n, 0 ≤ table.entry i j ∧ table.entry i j < invalidEdgeDuration

theorem mem_legs_lt (perm : order.Perm (range n)) {leg : ℕ × ℕ} (on : leg ∈ tourLegs order) : leg.1 < n ∧ leg.2 < n := by
  obtain ⟨first, second⟩ := mem_of_mem_tourLegs on
  exact ⟨mem_range.1 (perm.mem_iff.1 first), mem_range.1 (perm.mem_iff.1 second)⟩

theorem open_of_finite (finite : Finite n table) (perm : order.Perm (range n)) : Open table order := by
  intro leg on
  obtain ⟨first, second⟩ := mem_legs_lt perm on
  exact (finite _ first _ second).2.ne

theorem tourDuration_eq (table : DistTableWrapper) (nonempty : order ≠ []) :
    tourDuration table order =
      total table.entry (pathLegs order) + table.entry (order.getLast nonempty) (order.head nonempty) := by
  rw [tourDuration, tourLegs_eq nonempty, total_append, total_cons, total_nil, add_zero]

/-- Where the steps of the path are as before and the way back is free, the closed tour takes as long as the path. -/
theorem tour_of_path (finite : Finite n table) (perm : order.Perm (range n))
    (nonempty : order ≠ [])
    (steps : ∀ leg ∈ pathLegs order, leg.1 < n → leg.2 < n → changed.entry leg.1 leg.2 = table.entry leg.1 leg.2)
    (back : order.getLast nonempty < n → order.head nonempty < n →
      changed.entry (order.getLast nonempty) (order.head nonempty) = 0) :
    Open changed order ∧ tourDuration changed order = total table.entry (pathLegs order) := by
  have inside : ∀ v ∈ order, v < n := fun v mem => mem_range.1 (perm.mem_iff.1 mem)
  replace back := back (inside _ (getLast_mem _)) (inside _ (head_mem _))
  replace steps : ∀ leg ∈ pathLegs order, changed.entry leg.1 leg.2 = table.entry leg.1 leg.2 := by
    intro leg on
    obtain ⟨first, second⟩ := mem_legs_lt perm (pathLegs_subset_tourLegs order on)
    exact steps leg on first second
  constructor
  · intro leg on
    rw [tourLegs_eq nonempty, mem_append, mem_singleton] at on
    rcases on with inside | rfl
    · rw [steps leg inside]
      exact open_of_finite finite perm leg (pathLegs_subset_tourLegs order inside)
    · rw [back]
      decide
  · rw [tourDuration_eq _ nonempty, back, add_zero]
    exact congrArg sum (map_congr_left steps)

theorem entry_manipulateTableForNonRoundtripFS (sized : table.numberOfNodes = n) (hs : source < n) (hi : i < n)
    (hj : j < n) : (manipulateTableForNonRoundtripFS source table).entry i j = if j = source then 0 else table.entry i j := by
  subst sized
  rw [manipulateTableForNonRoundtripFS, table.entry_setAll hi hj (by simpa using fun _ _ => hs)]
  apply if_congr _ rfl rfl
  simp only [mem_map, mem_range, Prod.mk.injEq]
  constructor
  · rintro ⟨k, -, -, same⟩
    exact same.symm
  · rintro rfl
    exact ⟨i, hi, rfl, rfl⟩

theorem entry_manipulateTableForNonRoundtripFE (sized : table.numberOfNodes = n) (hi : i < n) (hj : j < n) :
    (manipulateTableForNonRoundtripFE destination table).entry i j = if i = destination then 0 else table.entry i j := by
  subst sized
  rw [manipulateTableForNonRoundtripFE, table.entry_setAll hi hj (by simp)]
  apply if_congr _ rfl rfl
  simp only [mem_map, mem_range, Prod.mk.injEq]
  constructor
  · rintro ⟨k, -, same, -⟩
    exact same.symm
  · rintro rfl
    exact ⟨j, hj, rfl, rfl⟩

theorem mem_row (hj : j < n) :
    (i, j) ∈ ((range n).filter (· ≠ destination)).map (fun k => (destination, k)) ↔ i = destination ∧ j ≠ destination := by
  grind

theorem entry_manipulateTableForFSE (sized : table.numberOfNodes = n) (hs : source < n)
    (hd : destination < n) (hi : i < n) (hj : j < n) :
    (manipulateTableForFSE source destination table).entry i j =
      if i = source ∧ j = destination then invalidEdgeDuration
      else if i = destination ∧ j = source then 0
      else if i = destination ∧ j ≠ destination ∨ i ≠ source ∧ j = source then invalidEdgeDuration
      else table.entry i j := by
  subst sized
  have column : ∀ cell ∈ ((range table.numberOfNodes).filter (· ≠ source)).map fun k => (k, source),
      cell.2 < table.numberOfNodes := by
    intro cell mem
    obtain ⟨k, -, rfl⟩ := mem_map.1 mem
    exact hs
  have row : ∀ cell ∈ ((range table.numberOfNodes).filter (· ≠ destination)).map fun k => (destination, k),
      cell.2 < table.numberOfNodes := by
    intro cell mem
    obtain ⟨k, inside, rfl⟩ := mem_map.1 mem
    exact mem_range.1 (mem_of_mem_filter inside)
  rw [manipulateTableForFSE, DistTableWrapper.entry_setValue _ (by simpa using hi) (by simpa using hj) (by simpa using hd),
    DistTableWrapper.entry_setValue _ (by simpa using hi) (by simpa using hj) (by simpa using hs),
    DistTableWrapper.entry_setAll _ (by simpa using hi) (by simpa using hj) (by simpa only [DistTableWrapper.numberOfNodes_setAll] using row),
    DistTableWrapper.entry_setAll _ hi hj column]
  simp only [mem_row hj]
  grind

theorem nodup_of_perm (perm : order.Perm (range n)) : order.Nodup := perm.nodup_iff.2 nodup_range

/-- Without two fixed ends the rotation alone meets the request. -/
theorem meets_rotateTrip (pos : 0 < n) (free : parameters.source = .any ∨ parameters.destination = .any)
    (perm : order.Perm (range n)) : Meets parameters n (rotateTrip parameters n order) := by
  have zero := perm.mem_iff.2 (mem_range.2 pos)
  have end' := perm.mem_iff.2 (mem_range.2 (Nat.sub_lt pos Nat.one_pos))
  refine ⟨(rotateTrip_perm _ _ _).trans perm, fun start => ?_, fun fixed => ?_⟩
  · obtain ⟨rest, turned⟩ := rotate_idxOf zero
    rw [rotateTrip_first (.inl start), turned, head?_cons]
  · have open' : parameters.source = .any := free.resolve_right (by rw [fixed]; exact DestinationType.noConfusion)
    obtain ⟨source, destination, roundtrip⟩ := parameters
    subst open' fixed
    cases roundtrip with
    | true =>
      obtain ⟨rest, turned⟩ := rotate_idxOf end'
      rw [rotateTrip_last, turned]
      rfl
    | false =>
      obtain ⟨rest, turned⟩ := rotate_idxOf_succ end'
      rw [rotateTrip_behindLast, turned, if_neg (by simp), getLast?_concat]

theorem encodes_roundtrip (pos : 0 < n) (finite : Finite n table) (closed : parameters.roundtrip = true)
    (free : parameters.source = .any ∨ parameters.destination = .any) : Encodes parameters n table table 0 where
  meets _ perm _ := meets_rotateTrip pos free perm
  same order meets := by
    rw [tripDuration, if_pos closed, add_zero]
    exact ⟨open_of_finite finite meets.perm, rfl⟩

theorem encodes_fixedStart (pos : 0 < n) (sized : table.numberOfNodes = n) (finite : Finite n table) :
    Encodes ⟨.first, .any, false⟩ n table (manipulateTableForNonRoundtripFS 0 table) 0 where
  meets _ perm _ := meets_rotateTrip pos (.inr rfl) perm
  same order meets := by
    obtain ⟨rest, rfl⟩ := head?_eq_some_iff.1 (meets.first rfl)
    have tour : Open (manipulateTableForNonRoundtripFS 0 table) _ ∧ _ := tour_of_path finite meets.perm (cons_ne_nil 0 rest) ?_ ?_
    · exact ⟨tour.1, by rw [tour.2, add_zero]; rfl⟩
    · intro leg on first second
      rw [entry_manipulateTableForNonRoundtripFS sized pos first second]
      exact if_neg (snd_ne_of_mem_pathLegs (nodup_of_perm meets.perm) on)
    · intro last first
      rw [entry_manipulateTableForNonRoundtripFS sized pos last first]
      exact if_pos rfl

theorem encodes_fixedEnd (pos : 0 < n) (sized : table.numberOfNodes = n) (finite : Finite n table) :
    Encodes ⟨.any, .last, false⟩ n table (manipulateTableForNonRoundtripFE (n - 1) table) 0 where
  meets _ perm _ := meets_rotateTrip pos (.inl rfl) perm
  same order meets := by
    have final := meets.last rfl
    obtain ⟨rest, rfl⟩ := getLast?_eq_some_iff.1 final
    have nonempty : rest ++ [n - 1] ≠ [] := append_ne_nil_of_right_ne_nil _ (cons_ne_nil _ _)
    have tour : Open (manipulateTableForNonRoundtripFE (n - 1) table) _ ∧ _ := tour_of_path finite meets.perm nonempty ?_ ?_
    · exact ⟨tour.1, by rw [tour.2, add_zero]; rfl⟩
    · intro leg on first second
      rw [entry_manipulateTableForNonRoundtripFE sized first second]
      exact if_neg (fst_ne_of_mem_pathLegs (nodup_of_perm meets.perm) on)
    · intro last first
      rw [entry_manipulateTableForNonRoundtripFE sized last first, getLast_append_singleton, if_pos rfl]

/-- A tour of the table for two fixed ends that can be used comes from the destination to the source. -/
theorem meets_of_open (two : 2 ≤ n) (sized : table.numberOfNodes = n) (roundtrip : Bool) (perm : order.Perm (range n))
    (valid : Open (manipulateTableForFSE 0 (n - 1) table) order) :
    Meets ⟨.first, .last, roundtrip⟩ n (rotateTrip ⟨.first, .last, roundtrip⟩ n order) := by
  have perm' := (rotateTrip_perm ⟨.first, .last, roundtrip⟩ n order).trans perm
  have valid' := (open_rotateTrip ⟨.first, .last, roundtrip⟩ n _ order).2 valid
  obtain ⟨rest, turned⟩ := rotate_idxOf (perm.mem_iff.2 (mem_range.2 (by omega : 0 < n)))
  rw [rotateTrip_first (.inl rfl), turned] at perm' valid' ⊢
  have nonempty := cons_ne_nil 0 rest
  have length : rest.length + 1 = n := by
    have same := perm'.length_eq
    rwa [length_range, length_cons] at same
  have last : (0 :: rest).getLast nonempty = n - 1 := by
    have usable := valid' ((0 :: rest).getLast nonempty, 0) (by simp [tourLegs_eq nonempty])
    have inside := mem_range.1 (perm'.mem_iff.1 (getLast_mem nonempty))
    have other : (0 :: rest).getLast nonempty ≠ 0 := by
      have longer : rest ≠ [] := ne_nil_of_length_pos (by omega)
      rw [getLast_cons longer]
      intro zero
      exact (nodup_cons.1 (nodup_of_perm perm')).1 (zero ▸ getLast_mem longer)
    by_contra wrong
    apply usable
    rw [entry_manipulateTableForFSE sized (by omega) (by omega) inside (by omega)]
    simp [wrong, other]
  refine ⟨perm', fun _ => rfl, fun _ => ?_⟩
  rw [if_neg (by simp), getLast?_eq_getLast_of_ne_nil nonempty, last]

theorem encodes_fixedEnds (three : 3 ≤ n) (sized : table.numberOfNodes = n) (finite : Finite n table) (roundtrip : Bool) :
    Encodes ⟨.first, .last, roundtrip⟩ n table (manipulateTableForFSE 0 (n - 1) table)
      (if roundtrip then table.entry (n - 1) 0 else 0) where
  meets _ perm valid := meets_of_open (by omega) sized roundtrip perm valid
  same order meets := by
    obtain ⟨rest, rfl⟩ := head?_eq_some_iff.1 (meets.first rfl)
    have nodup := nodup_of_perm meets.perm
    have final := meets.last rfl
    rw [if_neg (by simp)] at final
    have nonempty := cons_ne_nil 0 rest
    have last : (0 :: rest).getLast nonempty = n - 1 := by
      rwa [getLast?_eq_getLast_of_ne_nil nonempty, Option.some_inj] at final
    have tour : Open (manipulateTableForFSE 0 (n - 1) table) _ ∧ _ := tour_of_path finite meets.perm nonempty ?_ ?_
    · refine ⟨tour.1, ?_⟩
      rw [tour.2, tripDuration]
      cases roundtrip with
      | true => rw [if_pos rfl, if_pos rfl, tourDuration_eq table nonempty, last, head_cons]
      | false => rw [if_neg (by simp), if_neg (by simp), add_zero]
    · intro leg on first second
      have ahead := snd_ne_of_mem_pathLegs nodup on
      have behind : leg.1 ≠ n - 1 := by
        obtain ⟨front, shape⟩ := getLast?_eq_some_iff.1 final
        rw [shape] at on nodup
        exact fst_ne_of_mem_pathLegs nodup on
      have indirect : ¬ (leg.1 = 0 ∧ leg.2 = n - 1) := by
        intro both
        have direct : leg = (0, n - 1) := Prod.ext_iff.2 both
        have short := eq_of_mem_pathLegs nodup final (direct ▸ on)
        have length := meets.perm.length_eq
        rw [short, length_range] at length
        simp only [length_cons, length_nil] at length
        omega
      rw [entry_manipulateTableForFSE sized (by omega) (by omega) first second, if_neg indirect, if_neg (by tauto),
        if_neg (by tauto)]
    · intro _ _
      rw [last, entry_manipulateTableForFSE sized (by omega) (by omega) (by omega) (by omega),
        if_neg (by omega), if_pos ⟨rfl, rfl⟩]

theorem manipulateTable_roundtrip (closed : parameters.roundtrip = true)
    (free : parameters.source = .any ∨ parameters.destination = .any) : manipulateTable parameters n table = table := by
  obtain ⟨source, destination, roundtrip⟩ := parameters
  cases source <;> cases destination <;>
    simp_all [manipulateTable, TripParameters.sourceId, TripParameters.destinationId]

/-- The first order of all is what a request with two fixed ends asks for, as far as these go. -/
theorem meets_range (pos : 0 < n) (parameters : TripParameters) :
    Meets parameters n (rotateTrip parameters n (range n)) := by
  by_cases free : parameters.source = .any ∨ parameters.destination = .any
  · exact meets_rotateTrip pos free (Perm.refl _)
  · obtain ⟨source, destination, roundtrip⟩ := parameters
    obtain ⟨n, rfl⟩ := Nat.exists_eq_succ_of_ne_zero pos.ne'
    have turned : rotateTrip ⟨source, destination, roundtrip⟩ (n + 1) (range (n + 1)) = range (n + 1) := by
      have start : source = .first := by cases source <;> simp_all
      rw [rotateTrip_first (.inl start), range_succ_eq_map, idxOf_cons_self, rotate_zero]
    rw [turned]
    refine ⟨Perm.refl _, fun _ => by rw [range_succ_eq_map, head?_cons], fun _ => ?_⟩
    rw [if_neg (by simp_all), range_succ, getLast?_concat, Nat.succ_sub_one]

/-- With two locations and both ends fixed no tour can be used, and there is only one order. -/
theorem optimal_of_two (sized : table.numberOfNodes = 2) (roundtrip : Bool)
    (found : Best 2 (manipulateTableForFSE 0 1 table) (fun order => order.Perm (range 2)) best) :
    ∀ order, Meets ⟨.first, .last, roundtrip⟩ 2 order → order = rotateTrip ⟨.first, .last, roundtrip⟩ 2 best.2 := by
  have only : ∀ order, Meets ⟨.first, .last, roundtrip⟩ 2 order → order = [0, 1] := by
    intro order meets
    obtain ⟨rest, rfl⟩ := head?_eq_some_iff.1 (meets.first rfl)
    have tail : rest.Perm [1] := (Perm.cons_inv (meets.perm : (0 :: rest).Perm (0 :: [1])))
    rw [perm_singleton.1 tail]
  have shut : ∀ order, order.Perm (range 2) → ¬ Open (manipulateTableForFSE 0 1 table) order := by
    intro order perm valid
    have meets := meets_of_open (le_refl 2) sized roundtrip perm valid
    have turned := only _ meets
    have valid' := (open_rotateTrip ⟨.first, .last, roundtrip⟩ 2 _ order).2 valid
    rw [turned] at valid'
    apply valid' (0, 1) (by simp [tourLegs])
    rw [entry_manipulateTableForFSE sized (by omega) (by omega) (by omega) (by omega), if_pos ⟨rfl, rfl⟩]
  intro order meets
  rcases found.kept with initial | ⟨-, perm, valid, -⟩
  · rw [initial, only order meets, only _ (meets_range Nat.two_pos _)]
  · exact absurd valid (shut _ perm)

/-- The manipulation does what the request asks, except for two locations with both ends fixed. -/
theorem encodes_manipulateTable (sized : table.numberOfNodes = n) (finite : Finite n table)
    (supported : parameters.roundtrip = true ∨ parameters.source = .first ∨ parameters.destination = .last)
    (large : 3 ≤ n ∨ 0 < n ∧ (parameters.source = .any ∨ parameters.destination = .any)) :
    ∃ closing, 0 ≤ closing ∧ Encodes parameters n table (manipulateTable parameters n table) closing := by
  have pos : 0 < n := large.elim (by omega) And.left
  by_cases free : parameters.source = .any ∨ parameters.destination = .any
  · by_cases closed : parameters.roundtrip = true
    · rw [manipulateTable_roundtrip closed free]
      exact ⟨0, le_refl 0, encodes_roundtrip pos finite closed free⟩
    · obtain ⟨source, destination, roundtrip⟩ := parameters
      obtain rfl : roundtrip = false := by simpa using closed
      cases source <;> cases destination
      · simp at supported
      · exact ⟨0, le_refl 0, encodes_fixedEnd pos sized finite⟩
      · exact ⟨0, le_refl 0, encodes_fixedStart pos sized finite⟩
      · simp at free
  · obtain ⟨source, destination, roundtrip⟩ := parameters
    cases source <;> cases destination <;> simp only [reduceCtorEq, or_self, or_false, false_or, not_true] at free
    have three : 3 ≤ n := large.resolve_right (by simp)
    refine ⟨_, ?_, encodes_fixedEnds three sized finite roundtrip⟩
    split
    · exact (finite _ (by omega) _ (by omega)).1
    · exact le_refl 0

theorem nonneg_manipulateTable (parameters : TripParameters) (pos : 0 < n) (sized : table.numberOfNodes = n) (finite : Finite n table) {i j : ℕ}
    (hi : i < n) (hj : j < n) : 0 ≤ (manipulateTable parameters n table).entry i j := by
  have old := (finite i hi j hj).1
  have last := Nat.sub_lt pos Nat.one_pos
  have invalid : 0 ≤ invalidEdgeDuration := by decide
  obtain ⟨source, destination, roundtrip⟩ := parameters
  cases source <;> cases destination <;> cases roundtrip <;>
    simp only [manipulateTable, TripParameters.sourceId, TripParameters.destinationId, Bool.false_eq_true, if_false] <;>
    try exact old
  · rw [entry_manipulateTableForNonRoundtripFE sized hi hj]
    split <;> omega
  · rw [entry_manipulateTableForNonRoundtripFS sized pos hi hj]
    split <;> omega
  all_goals
    rw [entry_manipulateTableForFSE sized pos last hi hj]
    split_ifs <;> omega

theorem supported_iff : isSupportedParameterCombination (parameters.sourceId == some 0)
      (parameters.destinationId n == some (n - 1)) parameters.roundtrip = true ↔
    parameters.roundtrip = true ∨ parameters.source = .first ∨ parameters.destination = .last := by
  obtain ⟨source, destination, roundtrip⟩ := parameters
  cases source <;> cases destination <;>
    simp [isSupportedParameterCombination, TripParameters.sourceId, TripParameters.destinationId]

/-- **A small trip is the shortest of all orders that meet the request.** -/
theorem smallTrip_optimal {nextPermutation : List ℕ → Option (List ℕ)} (lawful : NextPermutation nextPermutation) (two : 2 ≤ n)
    (sized : table.numberOfNodes = n) (finite : Finite n table)
    (supported : isSupportedParameterCombination (parameters.sourceId == some 0)
      (parameters.destinationId n == some (n - 1)) parameters.roundtrip = true)
    (fits : ∀ order, order.Perm (range n) → tripDuration parameters table order ≤ invalidEdgeDuration) :
    ∃ order, (∀ fuel, n.factorial ≤ fuel → smallTrip nextPermutation fuel parameters n table = some order) ∧
      Meets parameters n order ∧
      ∀ other, Meets parameters n other → tripDuration parameters table order ≤ tripDuration parameters table other := by
  have pos := Nat.zero_lt_of_lt two
  obtain ⟨best, found, run⟩ := bruteForceTrip_spec lawful
    (fun i hi j hj => nonneg_manipulateTable parameters pos sized finite hi hj)
  refine ⟨rotateTrip parameters n best.2, fun fuel enough => ?_, ?_⟩
  · rw [smallTrip]
    simp [supported, run fuel enough]
  · have first := meets_range pos parameters
    by_cases large : 3 ≤ n ∨ 0 < n ∧ (parameters.source = .any ∨ parameters.destination = .any)
    · obtain ⟨closing, nonneg, encodes⟩ := encodes_manipulateTable sized finite (supported_iff.1 supported) large
      exact encodes.optimal nonneg first fits found
    · obtain ⟨source, destination, roundtrip⟩ := parameters
      obtain rfl : n = 2 := by omega
      cases source <;> cases destination <;> simp only [reduceCtorEq, or_false, or_true, and_true] at large
      · omega
      · omega
      · omega
      · have unique := optimal_of_two sized roundtrip found
        rw [← unique _ first]
        refine ⟨first, fun other meets => ?_⟩
        rw [unique other meets, ← unique _ first]

end Encoding

/-- `std::next_permutation` by choice among all orders. -/
def leastLater (order : List ℕ) : Option (List ℕ) :=
  let later := order.permutations.toFinset.filter (order < ·)
  if nonempty : later.Nonempty then some (later.min' nonempty) else none

theorem nextPermutation_leastLater : NextPermutation leastLater := by
  have members : ∀ order other : List ℕ,
      other ∈ order.permutations.toFinset.filter (order < ·) ↔ other.Perm order ∧ order < other := by
    intro order other
    rw [Finset.mem_filter, mem_toFinset, mem_permutations]
  constructor
  · intro order later found
    rw [leastLater] at found
    split at found
    · next nonempty =>
      cases found
      refine ⟨(members order _).1 (Finset.min'_mem _ nonempty), fun other beyond => ?_⟩
      exact Finset.min'_le _ other ((members order other).2 beyond)
    · cases found
  · intro order found other perm
    rw [leastLater] at found
    split at found
    · cases found
    · next empty =>
      by_contra lt
      exact empty ⟨other, (members order other).2 ⟨perm, not_le.1 lt⟩⟩

/-- Three locations with durations that depend on the direction. -/
def triangle : DistTableWrapper := ⟨[0, 5, 9, 4, 0, 7, 6, 3, 0], 3, le_refl 9⟩

theorem triangle_le {i j : ℕ} (hi : i < 3) (hj : j < 3) : 0 ≤ triangle.entry i j ∧ triangle.entry i j ≤ 9 := by
  have all : ∀ i < 3, ∀ j < 3, 0 ≤ triangle.entry i j ∧ triangle.entry i j ≤ 9 := by decide
  exact all i hi j hj

/-- Both ways around the triangle meet the request; the one that is found is not the first. -/
theorem smallTrip_optimal_triangle : tripDuration ⟨.any, .any, true⟩ triangle [0, 1, 2] = 18 ∧
    NextPermutation leastLater ∧ ∃ order, (∀ fuel, Nat.factorial 3 ≤ fuel → smallTrip leastLater fuel ⟨.any, .any, true⟩ 3 triangle = some order) ∧
      Meets ⟨.any, .any, true⟩ 3 order ∧ tripDuration ⟨.any, .any, true⟩ triangle order ≤ 16 := by
  have finite : Finite 3 triangle := by
    intro i hi j hj
    obtain ⟨low, high⟩ := triangle_le hi hj
    exact ⟨low, high.trans_lt (by decide)⟩
  have sized : triangle.numberOfNodes = 3 := rfl
  have fits : ∀ order, order.Perm (range 3) → tripDuration ⟨.any, .any, true⟩ triangle order ≤ invalidEdgeDuration := by
    intro order perm
    have each : ∀ duration ∈ (tourLegs order).map fun leg => triangle.entry leg.1 leg.2, duration ≤ 9 := by
      simp only [forall_mem_map]
      intro leg on
      exact (triangle_le (mem_legs_lt perm on).1 (mem_legs_lt perm on).2).2
    have sum := sum_le_card_nsmul _ 9 each
    have length : (tourLegs order).length = 3 := by
      rw [tourLegs, length_zip, length_rotate, min_self, perm.length_eq, length_range]
    rw [length_map, length] at sum
    calc tripDuration ⟨.any, .any, true⟩ triangle order ≤ 3 • 9 := sum
      _ ≤ invalidEdgeDuration := by decide
  obtain ⟨order, found, meets, least⟩ := smallTrip_optimal nextPermutation_leastLater (by omega) sized finite rfl fits
  have back : Meets ⟨.any, .any, true⟩ 3 [0, 2, 1] := ⟨by decide, by decide, by decide⟩
  exact ⟨by decide, nextPermutation_leastLater, order, found, meets, (least _ back).trans (by decide)⟩

end Osrm.Trip
