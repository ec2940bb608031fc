import Osrm.Extractor.SegmentData
import Osrm.Util.Coordinate

/-!
# Speed updates of segments

`updateSegmentData` of the updater looks up every directed segment of every geometry in a table of
speeds. A segment that is listed takes its weight, duration and data source from the entry. The
directed geometries with a listed segment are returned, for the edges that start in them to be
computed anew.

Weights and durations are computed in double precision. A speed that is so slow that its weight or
duration exceeds 32 bits ends the update with an exception (`none` here).
-/

namespace Osrm.Updater

open Extractor List

/-- `SpeedSource`. A rate may be missing, or be set without being finite (`some none`). -/
structure SpeedSource where
  speed : ℚ
  rate : Option (Option ℚ)
  source : ℕ
  deriving DecidableEq, Repr

/-- `SegmentLookupTable`, by the OSM nodes of a directed segment. -/
abbrev SegmentLookupTable := ℕ → ℕ → Option SpeedSource

structure GeometryID where
  id : ℕ
  forward : Bool
  deriving DecidableEq, Repr

/-- `boost::numeric_cast` of a double that is a whole number to `std::uint32_t` and to `TurnPenalty::value_type`. It throws
(`none`) where the number is out of range. -/
structure NumericCast where
  toUnsigned : ℤ → Option ℕ
  toPenalty : ℤ → Option ℤ
  toUnsigned_eq_some_iff : ∀ x k, toUnsigned x = some k ↔ x = k ∧ k < 2 ^ 32
  toPenalty_eq_some_iff : ∀ x k, toPenalty x = some k ↔ x = k ∧ -2 ^ 15 ≤ k ∧ k < 2 ^ 15

/-- The casts, by tests of the bounds. -/
def NumericCast.checked : NumericCast where
  toUnsigned x := if 0 ≤ x ∧ x < 2 ^ 32 then some x.toNat else none
  toPenalty x := if -2 ^ 15 ≤ x ∧ x < 2 ^ 15 then some x else none
  toUnsigned_eq_some_iff x k := by
    rw [Option.ite_none_right_eq_some, Option.some.injEq]
    omega
  toPenalty_eq_some_iff x k := by
    rw [Option.ite_none_right_eq_some, Option.some.injEq]
    omega

/-- The least value is 1, and the one that stands for "invalid" is not reached. -/
def clampSegment (value : ℕ) : ℕ :=
  let value := max 1 value
  if value ≥ invalidSegmentWeight then invalidSegmentWeight - 1 else value

/-- `speed / 3.6` -/
def inMs (speedInKmh : ℚ) : ℚ := toDouble (speedInKmh / toDouble (36 / 10))

variable (numericCast : NumericCast)

def convertToDuration (speedInKmh distanceInMeters : ℚ) : Option ℕ :=
  if speedInKmh ≤ 0 then some invalidSegmentWeight
  else
    let duration := toDouble (distanceInMeters / inMs speedInKmh)
    (numericCast.toUnsigned (stdRound (toDouble (duration * 10)))).map clampSegment

def convertToWeight (weightMultiplier : ℚ) (existingWeight : ℕ) (value : SpeedSource) (distanceInMeters : ℚ) : Option ℕ :=
  match value.rate with
  | some none => some existingWeight
  | some (some rate) => fromRate rate
  | none => fromRate (inMs value.speed)
where
  fromRate (rate : ℚ) : Option ℕ :=
    if rate ≤ 0 then some invalidSegmentWeight
    else
      let weight := toDouble (distanceInMeters / rate)
      (numericCast.toUnsigned (stdRound (toDouble (weight * weightMultiplier)))).map clampSegment

/-- What the update reads besides the segments: the table, the OSM nodes, the lengths of segments, the profile and the library. -/
structure SpeedUpdate where
  lookup : SegmentLookupTable
  osmNodeIds : ℕ → ℕ
  segmentLength : ℕ → ℕ → ℚ
  weightMultiplier : ℚ
  numericCast : NumericCast

namespace SpeedUpdate

variable (update : SpeedUpdate) (s : SegmentData) (dir : Bool) (offset : ℕ)

/-- The entry for a segment, in one direction. Segments between equal OSM nodes are artificial and skipped. -/
def source : Option SpeedSource :=
  let u := update.osmNodeIds (s.nodes.getD offset 0)
  let v := update.osmNodeIds (s.nodes.getD (offset + 1) 0)
  if u = v then none else if dir then update.lookup u v else update.lookup v u

def length : ℚ := update.segmentLength (s.nodes.getD offset 0) (s.nodes.getD (offset + 1) 0)

/-- The new weight of a segment, `none` where the conversion throws. -/
def newWeight (old : ℕ) : Option ℕ :=
  match update.source s dir offset with
  | some value => convertToWeight update.numericCast update.weightMultiplier old value (update.length s offset)
  | none => some old

def newDuration (old : ℕ) : Option ℕ :=
  match update.source s dir offset with
  | some value => convertToDuration update.numericCast value.speed (update.length s offset)
  | none => some old

def newDatasource (old : ℕ) : ℕ :=
  match update.source s dir offset with
  | some value => value.source
  | none => old

/-- The entries of one direction, stored by node: the forward segment that leads to a node, the reverse segment that does. -/
def setEntries (new : ℕ → ℕ → ℕ) (entries : List ℕ) : List ℕ :=
  entries.mapIdx fun place old =>
    if dir then (if place = 0 then old else new (place - 1) old)
    else if place < s.size then new place old else old

/-- One geometry after the loops over its segments. -/
def updateGeometry : SegmentData where
  nodes := s.nodes
  fwdWeights := setEntries s true (fun offset old => (update.newWeight s true offset old).getD old) s.fwdWeights
  revWeights := setEntries s false (fun offset old => (update.newWeight s false offset old).getD old) s.revWeights
  fwdDurations := setEntries s true (fun offset old => (update.newDuration s true offset old).getD old) s.fwdDurations
  revDurations := setEntries s false (fun offset old => (update.newDuration s false offset old).getD old) s.revDurations
  fwdDatasources := setEntries s true (update.newDatasource s true) s.fwdDatasources
  revDatasources := setEntries s false (update.newDatasource s false) s.revDatasources
  two := s.two
  aligned := by
    have same := s.aligned
    simp only [mem_cons, not_mem_nil, or_false, forall_eq_or_imp, forall_eq] at same
    simp only [mem_cons, not_mem_nil, or_false, forall_eq_or_imp, forall_eq, setEntries, length_mapIdx]
    exact same

/-- `fwd_was_updated` and `rev_was_updated` -/
def wasUpdated : Bool := (range s.size).any fun offset => (update.source s dir offset).isSome

def converts : Bool :=
  [true, false].all fun dir => (range s.size).all fun offset =>
    match update.source s dir offset with
    | some value => (convertToDuration update.numericCast value.speed (update.length s offset)).isSome &&
        (convertToWeight update.numericCast update.weightMultiplier 0 value (update.length s offset)).isSome
    | none => true

/-- `updateSegmentData`, with the directed geometries that were updated. -/
def updateSegmentData (numberOfGeometries : ℕ) (segmentData : ℕ → SegmentData) :
    Option ((ℕ → SegmentData) × List GeometryID) :=
  if (range numberOfGeometries).all fun id => update.converts (segmentData id) then
    some (fun id => if id < numberOfGeometries then update.updateGeometry (segmentData id) else segmentData id,
      (range numberOfGeometries).flatMap fun id =>
        [true, false].filterMap fun dir => if update.wasUpdated (segmentData id) dir then some ⟨id, dir⟩ else none)
  else none

/-- The weights of a directed geometry with those of the listed segments, in the order in which it is travelled. -/
def listedWeights : List ℕ :=
  if dir then (s.weights true).mapIdx fun offset old => (update.newWeight s true offset old).getD old
  else ((s.weights false).reverse.mapIdx fun offset old => (update.newWeight s false offset old).getD old).reverse

/-- A range in forward order, as the loops over the segments see it. -/
def oriented (l : List ℕ) : List ℕ := if dir then l else l.reverse

/-- The entry of a segment in the range over the entries that are set. -/
theorem getElem?_range_setEntries (fwd : List ℕ) {rev : List ℕ} (new : Bool → ℕ → ℕ → ℕ) (aligned : rev.length = s.nodes.length) :
    (oriented dir (SegmentData.range (setEntries s true (new true) fwd) (setEntries s false (new false) rev) dir))[offset]? =
      (oriented dir (SegmentData.range fwd rev dir))[offset]?.map (new dir offset) := by
  cases dir with
  | true => simp [oriented, SegmentData.range, setEntries]
  | false =>
    simp only [oriented, SegmentData.range, Bool.false_eq_true, if_false, reverse_reverse, getElem?_dropLast, setEntries,
      length_mapIdx, aligned]
    split
    · next inside => simp [SegmentData.size, inside]
    · rfl

theorem getElem?_updateGeometry_weights : (oriented dir ((update.updateGeometry s).weights dir))[offset]? =
    (oriented dir (s.weights dir))[offset]?.map fun old => (update.newWeight s dir offset old).getD old := by
  apply getElem?_range_setEntries s dir offset s.fwdWeights fun dir offset old => (update.newWeight s dir offset old).getD old
  exact s.aligned _ (by simp)

theorem updateGeometry_weights : (update.updateGeometry s).weights dir = update.listedWeights s dir := by
  have same : oriented dir ((update.updateGeometry s).weights dir) = oriented dir (update.listedWeights s dir) := by
    apply ext_getElem?
    intro offset
    rw [getElem?_updateGeometry_weights, ← getElem?_mapIdx (f := fun offset old => (update.newWeight s dir offset old).getD old)]
    cases dir <;> simp only [oriented, listedWeights, Bool.false_eq_true, if_true, if_false, reverse_reverse]
  cases dir with
  | true => exact same
  | false => exact reverse_injective same

variable {update s} {dir offset}

theorem converts_source (converts : update.converts s = true) (inside : offset < s.size) {value : SpeedSource}
    (listed : update.source s dir offset = some value) (old : ℕ) :
    (convertToDuration update.numericCast value.speed (update.length s offset)).isSome = true ∧
      (convertToWeight update.numericCast update.weightMultiplier old value (update.length s offset)).isSome = true := by
  simp only [SpeedUpdate.converts, all_eq_true, mem_range] at converts
  have both := converts dir (by cases dir <;> simp) offset inside
  rw [listed] at both
  obtain ⟨duration, weight⟩ := Bool.and_eq_true_iff.1 both
  refine ⟨duration, ?_⟩
  unfold convertToWeight at weight ⊢
  split <;> simp_all

theorem map_getD {old : Option ℕ} {new : ℕ → Option ℕ} (converts : ∀ old, (new old).isSome = true) :
    (old.map fun old => (new old).getD old) = old.bind new := by
  cases old with
  | none => rfl
  | some old =>
    obtain ⟨value, converted⟩ := Option.isSome_iff_exists.1 (converts old)
    simp [converted]

/-- The weight, duration and data source of a directed segment, the segments counted in forward order. -/
def entry (s : SegmentData) (dir : Bool) (offset : ℕ) : List (Option ℕ) :=
  [s.weights dir, s.durations dir, s.datasources dir].map fun range => (oriented dir range)[offset]?

/-- What is stored beside the segments. -/
def spare (s : SegmentData) : List (Option ℕ) :=
  [s.fwdWeights, s.fwdDurations, s.fwdDatasources].map head? ++ [s.revWeights, s.revDurations, s.revDatasources].map getLast?

/-- What the table says of a directed segment. -/
def listedEntry (update : SpeedUpdate) (s : SegmentData) (dir : Bool) (offset : ℕ) : List (Option ℕ) :=
  match update.source s dir offset with
  | some value => [(oriented dir (s.weights dir))[offset]?.bind fun old =>
        convertToWeight update.numericCast update.weightMultiplier old value (update.length s offset),
      (oriented dir (s.durations dir))[offset]?.bind fun _ => convertToDuration update.numericCast value.speed (update.length s offset),
      (oriented dir (s.datasources dir))[offset]?.bind fun _ => some value.source]
  | none => entry s dir offset

theorem entry_updateGeometry (converts : update.converts s = true) (inside : offset < s.size) :
    entry (update.updateGeometry s) dir offset = listedEntry update s dir offset := by
  have weight := getElem?_updateGeometry_weights update s dir offset
  have duration : (oriented dir ((update.updateGeometry s).durations dir))[offset]? = _ :=
    getElem?_range_setEntries s dir offset s.fwdDurations
      (fun dir offset old => (update.newDuration s dir offset old).getD old) (s.aligned s.revDurations (by simp))
  have datasource : (oriented dir ((update.updateGeometry s).datasources dir))[offset]? = _ :=
    getElem?_range_setEntries s dir offset s.fwdDatasources (update.newDatasource s) (s.aligned s.revDatasources (by simp))
  unfold newWeight at weight
  unfold newDuration at duration
  unfold newDatasource at datasource
  simp only [entry, map_cons, weight, duration, datasource, listedEntry]
  cases listed : update.source s dir offset with
  | none => simp [SegmentData.durations, SegmentData.datasources]
  | some value =>
    have both := converts_source converts inside listed
    simp only [map_getD fun _ => (both 0).1, map_getD fun old => (both old).2, Option.map_eq_bind]
    rfl

theorem spare_updateGeometry : spare (update.updateGeometry s) = spare s := by
  have aligned := s.aligned
  simp [spare, updateGeometry, setEntries, aligned, SegmentData.size]

/-- `updateSegmentData` sets the entries of the listed directed segments and no others, and returns the directed geometries that have one. -/
theorem updateSegmentData_exact (update : SpeedUpdate) (n : ℕ) (segmentData : ℕ → SegmentData) :
    match update.updateSegmentData n segmentData with
    | none => ∃ id < n, update.converts (segmentData id) = false
    | some (after, updated) => (∀ id ≥ n, after id = segmentData id) ∧
      (∀ id < n, (after id).nodes = (segmentData id).nodes ∧ spare (after id) = spare (segmentData id) ∧
        ∀ dir, ∀ offset < (segmentData id).size, entry (after id) dir offset = listedEntry update (segmentData id) dir offset) ∧
      ∀ id dir, ⟨id, dir⟩ ∈ updated ↔ id < n ∧ ∃ offset < (segmentData id).size, (update.source (segmentData id) dir offset).isSome := by
  by_cases converts : ∀ id < n, update.converts (segmentData id) = true
  · rw [updateSegmentData, if_pos (by simpa using converts)]
    refine ⟨fun id outside => if_neg (by omega), fun id inside => ?_, fun id dir => ?_⟩
    · simp only [if_pos inside]
      exact ⟨rfl, spare_updateGeometry, fun dir offset => entry_updateGeometry (converts id inside)⟩
    · cases dir <;> simp [wasUpdated]
  · rw [updateSegmentData, if_neg (by simpa using converts)]
    simpa using converts

end SpeedUpdate

theorem oneSegment_two : 2 ≤ [0, 1].length := Nat.le_refl 2

theorem oneSegment_aligned (weight : ℕ) : ∀ l ∈ [[0, weight], [weight, 0], [0, 10], [10, 0], [0, 0], [0, 0]], l.length = [0, 1].length := by
  simp

/-- A geometry of one segment that lasts a second. -/
def oneSegment (weight : ℕ) : SegmentData where
  nodes := [0, 1]
  fwdWeights := [0, weight]
  revWeights := [weight, 0]
  fwdDurations := [0, 10]
  revDurations := [10, 0]
  fwdDatasources := [0, 0]
  revDatasources := [0, 0]
  two := oneSegment_two
  aligned := oneSegment_aligned weight

end Osrm.Updater
