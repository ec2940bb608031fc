import Osrm.Engine.PhantomNode
import Osrm.Util.Coordinate
import Mathlib.Data.List.Nodup
import Mathlib.Data.List.Flatten

/-!
# Hints

A hint holds the candidates that a coordinate was snapped to, so that a later request need not
snap it again. `IsValid` compares the coordinate and the checksum of the data, and refuses a hint
in which two candidates have the same forward segment or the same reverse segment.

This is not what the search heaps need: they take the enabled segments of both directions as
nodes of one graph. So hints that the server gave out are refused where several candidates have no
reverse segment (`hint_isValid_iff`), and hints are accepted that insert a node twice
(`nodup_inserts_iff`).
-/

namespace Osrm

open List PhantomNode

structure LocatedPhantom (V : Type*) extends PhantomNode V where
  location : Coordinate
  inputLocation : Coordinate
deriving DecidableEq, Repr

def specialSegmentId : ℕ := 2147483647

structure SegmentHint where
  phantom : LocatedPhantom ℕ
  dataChecksum : ℕ
deriving DecidableEq, Repr

/-- `SegmentHint::IsValid`, for the checksum of the facade. -/
def SegmentHint.isValid (hint : SegmentHint) (newInputCoordinates : Coordinate) (checkSum : ℕ) : Bool :=
  let isSameInputCoordinate := newInputCoordinates.lon = hint.phantom.inputLocation.lon &&
    newInputCoordinates.lat = hint.phantom.inputLocation.lat
  isSameInputCoordinate && hint.phantom.location.isValid && checkSum = hint.dataChecksum

namespace Hint

/-- The loop of `Hint::IsValid` over the segments, with the sets of those seen so far. -/
def noDuplicates (forwardSegments reverseSegments : List ℕ) : List SegmentHint → Bool
  | [] => true
  | segHint :: rest =>
    if segHint.phantom.forwardSegmentId.id ∈ forwardSegments then false
    else if segHint.phantom.reverseSegmentId.id ∈ reverseSegments then false
    else noDuplicates (segHint.phantom.forwardSegmentId.id :: forwardSegments)
      (segHint.phantom.reverseSegmentId.id :: reverseSegments) rest

def isValid (segmentHints : List SegmentHint) (newInputCoordinates : Coordinate) (checkSum : ℕ) : Bool :=
  if segmentHints.all (·.isValid newInputCoordinates checkSum) then noDuplicates [] [] segmentHints else false

def ofCandidates (candidates : List (LocatedPhantom ℕ)) (checkSum : ℕ) : List SegmentHint := candidates.map (⟨·, checkSum⟩)

def segments (segmentHints : List SegmentHint) (dir : Bool) : List ℕ :=
  segmentHints.map fun segHint => (segHint.phantom.segmentId dir).id

theorem noDuplicates_iff (forward reverse : List ℕ) (hints : List SegmentHint) (freshForward : forward.Nodup) (freshReverse : reverse.Nodup) :
    noDuplicates forward reverse hints = true ↔
      (forward ++ segments hints true).Nodup ∧ (reverse ++ segments hints false).Nodup := by
  induction hints generalizing forward reverse with
  | nil => simp [noDuplicates, segments, freshForward, freshReverse]
  | cons hint hints ih =>
    have forwardCons : (forward ++ segments (hint :: hints) true).Nodup ↔
        (hint.phantom.forwardSegmentId.id :: forward ++ segments hints true).Nodup := perm_middle.nodup_iff
    have reverseCons : (reverse ++ segments (hint :: hints) false).Nodup ↔
        (hint.phantom.reverseSegmentId.id :: reverse ++ segments hints false).Nodup := perm_middle.nodup_iff
    rw [noDuplicates, forwardCons, reverseCons]
    split
    · rename_i seen
      refine ⟨nofun, fun nodup => ?_⟩
      exact absurd (mem_append_left _ seen) (nodup_cons.1 nodup.1).1
    · rename_i newForward
      split
      · rename_i seen
        refine ⟨nofun, fun nodup => ?_⟩
        exact absurd (mem_append_left _ seen) (nodup_cons.1 nodup.2).1
      · rename_i newReverse
        exact ih _ _ (nodup_cons.2 ⟨newForward, freshForward⟩) (nodup_cons.2 ⟨newReverse, freshReverse⟩)

/-- What `IsValid` asks of a hint. -/
theorem isValid_iff (hints : List SegmentHint) (coordinate : Coordinate) (checkSum : ℕ) :
    isValid hints coordinate checkSum = true ↔
      (∀ hint ∈ hints, hint.isValid coordinate checkSum = true) ∧ ∀ dir, (segments hints dir).Nodup := by
  rw [isValid, Bool.forall_bool, ← all_eq_true]
  split
  · rename_i all
    rw [noDuplicates_iff [] [] hints nodup_nil nodup_nil]
    exact ⟨fun nodup => ⟨all, nodup.2, nodup.1⟩, fun valid => ⟨valid.2.2, valid.2.1⟩⟩
  · rename_i some
    exact ⟨nofun, fun valid => absurd valid.1 some⟩

/-! ### Hints of the server -/

/-- The segments of a phantom, in both directions. -/
def directedSegments (p : PhantomNode ℕ) : List ℕ :=
  ([true, false].map fun dir => (p.segmentId dir).id).filter (· ≠ specialSegmentId)

/-- Candidates that one coordinate was snapped to. No two of them share a segment; a one-way road has none in its other
direction. -/
structure Snapped (coordinate : Coordinate) (candidates : List (LocatedPhantom ℕ)) : Prop where
  input : ∀ p ∈ candidates, p.inputLocation = coordinate
  distinct : (candidates.flatMap fun p => directedSegments p.toPhantomNode).Nodup

/-- The number of candidates that have no segment in a direction. -/
def oneWays (candidates : List (LocatedPhantom ℕ)) (dir : Bool) : ℕ :=
  candidates.countP fun p => (p.segmentId dir).id = specialSegmentId

/-- A list of keys has no duplicates if the keys other than `special` have none and at most one is special. -/
theorem nodup_map_iff {α : Type*} {key : α → ℕ} {special : ℕ} {l : List α}
    (distinct : ((l.filter fun a => key a ≠ special).map key).Nodup) :
    (l.map key).Nodup ↔ l.countP (fun a => key a = special) ≤ 1 := by
  rw [nodup_iff_count_le_one]
  have count_special : (l.map key).count special = l.countP fun a => key a = special := by
    rw [count_eq_countP, countP_map]
    exact countP_congr fun a _ => by simp
  constructor
  · intro nodup
    rw [← count_special]
    exact nodup special
  · intro one k
    by_cases same : k = special
    · rw [same, count_special]
      exact one
    · have others := nodup_iff_count_le_one.1 distinct k
      have equal : (l.map key).count k = ((l.filter fun a => key a ≠ special).map key).count k := by
        rw [count_eq_countP, count_eq_countP, countP_map, countP_map, countP_filter]
        apply countP_congr
        intro a _
        simp only [Function.comp, beq_iff_eq, Bool.and_eq_true, decide_eq_true_eq]
        exact ⟨fun equal => ⟨equal, equal ▸ same⟩, And.left⟩
      rw [equal]
      exact others

section Snapped

variable {coordinate : Coordinate} {candidates : List (LocatedPhantom ℕ)} (snapped : Snapped coordinate candidates)
  (checkSum : ℕ)

include snapped

/-- Each candidate at a valid location passes for itself. -/
theorem Snapped.valid_iff : (∀ hint ∈ ofCandidates candidates checkSum, hint.isValid coordinate checkSum = true) ↔
    ∀ p ∈ candidates, p.location.isValid = true := by
  rw [ofCandidates, forall_mem_map]
  refine forall₂_congr fun p hp => ?_
  simp [SegmentHint.isValid, snapped.input p hp]

/-- The segments of a direction are distinct where there are any. -/
theorem Snapped.nodup_enabled (dir : Bool) :
    ((candidates.filter fun p => (p.segmentId dir).id ≠ specialSegmentId).map fun p => (p.segmentId dir).id).Nodup := by
  have one : ∀ p ∈ candidates.filter fun p => (p.segmentId dir).id ≠ specialSegmentId,
      [(p.segmentId dir).id].Sublist (directedSegments p.toPhantomNode) := by
    intro p hp
    obtain ⟨_, some⟩ := mem_filter.1 hp
    apply singleton_sublist.2
    refine mem_filter.2 ⟨mem_map_of_mem ?_, some⟩
    cases dir <;> simp
  have sublist := (Sublist.flatMap_right _ one).trans
    (Sublist.flatMap filter_sublist fun p : LocatedPhantom ℕ => directedSegments p.toPhantomNode)
  rw [← map_eq_flatMap] at sublist
  exact sublist.nodup snapped.distinct

/-- The segments of a direction have no duplicates exactly if at most one candidate has none. -/
theorem Snapped.nodup_segments (dir : Bool) :
    (segments (ofCandidates candidates checkSum) dir).Nodup ↔ oneWays candidates dir ≤ 1 := by
  have keys : segments (ofCandidates candidates checkSum) dir = candidates.map fun p => (p.segmentId dir).id := by
    rw [segments, ofCandidates, map_map]
    exact map_congr_left fun p _ => Eq.refl (p.segmentId dir).id
  rw [keys]
  exact nodup_map_iff (snapped.nodup_enabled dir)

end Snapped

/-- **A hint of the server** is accepted back exactly if it was snapped to valid locations, at most one candidate has no
forward segment and at most one has no reverse segment. -/
theorem hint_isValid_iff {coordinate : Coordinate} {candidates : List (LocatedPhantom ℕ)} (snapped : Snapped coordinate candidates)
    (checkSum : ℕ) :
    isValid (ofCandidates candidates checkSum) coordinate checkSum = true ↔
      (∀ p ∈ candidates, p.location.isValid = true) ∧ oneWays candidates true ≤ 1 ∧ oneWays candidates false ≤ 1 := by
  rw [isValid_iff, snapped.valid_iff, Bool.forall_bool, snapped.nodup_segments, snapped.nodup_segments]
  exact and_congr_right fun _ => and_comm

/-- A phantom at the origin with the given segments. -/
def phantomOn (forward reverse : SegmentID ℕ) : LocatedPhantom ℕ where
  forwardSegmentId := forward
  reverseSegmentId := reverse
  forwardWeight := 0
  reverseWeight := 0
  forwardWeightOffset := 0
  reverseWeightOffset := 0
  forwardDuration := 0
  reverseDuration := 0
  forwardDurationOffset := 0
  reverseDurationOffset := 0
  validForwardSource := forward.enabled
  validForwardTarget := forward.enabled
  validReverseSource := reverse.enabled
  validReverseTarget := reverse.enabled
  location := ⟨0, 0⟩
  inputLocation := ⟨0, 0⟩

def noSegment : SegmentID ℕ := ⟨specialSegmentId, false⟩

/-- A road with both directions and a one-way road meet. -/
def junction : List (LocatedPhantom ℕ) := [phantomOn ⟨0, true⟩ ⟨1, true⟩, phantomOn ⟨2, true⟩ noSegment]

/-- Two one-way roads leave a junction. -/
def fork : List (LocatedPhantom ℕ) := [phantomOn ⟨0, true⟩ noSegment, phantomOn ⟨1, true⟩ noSegment]

theorem hint_isValid_iff_junction : isValid (ofCandidates junction 7) ⟨0, 0⟩ 7 = true :=
  (hint_isValid_iff ⟨by decide, by decide⟩ 7).2 (by decide)

theorem hint_isValid_fork : Snapped ⟨0, 0⟩ fork ∧ fork ≠ [] ∧ (∀ p ∈ fork, p.location.isValid = true) ∧
    isValid (ofCandidates fork 7) ⟨0, 0⟩ 7 = false := by
  exact ⟨⟨by decide, by decide⟩, by decide, by decide, by decide⟩

/-! ### Hints of a client -/

variable (valid : PhantomNode ℕ → Bool → Bool) {hints : List SegmentHint}

/-- The nodes that are inserted for phantoms, with those directions that are valid. For sources this is what
`insertSourceInForwardHeap` does, for targets `insertTargetInReverseHeap`. -/
def inserts (segmentHints : List SegmentHint) : List ℕ :=
  segmentHints.flatMap fun hint =>
    (if valid hint.phantom.toPhantomNode true then [hint.phantom.forwardSegmentId.id] else []) ++
      if valid hint.phantom.toPhantomNode false then [hint.phantom.reverseSegmentId.id] else []

def insertsOf (segmentHints : List SegmentHint) (dir : Bool) : List ℕ :=
  segmentHints.flatMap fun hint =>
    if valid hint.phantom.toPhantomNode dir then [(hint.phantom.segmentId dir).id] else []

theorem inserts_perm (hints : List SegmentHint) :
    (inserts valid hints).Perm (insertsOf valid hints true ++ insertsOf valid hints false) :=
  (flatMap_append_perm hints _ _).symm

theorem insertsOf_sublist (hints : List SegmentHint) (dir : Bool) :
    (insertsOf valid hints dir).Sublist (segments hints dir) := by
  rw [segments, map_eq_flatMap]
  apply Sublist.flatMap_right
  intro hint _
  split
  · exact Sublist.refl _
  · exact nil_sublist _

theorem mem_insertsOf {valid : PhantomNode ℕ → Bool → Bool} {hints : List SegmentHint} {dir : Bool} {node : ℕ} :
    node ∈ insertsOf valid hints dir ↔
      ∃ hint ∈ hints, valid hint.phantom.toPhantomNode dir = true ∧ (hint.phantom.segmentId dir).id = node := by
  rw [insertsOf, mem_flatMap]
  refine exists_congr fun hint => and_congr_right fun _ => ?_
  split
  · rename_i valid
    rw [mem_singleton]
    exact ⟨fun same => ⟨valid, same.symm⟩, fun found => found.2.symm⟩
  · rename_i invalid
    exact ⟨nofun, fun found => absurd found.1 invalid⟩

/-- No forward segment that is inserted is a reverse segment that is inserted. -/
def Apart (segmentHints : List SegmentHint) : Prop :=
  ∀ p ∈ segmentHints, ∀ q ∈ segmentHints, valid p.phantom.toPhantomNode true = true →
    valid q.phantom.toPhantomNode false = true → p.phantom.forwardSegmentId.id ≠ q.phantom.reverseSegmentId.id

instance (valid : PhantomNode ℕ → Bool → Bool) (segmentHints : List SegmentHint) : Decidable (Apart valid segmentHints) :=
  inferInstanceAs (Decidable (∀ p ∈ segmentHints, ∀ q ∈ segmentHints, _))

theorem nodup_inserts_iff (nodup : ∀ dir, (segments hints dir).Nodup) : (inserts valid hints).Nodup ↔ Apart valid hints := by
  rw [(inserts_perm valid hints).nodup_iff, nodup_append]
  constructor
  · intro all p hp q hq validP validQ same
    exact all.2.2 _ (mem_insertsOf.2 ⟨p, hp, validP, Eq.refl _⟩) _ (mem_insertsOf.2 ⟨q, hq, validQ, Eq.refl _⟩) same
  · intro apart
    refine ⟨(insertsOf_sublist valid hints true).nodup (nodup true), (insertsOf_sublist valid hints false).nodup (nodup false), ?_⟩
    intro a ha b hb
    obtain ⟨p, hp, validP, rfl⟩ := mem_insertsOf.1 ha
    obtain ⟨q, hq, validQ, rfl⟩ := mem_insertsOf.1 hb
    exact apart p hp q hq validP validQ

/-- **Inserting the phantoms of a valid hint** inserts no node twice exactly if no forward segment of it is also one of its
reverse segments, among those that are valid sources, and among those that are valid targets. -/
theorem isValid_inserts_iff {coordinate : Coordinate} {checkSum : ℕ}
    (accepted : isValid hints coordinate checkSum = true) :
    ((inserts isValidSource hints).Nodup ↔ Apart isValidSource hints) ∧
    ((inserts isValidTarget hints).Nodup ↔ Apart isValidTarget hints) := by
  have nodup := ((isValid_iff hints coordinate checkSum).1 accepted).2
  exact ⟨nodup_inserts_iff isValidSource nodup, nodup_inserts_iff isValidTarget nodup⟩

theorem isValid_inserts_iff_junction : (inserts isValidSource (ofCandidates junction 7)).Nodup := by
  have accepted : isValid (ofCandidates junction 7) ⟨0, 0⟩ 7 = true := by decide
  exact (isValid_inserts_iff accepted).1.2 (by decide)

/-- A hint whose phantom has the same node in both directions. -/
def twice : List SegmentHint := [⟨phantomOn ⟨5, true⟩ ⟨5, true⟩, 7⟩]

theorem inserts_twice : isValid twice ⟨0, 0⟩ 7 = true ∧ ¬ (inserts isValidSource twice).Nodup ∧
    ¬ (inserts isValidTarget twice).Nodup := by
  decide

end Hint

end Osrm
