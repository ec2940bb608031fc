import Osrm.Engine.AnnotatePath
import Osrm.Util.Typedefs

/-!
# Collapsing legs

`CollapseInternalRouteResult` joins the legs between two waypoints to one. The path of a leg lacks
the part of its first segment before the source; where a leg is appended to another one this
part is added back, so that the path is complete at the join. `assembleLeg` adds up a leg, and
takes the part before the source off if the path is empty. The sums are 32-bit integers: those of
a path wrap, and those of a leg are formed as doubles and converted back (`IntConversion`).

The total of a route changes with each join by a `gap`, which depends on the two phantoms at the
ends of the legs only (`total_collapse`). If an empty leg is continued by one with a path, the
part before the first source is not taken off any more: `assembleLeg` sees a path, and the path
has the whole segment.
-/

namespace Osrm

open List

variable {V : Type*}

structure PhantomEndpoints (V : Type*) where
  sourcePhantom : PhantomNode V
  targetPhantom : PhantomNode V
  deriving DecidableEq, Repr

/-- The entries of an `InternalRouteResult` for one leg. -/
structure Leg (V : Type*) where
  pathSegments : List (PathData V)
  endpoints : PhantomEndpoints V
  sourceTraversedInReverse : Bool
  targetTraversedInReverse : Bool
  deriving DecidableEq, Repr

structure InternalRouteResult (V : Type*) where
  legs : List (Leg V)
  shortestPathWeight : ℤ
  deriving DecidableEq, Repr

/-- The part of a phantom's segment before it, in the direction of travel: `forward_weight` or `reverse_weight`. -/
def PhantomNode.partWeight (p : PhantomNode V) (reverse : Bool) : ℤ := if reverse then p.reverseWeight else p.forwardWeight

def PhantomNode.partDuration (p : PhantomNode V) (reverse : Bool) : ℤ := if reverse then p.reverseDuration else p.forwardDuration

/-- Add the part of the source's segment before the source. -/
def PathData.addPart (p : PathData V) (source : PhantomNode V) (reverse : Bool) : PathData V :=
  { p with
    weightUntilTurn := add32 p.weightUntilTurn (source.partWeight reverse)
    durationUntilTurn := add32 p.durationUntilTurn (source.partDuration reverse) }

namespace Leg

/-- The path of a leg that is appended to another one, with the part before the source added back. -/
def completedPath (leg : Leg V) : List (PathData V) :=
  match leg.pathSegments with
  | [] => []
  | p :: rest => p.addPart leg.endpoints.sourcePhantom leg.sourceTraversedInReverse :: rest

def append (last leg : Leg V) : Leg V where
  pathSegments := last.pathSegments ++ leg.completedPath
  endpoints := ⟨last.endpoints.sourcePhantom, leg.endpoints.targetPhantom⟩
  sourceTraversedInReverse := last.sourceTraversedInReverse
  targetTraversedInReverse := leg.targetTraversedInReverse

end Leg

/-- One iteration of `CollapseInternalRouteResult`. The first leg is one of a waypoint, so that there is a last leg. -/
def collapseStep (collapsed : List (Leg V)) (leg : Leg V × Bool) : List (Leg V) :=
  if leg.2 then collapsed ++ [leg.1]
  else
    match collapsed.getLast? with
    | none => collapsed
    | some last => collapsed.dropLast ++ [last.append leg.1]

def collapseInternalRouteResult (leggyResult : InternalRouteResult V) (isWaypoint : List Bool) : InternalRouteResult V :=
  if leggyResult.legs.length = 1 then leggyResult
  else ⟨(leggyResult.legs.zip isWaypoint).foldl collapseStep [], leggyResult.shortestPathWeight⟩

/-! ### Totals -/

/-- The conversion of a double that is a whole number to `int`. Outside the range of `int` it is not defined. -/
structure IntConversion where
  toInt : ℤ → ℤ
  toInt_eq : ∀ k, FitsInt k → toInt k = k

/-- What is added up along a leg. `rectify` is applied to the value of an empty leg. -/
structure Measure (V : Type*) where
  ofPath : PathData V → ℤ
  part : PhantomNode V → Bool → ℤ
  rectify : ℤ → ℤ
  convert : IntConversion
  adds : ∀ p source reverse, ofPath (p.addPart source reverse) = add32 (ofPath p) (part source reverse)

def Measure.weight (convert : IntConversion) : Measure V :=
  ⟨(·.weightUntilTurn), PhantomNode.partWeight, id, convert, fun _ _ _ => rfl⟩

/-- The durations of a leg: "use rectified linear unit function to avoid negative duration values". -/
def Measure.duration (convert : IntConversion) : Measure V :=
  ⟨(·.durationUntilTurn), PhantomNode.partDuration, max 0, convert, fun _ _ _ => rfl⟩

namespace Leg

variable (m : Measure V) (leg : Leg V)

/-- `std::accumulate` with an `int` and a function on doubles. -/
def pathTotal : ℤ := leg.pathSegments.foldl (fun sum p => m.convert.toInt (sum + m.ofPath p)) 0

/-- The part before the source in the direction in which the source is traversed. -/
def sourcePart : ℤ := m.part leg.endpoints.sourcePhantom leg.sourceTraversedInReverse

def targetPart : ℤ := m.part leg.endpoints.targetPhantom leg.targetTraversedInReverse

/-- `assembleLeg`: the weight or the duration. An empty leg looks at its source in the direction of its target. -/
def assemble : ℤ :=
  let total := m.convert.toInt (leg.pathTotal m + leg.targetPart m)
  if leg.pathSegments.isEmpty then
    m.rectify (m.convert.toInt (total - m.part leg.endpoints.sourcePhantom leg.targetTraversedInReverse))
  else total

/-- The value of an empty leg: the way on the segment from the source to the target. -/
def emptyValue : ℤ := m.rectify (leg.targetPart m - m.part leg.endpoints.sourcePhantom leg.targetTraversedInReverse)

/-- The absolute values of all that is added up along a leg. -/
def bulk : ℤ :=
  (leg.pathSegments.map fun p => |m.ofPath p|).sum +
    (|m.part leg.endpoints.sourcePhantom false| + |m.part leg.endpoints.sourcePhantom true| + |leg.targetPart m|)

end Leg

def Measure.total (m : Measure V) (legs : List (Leg V)) : ℤ := (legs.map (·.assemble m)).sum

/-! ### One join -/

/-- What the legs joined so far have in common with the next one: the first source, whether all paths are empty, and
the direction at the last target. -/
structure Joined (V : Type*) where
  source : PhantomNode V
  empty : Bool
  reverse : Bool

def Leg.joined (leg : Leg V) : Joined V := ⟨leg.endpoints.sourcePhantom, leg.pathSegments.isEmpty, leg.targetTraversedInReverse⟩

def Joined.append (joined : Joined V) (leg : Leg V) : Joined V :=
  ⟨joined.source, joined.empty && leg.pathSegments.isEmpty, leg.targetTraversedInReverse⟩

/-- What the total gains where a leg is appended. -/
def Measure.gap (m : Measure V) (joined : Joined V) (leg : Leg V) : ℤ :=
  let before := m.rectify (leg.sourcePart m - m.part joined.source joined.reverse)
  if joined.empty then
    if leg.pathSegments.isEmpty then
      m.rectify (leg.targetPart m - m.part joined.source leg.targetTraversedInReverse) - before - leg.emptyValue m
    else leg.sourcePart m - before
  else if leg.pathSegments.isEmpty then leg.targetPart m - leg.sourcePart m - leg.emptyValue m
  else 0

/-- The next leg starts at the phantom at which the last one ends, in the same direction. -/
structure Leg.Meets (last leg : Leg V) : Prop where
  phantom : leg.endpoints.sourcePhantom = last.endpoints.targetPhantom
  direction : leg.sourceTraversedInReverse = last.targetTraversedInReverse

namespace Leg

variable {m : Measure V} {last leg : Leg V}

theorem completedPath_isEmpty (leg : Leg V) : leg.completedPath.isEmpty = leg.pathSegments.isEmpty := by
  unfold completedPath
  split <;> simp_all

theorem joined_append (last leg : Leg V) : (last.append leg).joined = last.joined.append leg := by
  have empty : (last.pathSegments ++ leg.completedPath).isEmpty = (last.pathSegments.isEmpty && leg.pathSegments.isEmpty) := by
    rw [← completedPath_isEmpty leg]
    cases last.pathSegments <;> rfl
  exact congrArg (Joined.mk last.endpoints.sourcePhantom · leg.targetTraversedInReverse) empty

theorem abs_part_le (source : PhantomNode V) (reverse : Bool) :
    |m.part source reverse| ≤ |m.part source false| + |m.part source true| := by
  have forward := abs_nonneg (m.part source false)
  have backward := abs_nonneg (m.part source true)
  cases reverse <;> omega

theorem bulkPath_nonneg (path : List (PathData V)) : 0 ≤ (path.map fun p => |m.ofPath p|).sum := by
  apply sum_nonneg
  rintro _ mem
  obtain ⟨p, -, rfl⟩ := mem_map.1 mem
  exact abs_nonneg _

theorem bulk_nonneg (leg : Leg V) : 0 ≤ leg.bulk m := by
  have path := bulkPath_nonneg (m := m) leg.pathSegments
  have parts := abs_part_le (m := m) leg.endpoints.sourcePhantom false
  have source := abs_nonneg (m.part leg.endpoints.sourcePhantom false)
  have target := abs_nonneg (leg.targetPart m)
  unfold bulk
  omega

/-- The accumulated sum is exact as long as the absolute values stay in range. -/
theorem foldl_toInt (path : List (PathData V)) (sum : ℤ) (small : |sum| + (path.map fun p => |m.ofPath p|).sum < 2 ^ 31) :
    path.foldl (fun sum p => m.convert.toInt (sum + m.ofPath p)) sum = sum + (path.map m.ofPath).sum := by
  induction path generalizing sum with
  | nil => exact (add_zero sum).symm
  | cons p rest ih =>
    rw [map_cons, sum_cons] at small
    have later := bulkPath_nonneg (m := m) rest
    have near := abs_add_le sum (m.ofPath p)
    have fits : FitsInt (sum + m.ofPath p) := .of_abs (by omega)
    rw [foldl_cons, m.convert.toInt_eq _ fits, ih _ (by omega), map_cons, sum_cons, add_assoc]

theorem pathTotal_eq (small : leg.bulk m < 2 ^ 31) : leg.pathTotal m = (leg.pathSegments.map m.ofPath).sum := by
  have source := abs_part_le (m := m) leg.endpoints.sourcePhantom false
  have target := abs_nonneg (leg.targetPart m)
  have part := abs_nonneg (m.part leg.endpoints.sourcePhantom false)
  rw [pathTotal, foldl_toInt, zero_add]
  rw [bulk] at small
  rw [abs_zero]
  omega

theorem abs_sum_le (path : List (PathData V)) : |(path.map m.ofPath).sum| ≤ (path.map fun p => |m.ofPath p|).sum := by
  induction path with
  | nil => exact le_of_eq abs_zero
  | cons p rest ih =>
    rw [map_cons, sum_cons, map_cons, sum_cons]
    exact (abs_add_le _ _).trans (by omega)

theorem abs_sourcePart_le (leg : Leg V) :
    |leg.sourcePart m| ≤ |m.part leg.endpoints.sourcePhantom false| + |m.part leg.endpoints.sourcePhantom true| :=
  abs_part_le _ _

theorem ofPath_addPart {p : PathData V} {rest : List (PathData V)} (path : leg.pathSegments = p :: rest) (small : leg.bulk m < 2 ^ 31) :
    m.ofPath (p.addPart leg.endpoints.sourcePhantom leg.sourceTraversedInReverse) = m.ofPath p + leg.sourcePart m := by
  have later := bulkPath_nonneg (m := m) rest
  have source := abs_sourcePart_le (m := m) leg
  have target := abs_nonneg (leg.targetPart m)
  have near := abs_add_le (m.ofPath p) (leg.sourcePart m)
  rw [bulk, path, map_cons, sum_cons] at small
  have fits : FitsInt (m.ofPath p + leg.sourcePart m) := .of_abs (by omega)
  exact (m.adds _ _ _).trans fits.wrap

/-- The path of an appended leg is complete. -/
theorem sum_append_path (last : Leg V) (small : leg.bulk m < 2 ^ 31) : ((last.append leg).pathSegments.map m.ofPath).sum =
    (last.pathSegments.map m.ofPath).sum + (leg.pathSegments.map m.ofPath).sum +
      if leg.pathSegments.isEmpty then 0 else leg.sourcePart m := by
  unfold append completedPath
  cases path : leg.pathSegments with
  | nil => simp
  | cons p rest =>
    simp only [map_append, map_cons, sum_append, sum_cons, ofPath_addPart path small, isEmpty_cons, Bool.false_eq_true, if_false]
    omega

theorem bulk_append_le (last : Leg V) (small : leg.bulk m < 2 ^ 31) : (last.append leg).bulk m ≤ last.bulk m + leg.bulk m := by
  have source := abs_sourcePart_le (m := m) leg
  have part := abs_nonneg (leg.sourcePart m)
  have target := abs_nonneg (last.targetPart m)
  have completed : (leg.completedPath.map fun p => |m.ofPath p|).sum ≤ (leg.pathSegments.map fun p => |m.ofPath p|).sum +
      |leg.sourcePart m| := by
    unfold completedPath
    cases path : leg.pathSegments with
    | nil => exact Int.add_le_add_left part 0
    | cons p rest =>
      have near := abs_add_le (m.ofPath p) (leg.sourcePart m)
      simp only [map_cons, sum_cons, ofPath_addPart path small]
      omega
  have path : ((last.append leg).pathSegments.map fun p => |m.ofPath p|).sum =
      (last.pathSegments.map fun p => |m.ofPath p|).sum + (leg.completedPath.map fun p => |m.ofPath p|).sum := by
    rw [append, map_append, sum_append]
  have ends : (last.append leg).targetPart m = leg.targetPart m := rfl
  have starts : (last.append leg).endpoints.sourcePhantom = last.endpoints.sourcePhantom := rfl
  rw [bulk, path, ends, starts, bulk, bulk]
  omega

theorem sourcePart_of_meets (meets : last.Meets leg) : leg.sourcePart m = last.targetPart m := by
  rw [sourcePart, targetPart, meets.phantom, meets.direction]

theorem assemble_of_empty (empty : leg.pathSegments.isEmpty = true) (small : leg.bulk m < 2 ^ 31) :
    leg.assemble m = leg.emptyValue m := by
  have source := abs_part_le (m := m) leg.endpoints.sourcePhantom leg.targetTraversedInReverse
  have nonneg := abs_nonneg (m.part leg.endpoints.sourcePhantom leg.targetTraversedInReverse)
  have none := pathTotal_eq small
  rw [isEmpty_iff.1 empty, map_nil, sum_nil] at none
  rw [bulk, isEmpty_iff.1 empty, map_nil, sum_nil] at small
  have target : FitsInt (leg.targetPart m) := .of_abs (by omega)
  have near := abs_sub (leg.targetPart m) (m.part leg.endpoints.sourcePhantom leg.targetTraversedInReverse)
  have between : FitsInt (leg.targetPart m - m.part leg.endpoints.sourcePhantom leg.targetTraversedInReverse) := .of_abs (by omega)
  rw [assemble, if_pos empty, none, zero_add, m.convert.toInt_eq _ target, m.convert.toInt_eq _ between, emptyValue]

theorem assemble_of_path (path : leg.pathSegments.isEmpty = false) (small : leg.bulk m < 2 ^ 31) :
    leg.assemble m = (leg.pathSegments.map m.ofPath).sum + leg.targetPart m := by
  have sum := abs_sum_le (m := m) leg.pathSegments
  have total := pathTotal_eq small
  have source := abs_sourcePart_le (m := m) leg
  have nonneg := abs_nonneg (leg.sourcePart m)
  rw [bulk] at small
  have near := abs_add_le (leg.pathSegments.map m.ofPath).sum (leg.targetPart m)
  have fits : FitsInt ((leg.pathSegments.map m.ofPath).sum + leg.targetPart m) := .of_abs (by omega)
  rw [assemble, path, total, m.convert.toInt_eq _ fits]
  rfl

/-- **One join** changes the total by the gap. -/
theorem assemble_append (meets : last.Meets leg) (small : last.bulk m + leg.bulk m < 2 ^ 31) :
    (last.append leg).assemble m = last.assemble m + leg.assemble m + m.gap last.joined leg := by
  have before := bulk_nonneg (m := m) last
  have after := bulk_nonneg (m := m) leg
  have smallLast : last.bulk m < 2 ^ 31 := by omega
  have smallLeg : leg.bulk m < 2 ^ 31 := by omega
  have smallBoth := (bulk_append_le last smallLeg).trans_lt small
  have same := sourcePart_of_meets (m := m) meets
  have path := sum_append_path last smallLeg
  have target : (last.append leg).targetPart m = leg.targetPart m := rfl
  have empty : (last.append leg).pathSegments.isEmpty = (last.pathSegments.isEmpty && leg.pathSegments.isEmpty) :=
    congrArg Joined.empty (joined_append last leg)
  cases lastEmpty : last.pathSegments.isEmpty with
  | true =>
    have before : last.emptyValue m = m.rectify (leg.sourcePart m - m.part last.joined.source last.joined.reverse) := by
      rw [emptyValue, same]
      rfl
    rw [lastEmpty] at empty
    rw [Measure.gap, show last.joined.empty = true from lastEmpty, if_pos rfl, assemble_of_empty lastEmpty smallLast]
    cases legEmpty : leg.pathSegments.isEmpty with
    | true =>
      rw [assemble_of_empty (empty.trans legEmpty) smallBoth, assemble_of_empty legEmpty smallLeg, if_pos rfl]
      show m.rectify (leg.targetPart m - m.part last.joined.source leg.targetTraversedInReverse) = _
      omega
    | false =>
      rw [legEmpty, isEmpty_iff.1 lastEmpty, map_nil, sum_nil] at path
      rw [assemble_of_path (empty.trans legEmpty) smallBoth, assemble_of_path legEmpty smallLeg, path]
      simp only [Bool.false_eq_true, if_false]
      omega
  | false =>
    rw [lastEmpty] at empty
    rw [assemble_of_path empty smallBoth, assemble_of_path lastEmpty smallLast, path, Measure.gap,
      show last.joined.empty = false from lastEmpty]
    cases legEmpty : leg.pathSegments.isEmpty with
    | true =>
      rw [assemble_of_empty legEmpty smallLeg, isEmpty_iff.1 legEmpty, map_nil, sum_nil]
      simp only [Bool.false_eq_true, if_false, if_true]
      omega
    | false =>
      rw [assemble_of_path legEmpty smallLeg]
      simp only [Bool.false_eq_true, if_false]
      omega

end Leg

/-! ### The whole route -/

variable (m : Measure V) {result : InternalRouteResult V} {isWaypoint : List Bool} (points : List ℕ)

/-- The legs of a route meet, where the last leg before them is `last`. -/
def MeetFrom : Leg V → List (Leg V) → Prop
  | _, [] => True
  | last, leg :: rest => last.Meets leg ∧ MeetFrom leg rest

/-- Consecutive legs meet in the same phantom, traversed in the same direction. -/
def Meet : List (Leg V) → Prop
  | [] => True
  | leg :: rest => MeetFrom leg rest

/-- The gaps of all joins after the legs joined so far. -/
def Measure.gapsFrom (m : Measure V) (joined : Joined V) : List (Leg V × Bool) → ℤ
  | [] => 0
  | (leg, true) :: rest => m.gapsFrom leg.joined rest
  | (leg, false) :: rest => m.gap joined leg + m.gapsFrom (joined.append leg) rest

def Measure.gaps (legs : List (Leg V)) (isWaypoint : List Bool) : ℤ :=
  match legs with
  | [] => 0
  | leg :: rest => m.gapsFrom leg.joined (rest.zip isWaypoint.tail)

/-- In each group of joined legs the absolute values add up to less than `2^31`, where those of the group so far add up to `sum`. -/
def Measure.FitsFrom (m : Measure V) (sum : ℤ) : List (Leg V × Bool) → Prop
  | [] => sum < 2 ^ 31
  | (leg, true) :: rest => sum < 2 ^ 31 ∧ m.FitsFrom (leg.bulk m) rest
  | (leg, false) :: rest => m.FitsFrom (sum + leg.bulk m) rest

/-- Along each leg of the collapsed route the absolute values of the segments and of the parts at the ends of its legs add up to
less than `2^31`. -/
def Measure.Fits (legs : List (Leg V)) (isWaypoint : List Bool) : Prop :=
  match legs with
  | [] => True
  | leg :: rest => m.FitsFrom (leg.bulk m) (rest.zip isWaypoint.tail)

variable {m} in
theorem Measure.FitsFrom.mono {sum sum' : ℤ} {rest : List (Leg V × Bool)} (fits : m.FitsFrom sum rest) (le : sum' ≤ sum) :
    m.FitsFrom sum' rest := by
  induction rest generalizing sum sum' with
  | nil => exact le.trans_lt fits
  | cons entry rest ih =>
    obtain ⟨leg, waypoint⟩ := entry
    cases waypoint with
    | true => exact ⟨le.trans_lt fits.1, fits.2⟩
    | false => exact ih fits (Int.add_le_add_right le _)

variable {m} in
theorem Measure.FitsFrom.lt {sum : ℤ} {rest : List (Leg V × Bool)} (fits : m.FitsFrom sum rest) : sum < 2 ^ 31 := by
  induction rest generalizing sum with
  | nil => exact fits
  | cons entry rest ih =>
    obtain ⟨leg, waypoint⟩ := entry
    cases waypoint with
    | true => exact fits.1
    | false =>
      have nonneg := Leg.bulk_nonneg (m := m) leg
      have small := ih fits
      omega

theorem Measure.total_append (legs legs' : List (Leg V)) : m.total (legs ++ legs') = m.total legs + m.total legs' := by
  rw [Measure.total, map_append, sum_append]
  rfl

@[simp] theorem Measure.total_cons (leg : Leg V) (legs : List (Leg V)) :
    m.total (leg :: legs) = leg.assemble m + m.total legs := by
  rfl

theorem collapseStep_join (front : List (Leg V)) (last leg : Leg V) :
    collapseStep (front ++ [last]) (leg, false) = front ++ [last.append leg] := by
  simp [collapseStep]

/-- Only the end of a leg decides how it goes on. -/
theorem MeetFrom.append {last leg : Leg V} {rest : List (Leg V)} (meet : MeetFrom leg rest) : MeetFrom (last.append leg) rest := by
  cases rest with
  | nil => exact trivial
  | cons next rest => exact ⟨⟨meet.1.phantom, meet.1.direction⟩, meet.2⟩

/-- The loop after some legs: the total gains the gaps. -/
theorem total_foldl (rest : List (Leg V × Bool)) (front : List (Leg V)) (last : Leg V)
    (meet : MeetFrom last (rest.map (·.1))) (fits : m.FitsFrom (last.bulk m) rest) :
    m.total (rest.foldl collapseStep (front ++ [last])) =
      m.total front + last.assemble m + m.total (rest.map (·.1)) + m.gapsFrom last.joined rest := by
  induction rest generalizing front last with
  | nil =>
    simp [Measure.gapsFrom, Measure.total]
  | cons entry rest ih =>
    obtain ⟨leg, waypoint⟩ := entry
    have meets : last.Meets leg := meet.1
    have later : MeetFrom leg (rest.map (·.1)) := meet.2
    rw [foldl_cons]
    show _ = m.total front + last.assemble m + (leg.assemble m + m.total (rest.map (·.1))) + _
    cases waypoint with
    | true =>
      have start := ih (front ++ [last]) leg later fits.2
      rw [m.total_append, m.total_cons] at start
      show m.total (rest.foldl collapseStep (front ++ [last] ++ [leg])) = _ + m.gapsFrom leg.joined rest
      rw [start]
      simp only [Measure.total, map_nil, sum_nil]
      omega
    | false =>
      have fits : m.FitsFrom (last.bulk m + leg.bulk m) rest := fits
      have small := fits.lt
      have nonneg := Leg.bulk_nonneg (m := m) last
      have smallLeg : leg.bulk m < 2 ^ 31 := by omega
      have joined := Leg.bulk_append_le last smallLeg
      rw [collapseStep_join, ih front (last.append leg) later.append (fits.mono joined), Leg.assemble_append meets small,
        Leg.joined_append]
      show _ = _ + (m.gap last.joined leg + m.gapsFrom _ rest)
      omega

/-- **Collapsing a route** changes its total by the gaps of the joins. -/
theorem total_collapse (meet : Meet result.legs) (fits : m.Fits result.legs isWaypoint)
    (length : isWaypoint.length = result.legs.length + 1) (first : isWaypoint.head? = some true) :
    m.total (collapseInternalRouteResult result isWaypoint).legs = m.total result.legs + m.gaps result.legs isWaypoint := by
  obtain ⟨legs, weight⟩ := result
  cases legs with
  | nil => simp [collapseInternalRouteResult, Measure.gaps]
  | cons leg rest =>
    cases isWaypoint with
    | nil => cases first
    | cons waypoint isWaypoint =>
      cases Option.some.inj first
      have short : (rest.zip isWaypoint).map (·.1) = rest := map_fst_zip (by simp at length; omega)
      have loop := total_foldl m (rest.zip isWaypoint) [] leg (by rw [short]; exact meet) fits
      rw [short] at loop
      unfold collapseInternalRouteResult
      split_ifs with single
      · have none := length_eq_zero_iff.1 (Nat.succ.inj single)
        rw [none]
        simp [Measure.gaps, Measure.gapsFrom]
      · show m.total ((rest.zip isWaypoint).foldl collapseStep ([] ++ [leg])) = _
        rw [loop, m.total_cons]
        show 0 + _ + _ + _ = _ + m.gapsFrom leg.joined (rest.zip isWaypoint)
        omega

/-! ### The legs of a collapsed route -/

def Leg.join : List (Leg V) → Option (Leg V)
  | [] => none
  | leg :: rest => some (rest.foldl Leg.append leg)

/-- The legs between two waypoints as one. -/
def joinBetween (legs : List (Leg V)) (span : ℕ × ℕ) : Option (Leg V) := Leg.join ((legs.take span.2).drop span.1)

/-- Each of the points with the next one, and the last one with `q`. -/
def spans : List ℕ → ℕ → List (ℕ × ℕ)
  | [], _ => []
  | [p], q => [(p, q)]
  | p :: p' :: rest, q => (p, p') :: spans (p' :: rest) q

theorem spans_snoc (p q : ℕ) : spans (points ++ [p]) q = spans points p ++ [(p, q)] := by
  induction points with
  | nil => rfl
  | cons p' points ih =>
    cases points with
    | nil => rfl
    | cons p'' points =>
      simp only [cons_append, spans] at ih ⊢
      rw [ih]

theorem zip_tail_eq_spans (q : ℕ) : (points ++ [q]).zip (points ++ [q]).tail = spans points q := by
  induction points with
  | nil => rfl
  | cons p points ih =>
    cases points with
    | nil => rfl
    | cons p' points =>
      simp only [cons_append, tail_cons, zip_cons_cons, spans] at ih ⊢
      rw [ih]

variable {isWaypoint : List Bool} {legs : List (Leg V)} {leg : Leg V}

theorem joinBetween_one {q : ℕ} (found : legs[q]? = some leg) :
    joinBetween legs (q, q + 1) = some leg := by
  have inside := (List.getElem?_eq_some_iff.1 found).1
  have last : (legs.take (q + 1)).drop q = [leg] := by
    rw [take_add_one, found, drop_append_of_le_length (by simp; omega), drop_take_self]
    rfl
  rw [joinBetween, last]
  rfl

theorem joinBetween_succ {p q : ℕ} (found : legs[q]? = some leg) (before : p < q) :
    joinBetween legs (p, q + 1) = (joinBetween legs (p, q)).map (·.append leg) := by
  have inside := (List.getElem?_eq_some_iff.1 found).1
  have split : (legs.take (q + 1)).drop p = (legs.take q).drop p ++ [leg] := by
    rw [take_add_one, found, drop_append_of_le_length (by simp; omega)]
    rfl
  have some : 0 < ((legs.take q).drop p).length := by
    simp
    omega
  obtain ⟨first, rest, front⟩ := exists_cons_of_length_pos some
  rw [joinBetween, joinBetween, split, front]
  simp [Leg.join]

def waypointsBefore (isWaypoint : List Bool) (q : ℕ) : List ℕ := (range q).filter fun p => isWaypoint.getD p false

/-- The loop after `q` legs: each waypoint so far starts a leg that goes on to the next one. -/
theorem legs_foldl (legs : List (Leg V)) (length : legs.length < isWaypoint.length)
    (first : isWaypoint.head? = some true) (q : ℕ) (inside : q ≤ legs.length) :
    (((legs.zip isWaypoint).take q).foldl collapseStep []).map some =
      (spans (waypointsBefore isWaypoint q) q).map (joinBetween legs) := by
  induction q with
  | zero => rfl
  | succ q ih =>
    obtain ⟨leg, found⟩ : ∃ leg, legs[q]? = some leg := ⟨_, getElem?_eq_getElem (by omega)⟩
    obtain ⟨flag, marked⟩ : ∃ flag, isWaypoint[q]? = some flag := ⟨_, getElem?_eq_getElem (by omega)⟩
    have entry : (legs.zip isWaypoint)[q]? = some (leg, flag) := getElem?_zip_eq_some.2 ⟨found, marked⟩
    have before : waypointsBefore isWaypoint (q + 1) = waypointsBefore isWaypoint q ++ if flag then [q] else [] := by
      rw [waypointsBefore, range_succ, filter_append, waypointsBefore]
      simp only [filter_cons, getD_eq_getElem?_getD, marked, Option.getD_some, filter_nil]
    specialize ih (by omega)
    rw [take_add_one, entry, Option.toList_some, foldl_append, foldl_cons, foldl_nil, before]
    cases flag with
    | true =>
      rw [if_pos rfl, spans_snoc, map_append, ← ih, map_singleton, joinBetween_one found]
      exact map_append
    | false =>
      have zero : 0 ∈ waypointsBefore isWaypoint q := by
        apply mem_filter.2
        have positive : 0 < q := by
          apply Nat.pos_of_ne_zero
          rintro rfl
          rw [head?_eq_getElem?, marked] at first
          cases first
        refine ⟨mem_range.2 positive, ?_⟩
        rw [getD_eq_getElem?_getD, ← head?_eq_getElem?, first]
        rfl
      obtain ⟨front, last, split⟩ := eq_nil_or_concat (waypointsBefore isWaypoint q) |>.resolve_left (ne_nil_of_mem zero)
      have earlier : last < q := by
        have here : last ∈ waypointsBefore isWaypoint q := by simp [split]
        exact mem_range.1 (mem_filter.1 here).1
      rw [concat_eq_append] at split
      rw [split, spans_snoc, map_append] at ih
      obtain ⟨done, current, parts, ends, joined⟩ := map_eq_append_iff.1 ih
      obtain ⟨leg', rfl, value⟩ := map_eq_singleton_iff.1 joined
      rw [parts, collapseStep_join, split, if_neg Bool.false_ne_true, append_nil, spans_snoc, map_append, map_append, ends,
        map_singleton, map_singleton, joinBetween_succ found earlier, ← value]
      rfl

/-- **The legs of a collapsed route** go from each waypoint to the next one. -/
theorem collapse_legs (length : isWaypoint.length = result.legs.length + 1)
    (first : isWaypoint.head? = some true) :
    (collapseInternalRouteResult result isWaypoint).legs.map some =
      (spans (waypointsBefore isWaypoint result.legs.length) result.legs.length).map (joinBetween result.legs) := by
  have all := legs_foldl result.legs (by omega) first result.legs.length le_rfl
  rw [take_of_length_le (by simp)] at all
  unfold collapseInternalRouteResult
  split_ifs with single
  · obtain ⟨leg, one⟩ := length_eq_one_iff.1 single
    obtain ⟨rest, flags⟩ := head?_eq_some_iff.1 first
    rw [one, flags]
    rfl
  · exact all

/-! ### Where the parts are lost -/

variable (m : Measure V)

/-- An empty leg keeps its direction, and nothing about it is rectified. -/
structure Leg.Plain (leg : Leg V) : Prop where
  direction : leg.pathSegments.isEmpty = true → leg.sourceTraversedInReverse = leg.targetTraversedInReverse
  value : leg.pathSegments.isEmpty = true →
    m.rectify (leg.targetPart m - leg.sourcePart m) = leg.targetPart m - leg.sourcePart m

/-- The parts before the first source of empty legs that are continued by a leg with a path. -/
def Measure.lostFrom (m : Measure V) (joined : Joined V) : List (Leg V × Bool) → List ℤ
  | [] => []
  | (leg, true) :: rest => m.lostFrom leg.joined rest
  | (leg, false) :: rest =>
    if joined.empty && !leg.pathSegments.isEmpty then m.part joined.source joined.reverse :: m.lostFrom (joined.append leg) rest
    else m.lostFrom (joined.append leg) rest

/-- The parts that are lost in a route. -/
def Measure.lost (legs : List (Leg V)) (isWaypoint : List Bool) : List ℤ :=
  match legs with
  | [] => []
  | leg :: rest => m.lostFrom leg.joined (rest.zip isWaypoint.tail)

/-- Sums of values that are not rectified are not rectified. -/
def Measure.Rectifies : Prop := ∀ x y, m.rectify x = x → m.rectify y = y → m.rectify (x + y) = x + y

theorem Measure.rectifies_duration (convert : IntConversion) : (Measure.duration convert : Measure V).Rectifies := by
  intro x y hx hy
  have hx : max 0 x = x := hx
  have hy : max 0 y = y := hy
  show max 0 (x + y) = x + y
  omega

/-- What is known of the legs joined so far, the last of which is `last`. -/
structure Joined.Ends (joined : Joined V) (last : Leg V) : Prop where
  direction : joined.reverse = last.targetTraversedInReverse
  value : joined.empty = true → m.rectify (last.targetPart m - m.part joined.source joined.reverse) =
    last.targetPart m - m.part joined.source joined.reverse

section Plain

variable {m : Measure V} {last leg : Leg V} {joined : Joined V}

theorem Leg.Plain.sourcePart (plain : leg.Plain m) (empty : leg.pathSegments.isEmpty = true) :
    m.part leg.endpoints.sourcePhantom leg.targetTraversedInReverse = leg.sourcePart m := by
  rw [Leg.sourcePart, plain.direction empty]

theorem Leg.Plain.ends (plain : leg.Plain m) : leg.joined.Ends m leg := by
  refine ⟨rfl, fun empty => ?_⟩
  show m.rectify (leg.targetPart m - m.part leg.endpoints.sourcePhantom leg.targetTraversedInReverse) =
    _ - m.part leg.endpoints.sourcePhantom leg.targetTraversedInReverse
  rw [plain.sourcePart empty]
  exact plain.value empty

theorem Leg.Plain.emptyValue (plain : leg.Plain m) (empty : leg.pathSegments.isEmpty = true) :
    leg.emptyValue m = leg.targetPart m - leg.sourcePart m := by
  rw [Leg.emptyValue, plain.sourcePart empty, plain.value empty]

section Append

variable (rectifies : m.Rectifies) (ends : joined.Ends m last) (meets : last.Meets leg) (plain : leg.Plain m)

include rectifies ends meets plain

/-- Two empty legs in a row. -/
theorem Joined.Ends.value_append (empty : joined.empty = true) (legEmpty : leg.pathSegments.isEmpty = true) :
    m.rectify (leg.targetPart m - m.part joined.source leg.targetTraversedInReverse) =
      leg.targetPart m - m.part joined.source leg.targetTraversedInReverse := by
  have same := Leg.sourcePart_of_meets (m := m) meets
  have direction : leg.targetTraversedInReverse = joined.reverse := by
    rw [← plain.direction legEmpty, meets.direction, ends.direction]
  have sum := rectifies _ _ (ends.value empty) (plain.value legEmpty)
  rw [same, show last.targetPart m - m.part joined.source joined.reverse + (leg.targetPart m - last.targetPart m) =
    leg.targetPart m - m.part joined.source joined.reverse by omega] at sum
  rw [direction]
  exact sum

theorem Joined.Ends.append :
    (joined.append leg).Ends m leg := by
  refine ⟨rfl, fun empty => ?_⟩
  obtain ⟨empty, legEmpty⟩ := (Bool.and_eq_true _ _).mp empty
  have value := ends.value_append rectifies meets plain empty legEmpty
  exact value

/-- The gap of a join is the part that it loses. -/
theorem Joined.Ends.gap_eq :
    m.gap joined leg = if joined.empty && !leg.pathSegments.isEmpty then m.part joined.source joined.reverse else 0 := by
  have same := Leg.sourcePart_of_meets (m := m) meets
  unfold Measure.gap
  cases empty : joined.empty with
  | true =>
    rw [same, ends.value empty]
    cases legEmpty : leg.pathSegments.isEmpty with
    | true =>
      rw [ends.value_append rectifies meets plain empty legEmpty, plain.emptyValue legEmpty, same]
      have direction : leg.targetTraversedInReverse = joined.reverse := by
        rw [← plain.direction legEmpty, meets.direction, ends.direction]
      simp [direction]
    | false => simp
  | false =>
    cases legEmpty : leg.pathSegments.isEmpty with
    | true => simp [plain.emptyValue legEmpty]
    | false => simp

end Append

/-- The gaps of the route are the parts that it loses. -/
theorem gapsFrom_eq_sum (rectifies : m.Rectifies) (rest : List (Leg V × Bool)) (ends : joined.Ends m last)
    (meet : MeetFrom last (rest.map (·.1))) (plain : ∀ entry ∈ rest, entry.1.Plain m) :
    m.gapsFrom joined rest = (m.lostFrom joined rest).sum := by
  induction rest generalizing joined last with
  | nil => exact sum_nil.symm
  | cons entry rest ih =>
    obtain ⟨leg, waypoint⟩ := entry
    have here : leg.Plain m := plain _ mem_cons_self
    have meets : last.Meets leg := meet.1
    have later := fun entry mem => plain entry (mem_cons_of_mem (leg, waypoint) mem)
    cases waypoint with
    | true => exact ih here.ends meet.2 later
    | false =>
      rw [Measure.gapsFrom, Measure.lostFrom, ends.gap_eq rectifies meets here, ih (ends.append rectifies meets here) meet.2 later]
      split
      · rw [sum_cons]
      · exact Int.zero_add _

/-- Parts that are lost are parts before a source. -/
theorem lostFrom_nonneg (joined : Joined V) (rest : List (Leg V × Bool)) (nonneg : ∀ reverse, 0 ≤ m.part joined.source reverse)
    (all : ∀ entry ∈ rest, ∀ reverse, 0 ≤ m.part entry.1.endpoints.sourcePhantom reverse) :
    ∀ part ∈ m.lostFrom joined rest, 0 ≤ part := by
  induction rest generalizing joined with
  | nil => exact fun part mem => (not_mem_nil mem).elim
  | cons entry rest ih =>
    obtain ⟨leg, waypoint⟩ := entry
    have later := fun entry mem => all entry (mem_cons_of_mem (leg, waypoint) mem)
    cases waypoint with
    | true => exact ih leg.joined (all _ mem_cons_self) later
    | false =>
      rw [Measure.lostFrom]
      split
      · exact forall_mem_cons.2 ⟨nonneg _, ih (joined.append leg) nonneg later⟩
      · exact ih (joined.append leg) nonneg later

end Plain

/-- Collapsing a route does not change the sum over its legs. -/
def KeepsTotal (m : Measure V) (result : InternalRouteResult V) (isWaypoint : List Bool) : Prop :=
  m.total (collapseInternalRouteResult result isWaypoint).legs = m.total result.legs

/-- Empty legs are plain, and no part before a source is negative. -/
structure Ordinary (m : Measure V) (legs : List (Leg V)) : Prop where
  plain : ∀ leg ∈ legs, leg.Plain m
  nonneg : ∀ leg ∈ legs, ∀ reverse, 0 ≤ m.part leg.endpoints.sourcePhantom reverse

theorem keepsTotal_iff (m : Measure V) (meet : Meet result.legs) (fits : m.Fits result.legs isWaypoint)
    (length : isWaypoint.length = result.legs.length + 1) (first : isWaypoint.head? = some true) :
    KeepsTotal m result isWaypoint ↔ m.gaps result.legs isWaypoint = 0 := by
  rw [KeepsTotal, total_collapse m meet fits length first]
  omega

theorem gaps_eq_zero_iff {m : Measure V} (rectifies : m.Rectifies) {legs : List (Leg V)} (isWaypoint : List Bool) (meet : Meet legs)
    (length : isWaypoint.length = legs.length + 1) (ordinary : Ordinary m legs) :
    m.gaps legs isWaypoint = 0 ↔ ∀ part ∈ m.lost legs isWaypoint, part = 0 := by
  cases legs with
  | nil => exact ⟨fun _ part mem => (not_mem_nil mem).elim, fun _ => rfl⟩
  | cons leg rest =>
    have short : (rest.zip isWaypoint.tail).map (·.1) = rest :=
      map_fst_zip (by rw [length_tail, length, length_cons]; omega)
    have mem : ∀ entry ∈ rest.zip isWaypoint.tail, entry.1 ∈ leg :: rest := by
      intro entry hentry
      rw [← short]
      exact mem_cons_of_mem _ (mem_map_of_mem hentry)
    have sum := gapsFrom_eq_sum rectifies (rest.zip isWaypoint.tail) (ordinary.plain leg mem_cons_self).ends
      (by rw [short]; exact meet) fun entry hentry => ordinary.plain _ (mem entry hentry)
    have nonneg := lostFrom_nonneg (m := m) leg.joined (rest.zip isWaypoint.tail)
      (ordinary.nonneg leg mem_cons_self) fun entry hentry => ordinary.nonneg _ (mem entry hentry)
    show m.gapsFrom leg.joined (rest.zip isWaypoint.tail) = 0 ↔ ∀ part ∈ m.lostFrom leg.joined (rest.zip isWaypoint.tail), part = 0
    rw [sum]
    exact ⟨fun zero part mem => all_zero_of_le_zero_le_of_sum_eq_zero nonneg zero mem, fun zero => sum_eq_zero zero⟩

/-- **Collapsing keeps the totals** of a route whose legs meet and whose sums are in range exactly if the gaps of the joins add up
to nothing, both for weights and for durations. For ordinary legs this says that wherever an empty leg is continued by one with a
path, the first source is at the start of its segment. -/
theorem collapseInternalRouteResult_total_iff (convert : IntConversion) {result : InternalRouteResult V} {isWaypoint : List Bool}
    (meet : Meet result.legs) (length : isWaypoint.length = result.legs.length + 1) (first : isWaypoint.head? = some true) :
    ((Measure.weight convert).Fits result.legs isWaypoint →
      (KeepsTotal (.weight convert) result isWaypoint ↔ (Measure.weight convert).gaps result.legs isWaypoint = 0) ∧
      (Ordinary (.weight convert) result.legs →
        (KeepsTotal (.weight convert) result isWaypoint ↔ ∀ part ∈ (Measure.weight convert).lost result.legs isWaypoint, part = 0))) ∧
    ((Measure.duration convert).Fits result.legs isWaypoint →
      (KeepsTotal (.duration convert) result isWaypoint ↔ (Measure.duration convert).gaps result.legs isWaypoint = 0) ∧
      (Ordinary (.duration convert) result.legs →
        (KeepsTotal (.duration convert) result isWaypoint ↔
          ∀ part ∈ (Measure.duration convert).lost result.legs isWaypoint, part = 0))) := by
  constructor
  · intro fits
    have general := keepsTotal_iff (Measure.weight convert) meet fits length first
    exact ⟨general, fun ordinary => general.trans (gaps_eq_zero_iff (fun _ _ _ _ => rfl) isWaypoint meet length ordinary)⟩
  · intro fits
    have general := keepsTotal_iff (Measure.duration convert) meet fits length first
    have rectifies := Measure.rectifies_duration (V := V) convert
    exact ⟨general, fun ordinary => general.trans (gaps_eq_zero_iff rectifies isWaypoint meet length ordinary)⟩

/-- A phantom on a road with one direction. -/
def phantomAt (part : ℤ) : PhantomNode ℕ where
  forwardSegmentId := ⟨0, true⟩
  reverseSegmentId := ⟨1, false⟩
  forwardWeight := part
  reverseWeight := 0
  forwardWeightOffset := 0
  reverseWeightOffset := 0
  forwardDuration := part
  reverseDuration := 0
  forwardDurationOffset := 0
  reverseDurationOffset := 0
  validForwardSource := true
  validForwardTarget := true
  validReverseSource := false
  validReverseTarget := false

/-- A leg along one segment, or with a path of the given weight. -/
def legBetween (source target : ℤ) (path : List ℤ) : Leg ℕ where
  pathSegments := path.map fun weight => ⟨0, 0, weight, 0, weight, 0, 0, none⟩
  endpoints := ⟨phantomAt source, phantomAt target⟩
  sourceTraversedInReverse := false
  targetTraversedInReverse := false

/-- From `3` to `5` on a segment of length `15`, then on to the next one. -/
def shortFirst : InternalRouteResult ℕ := ⟨[legBetween 3 5 [], legBetween 5 2 [10]], 14⟩

/-- A leg with a path, then one on the same segment, then one with a path. -/
def shortMiddle : InternalRouteResult ℕ := ⟨[legBetween 1 3 [9], legBetween 3 5 [], legBetween 5 2 [10]], 26⟩

theorem meet_shortMiddle : Meet shortMiddle.legs := ⟨⟨rfl, rfl⟩, ⟨rfl, rfl⟩, trivial⟩

/-- The conversion of the x86 instruction `cvttsd2si`: the least integer stands for all that is out of range. -/
def truncating : IntConversion where
  toInt k := if FitsInt k then k else -2 ^ 31
  toInt_eq _ fits := if_pos fits

theorem collapseInternalRouteResult_total_iff_shortMiddle : KeepsTotal (.weight truncating) shortMiddle [true, false, false, true] := by
  have fits : (Measure.weight truncating).Fits shortMiddle.legs [true, false, false, true] := by
    show (_ : ℤ) < 2 ^ 31
    decide
  exact ((collapseInternalRouteResult_total_iff truncating meet_shortMiddle rfl rfl).1 fits).1.2 (by decide)

theorem collapseInternalRouteResult_shortFirst : Meet shortFirst.legs ∧
    ((Measure.weight truncating).total shortFirst.legs = 14 ∧
      (Measure.weight truncating).total (collapseInternalRouteResult shortFirst [true, false, true]).legs = 17) ∧
    ((Measure.duration truncating).total shortFirst.legs = 14 ∧
      (Measure.duration truncating).total (collapseInternalRouteResult shortFirst [true, false, true]).legs = 17) :=
  ⟨⟨⟨rfl, rfl⟩, trivial⟩, by decide, by decide⟩

end Osrm
