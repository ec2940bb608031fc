import Osrm.Engine.InternalRouteResult
import Osrm.Engine.MapMatching
import Osrm.Engine.MatchParametersTidy

/-!
# Match requests

`HandleRequest` of the match plugin tidies the parameters, matches what is left, searches a route
through the matched candidates and collapses its legs at the waypoints. The answer has one
tracepoint for each coordinate of the request, and each waypoint is to be numbered there.

Three kinds of indices are in play: those of the request, those after tidying, and the points of
the matching. The legs are collapsed at the waypoints after tidying, where a dropped waypoint is
represented by another coordinate; but the tracepoints are numbered by the waypoints of the request,
where that coordinate need not be one.
-/

namespace Osrm

open Function List

open MapMatching (SubMatching Trace)
open Tidy (Result)

structure RequestError where
  code : String
  message : String
deriving DecidableEq, Repr

structure Tracepoint (V : Type) where
  phantom : PhantomNode V
  matchingsIndex : ℕ
  waypointIndex : Option ℕ
  alternativesCount : ℕ
deriving DecidableEq

/-- The answer to a match request: the routes with their confidence, and the tracepoints unless they are to be skipped. -/
structure MatchResponse (V : Type) where
  matchings : List (InternalRouteResult V × ℚ)
  tracepoints : Option (List (Option (Tracepoint V)))
deriving DecidableEq

/-- `MatchPlugin`, with what it asks of the engine. -/
structure MatchPlugin (V : Type) where
  hasMapMatching : Bool
  checkAlgorithms : MatchParameters → Option RequestError
  maxLocationsMapMatching : ℤ
  maxRadiusMapMatching : ℚ
  facade : MapMatching.Facade (PhantomNode V)
  /-- `GetPhantomNodesInRange`, then `filterCandidates` -/
  candidates : MatchParameters → List (List (PhantomNode V))
  length_candidates : ∀ params, (candidates params).length = params.coordinates.length
  emissionLogProbabilities : MatchParameters → ℕ → ℕ → WithBot ℚ
  shortestPathSearch : List (PhantomNode V) → InternalRouteResult V

variable {V : Type}

/-! ### The tracepoints -/

/-- `MakeMatchingIndices`; `none` is a point that is `NotMatched`. -/
def makeMatchingIndices (tidied : Result) (subMatchings : List (SubMatching (PhantomNode V))) : ℕ → Option (ℕ × ℕ) :=
  subMatchings.zipIdx.foldl (fun indices (matching, sub) =>
    matching.indices.zipIdx.foldl (fun indices (index, point) =>
      update indices (tidied.tidiedToOriginal.getD index 0) (some (sub, point))) indices) fun _ => none

variable [Inhabited (PhantomNode V)] {parameters : MatchParameters} {last : ℕ} (l : List ℕ)

/-- `MakeTracepoints`, for the coordinates of the list and with the number of the next waypoint. -/
def makeTracepointsFrom (parameters : MatchParameters) (tidied : Result) (subMatchings : List (SubMatching (PhantomNode V))) :
    List ℕ → ℕ → List (Option (Tracepoint V))
  | [], _ => []
  | i :: rest, wasWaypointIdx =>
    if tidied.canBeRemoved i then none :: makeTracepointsFrom parameters tidied subMatchings rest wasWaypointIdx
    else
      match makeMatchingIndices tidied subMatchings i with
      | none => none :: makeTracepointsFrom parameters tidied subMatchings rest wasWaypointIdx
      | some (sub, point) =>
        let matching := subMatchings.getD sub ⟨[], [], [], 0⟩
        let tracepoint := fun waypointIndex =>
          ⟨matching.nodes.getD point default, sub, waypointIndex, matching.alternativesCount.getD point 0⟩
        if parameters.waypoints.isEmpty then
          some (tracepoint (some point)) :: makeTracepointsFrom parameters tidied subMatchings rest wasWaypointIdx
        else if tidied.wasWaypoint i then
          some (tracepoint (some wasWaypointIdx)) :: makeTracepointsFrom parameters tidied subMatchings rest (wasWaypointIdx + 1)
        else some (tracepoint none) :: makeTracepointsFrom parameters tidied subMatchings rest wasWaypointIdx

def makeTracepoints (parameters : MatchParameters) (tidied : Result) (subMatchings : List (SubMatching (PhantomNode V))) :
    List (Option (Tracepoint V)) :=
  makeTracepointsFrom parameters tidied subMatchings (range parameters.coordinates.length) 0

/-- `waypoint_legs`: which of the matched indices are waypoints. The second list is what is left of the waypoints. -/
def waypointLegs : List ℕ → List ℕ → List Bool
  | [], _ => []
  | _ :: indices, [] => false :: waypointLegs indices []
  | i :: indices, current :: waypoints =>
    if current = i then true :: waypointLegs indices waypoints else false :: waypointLegs indices (current :: waypoints)

namespace MatchPlugin

variable (plugin : MatchPlugin V) (parameters : MatchParameters)

/-- The tidied parameters; `none` if `tidy` has no result. -/
def tidied : Option Result :=
  if parameters.tidy then Tidy.tidy plugin.facade.greatCircleDistance parameters ⟨15, 5⟩ else some (Tidy.keepAll parameters)

variable (tidied : Result)

def trace : Trace (PhantomNode V) :=
  { plugin.facade with
    candidatesList := plugin.candidates tidied.parameters
    emissionLogProbabilities := plugin.emissionLogProbabilities tidied.parameters
    traceCoordinates := tidied.parameters.coordinates
    traceTimestamps := tidied.parameters.timestamps
    allowSplitting := parameters.splitGaps }

/-- The result of map matching, with enough iterations. -/
def subMatchings : List (SubMatching (PhantomNode V)) :=
  let trace := plugin.trace parameters tidied
  (trace.mapMatching ((trace.numPoints + 1) ^ 2)).getD []

def subRoute (matching : SubMatching (PhantomNode V)) : InternalRouteResult V :=
  let route := plugin.shortestPathSearch matching.nodes
  if parameters.waypoints.isEmpty then route
  else collapseInternalRouteResult route (waypointLegs matching.indices tidied.parameters.waypoints)

def makeResponse (matchings : List (SubMatching (PhantomNode V))) : MatchResponse V where
  matchings := matchings.map fun matching => (plugin.subRoute parameters tidied matching, matching.confidence)
  tracepoints := if parameters.skipWaypoints then none else some (makeTracepoints parameters tidied matchings)

/-- The errors of `HandleRequest` before the parameters are tidied. -/
def checkParameters : Option RequestError :=
  if !plugin.hasMapMatching then
    some ⟨"NotImplemented", "Map matching is not implemented for the chosen search algorithm."⟩
  else if let some error := plugin.checkAlgorithms parameters then some error
  else if plugin.maxLocationsMapMatching > 0 && parameters.coordinates.length > plugin.maxLocationsMapMatching then
    some ⟨"TooBig", "Too many trace coordinates"⟩
  else if !parameters.coordinates.all (·.isValid) then some ⟨"InvalidValue", "Invalid coordinate value."⟩
  else if plugin.maxRadiusMapMatching > 0 && parameters.radiuses.any (·.any (· > plugin.maxRadiusMapMatching)) then
    some ⟨"TooBig", "Radius search size is too large for map matching."⟩
  else if !(zipWith (fun before after => decide (before ≤ after)) parameters.timestamps parameters.timestamps.tail).all id then
    some ⟨"InvalidValue", "Timestamps need to be monotonically increasing."⟩
  else none

/-- `HandleRequest`, after the parameters are tidied. -/
def handleTidied : Except RequestError (MatchResponse V) :=
  let waypoints := tidied.parameters.waypoints
  if !parameters.waypoints.isEmpty &&
      (waypoints.head? ≠ some 0 || waypoints.getLast? ≠ some (tidied.parameters.coordinates.length - 1)) then
    .error ⟨"InvalidValue", "First and last coordinates must be specified as waypoints."⟩
  else if (plugin.candidates tidied.parameters).all (·.isEmpty) then
    .error ⟨"NoSegment", "Could not find a matching segment for any coordinate."⟩
  else
    let matchings := plugin.subMatchings parameters tidied
    if matchings.isEmpty then .error ⟨"NoMatch", "Could not match the trace."⟩
    else if matchings.length > 1 && !parameters.waypoints.isEmpty then
      .error ⟨"NoMatch", "Could not match the trace with the given waypoints."⟩
    else if !parameters.waypoints.isEmpty && !waypoints.all (fun w => matchings.any (·.indices.contains w)) then
      .error ⟨"NoMatch", "Requested waypoint parameter could not be matched."⟩
    else .ok (plugin.makeResponse parameters tidied matchings)

def handleRequest : Option (Except RequestError (MatchResponse V)) :=
  match plugin.checkParameters parameters with
  | some error => some (.error error)
  | none => (plugin.tidied parameters).map (plugin.handleTidied parameters)

end MatchPlugin

/-! ### Increasing lists of indices -/

theorem waypointLegs_eq {indices waypoints : List ℕ} (increasing : indices.Pairwise (· < ·)) (found : waypoints <+ indices) :
    waypointLegs indices waypoints = indices.map fun i => decide (i ∈ waypoints) := by
  induction found with
  | slnil => rfl
  | @cons waypoints indices i found ih =>
    obtain ⟨behind, rising⟩ := pairwise_cons.1 increasing
    have other : i ∉ waypoints := fun here => Nat.lt_irrefl i (behind i (found.subset here))
    rw [map_cons, decide_eq_false other, ← ih rising]
    cases waypoints with
    | nil => rfl
    | cons w waypoints => rw [waypointLegs, if_neg (ne_of_not_mem_cons other).symm]
  | @cons_cons waypoints indices i found ih =>
    obtain ⟨behind, rising⟩ := pairwise_cons.1 increasing
    rw [waypointLegs, if_pos rfl, map_cons, decide_eq_true mem_cons_self, ih rising]
    congr 1
    apply map_congr_left
    intro j member
    have lt := behind j member
    rw [decide_eq_decide, mem_cons, or_iff_right (by omega)]

theorem map_getD_range : (range l.length).map (fun p => l.getD p 0) = l := by
  apply ext_getElem
  · simp
  · intro p inside inside'
    simp [getElem?_eq_getElem inside']

/-- The positions of the members that pass a test. -/
theorem map_getD_filter (test : ℕ → Bool) :
    ((range l.length).filter fun p => test (l.getD p 0)).map (fun p => l.getD p 0) = l.filter test := by
  conv_rhs => rw [← map_getD_range l, filter_map]
  rfl

/-! ### The numbers of the tracepoints -/

/-- A coordinate with the number of its tracepoint. -/
def number (entry : ℕ × Option (Tracepoint V)) : Option (ℕ × ℕ) := (entry.2.bind (·.waypointIndex)).map fun k => (entry.1, k)

/-- The coordinates whose tracepoints are numbered, with their numbers. -/
def numbered (tracepoints : List (Option (Tracepoint V))) : List (ℕ × ℕ) :=
  ((range tracepoints.length).zip tracepoints).filterMap number

omit [Inhabited (PhantomNode V)] in
/-- A point of the request is matched if one of the matched indices leads to it. -/
theorem matchingIndices_isSome (tidied : Result) (matching : SubMatching (PhantomNode V)) (i : ℕ) :
    (makeMatchingIndices tidied [matching] i).isSome = true ↔
      ∃ index ∈ matching.indices, tidied.tidiedToOriginal.getD index 0 = i := by
  have loop : ∀ (entries : List (ℕ × ℕ)) (indices : ℕ → Option (ℕ × ℕ)),
      (entries.foldl (fun indices entry => update indices (tidied.tidiedToOriginal.getD entry.1 0) (some (0, entry.2)))
        indices i).isSome = true ↔
      (indices i).isSome = true ∨ ∃ entry ∈ entries, tidied.tidiedToOriginal.getD entry.1 0 = i := by
    intro entries
    induction entries with
    | nil => simp
    | cons entry entries ih =>
      intro indices
      rw [foldl_cons, ih, update_apply]
      by_cases here : i = tidied.tidiedToOriginal.getD entry.1 0
      · rw [if_pos here]
        exact ⟨fun _ => .inr ⟨entry, mem_cons_self, here.symm⟩, fun _ => .inl rfl⟩
      · rw [if_neg here, exists_mem_cons_iff, or_iff_right (Ne.symm here)]
  refine (loop matching.indices.zipIdx fun _ => none).trans ?_
  rw [Option.isSome_none, or_iff_right Bool.false_ne_true]
  constructor
  · intro ⟨entry, here, place⟩
    refine ⟨entry.1, ?_, place⟩
    rw [← zipIdx_map_fst 0 matching.indices]
    exact mem_map_of_mem here
  · intro ⟨index, here, place⟩
    rw [← zipIdx_map_fst 0 matching.indices] at here
    obtain ⟨entry, member, rfl⟩ := mem_map.1 here
    exact ⟨entry, member, place⟩

/-- The numbers go to the waypoints of the request that are kept and matched, in order. -/
theorem numbered_from (given : parameters.waypoints.isEmpty = false) (tidied : Result)
    (subMatchings : List (SubMatching (PhantomNode V))) (coordinates : List ℕ) (next : ℕ) :
    (coordinates.zip (makeTracepointsFrom parameters tidied subMatchings coordinates next)).filterMap number =
      (coordinates.filter fun i => !tidied.canBeRemoved i && (makeMatchingIndices tidied subMatchings i).isSome &&
        tidied.wasWaypoint i).zipIdx next := by
  induction coordinates generalizing next with
  | nil => rfl
  | cons i coordinates ih =>
    rw [makeTracepointsFrom]
    by_cases removed : tidied.canBeRemoved i = true
    · rw [if_pos removed, zip_cons_cons, filterMap_cons_none rfl, ih, filter_cons_of_neg (by simp [removed])]
    · rw [if_neg removed]
      cases found : makeMatchingIndices tidied subMatchings i with
      | none => rw [zip_cons_cons, filterMap_cons_none rfl, ih, filter_cons_of_neg (by simp [found])]
      | some place =>
        simp only [given, Bool.false_eq_true, if_false]
        by_cases was : tidied.wasWaypoint i = true
        · rw [if_pos was, zip_cons_cons, filterMap_cons_some (f := number) (b := (i, next)) rfl, ih,
            filter_cons_of_pos (by simp [removed, found, was]), zipIdx_cons]
        · rw [if_neg was, zip_cons_cons, filterMap_cons_none rfl, ih, filter_cons_of_neg (by simp [was])]

theorem length_makeTracepointsFrom (parameters : MatchParameters) (tidied : Result)
    (subMatchings : List (SubMatching (PhantomNode V))) (coordinates : List ℕ) (next : ℕ) :
    (makeTracepointsFrom parameters tidied subMatchings coordinates next).length = coordinates.length := by
  induction coordinates generalizing next with
  | nil => rfl
  | cons i coordinates ih =>
    rw [makeTracepointsFrom]
    split
    · simp [ih]
    · split
      · simp [ih]
      · split_ifs <;> simp [ih]

namespace MatchPlugin

variable {plugin : MatchPlugin V} {parameters : MatchParameters} {tidied : Result} {matching : SubMatching (PhantomNode V)}

theorem subMatchings_matched (here : matching ∈ plugin.subMatchings parameters tidied) : (plugin.trace parameters tidied).Matched matching := by
  obtain ⟨matchings, runs, matched⟩ := (plugin.trace parameters tidied).mapMatching_matched
  apply matched
  simpa only [subMatchings, runs _ le_rfl, Option.getD_some] using here

/-- A request with waypoints that is answered has one sub-matching, with all waypoints. -/
theorem handleTidied_ok {response : MatchResponse V} (given : parameters.waypoints.isEmpty = false)
    (handled : plugin.handleTidied parameters tidied = .ok response) :
    ∃ matching, plugin.subMatchings parameters tidied = [matching] ∧ response = plugin.makeResponse parameters tidied [matching] ∧
      tidied.parameters.waypoints.getLast? = some (tidied.parameters.coordinates.length - 1) ∧
      ∀ w ∈ tidied.parameters.waypoints, w ∈ matching.indices := by
  simp only [handleTidied, given] at handled
  split_ifs at handled with ends segments none many missing
  have last : tidied.parameters.waypoints.getLast? = some (tidied.parameters.coordinates.length - 1) := by
    by_contra other
    exact ends (by simp [other])
  obtain ⟨matching, one⟩ : ∃ matching, plugin.subMatchings parameters tidied = [matching] := by
    apply length_eq_one_iff.1
    have positive := length_pos_iff.2 (mt isEmpty_iff.2 none)
    have single : ¬ (plugin.subMatchings parameters tidied).length > 1 := by simpa using many
    omega
  rw [one] at missing handled
  refine ⟨matching, one, (Except.ok.inj handled).symm, last, ?_⟩
  simpa using missing

end MatchPlugin

/-- The numbers of the tracepoints and the legs of the route agree: there are points of the matching such that the tracepoints
of their coordinates are numbered in order, and each leg goes from one of the points to the next. -/
def WaypointsAgree (tidied : Result) (matching : SubMatching (PhantomNode V)) (leggy route : InternalRouteResult V)
    (tracepoints : List (Option (Tracepoint V))) : Prop :=
  ∃ points : List ℕ, points.Pairwise (· < ·) ∧ (∀ p ∈ points, p < matching.indices.length) ∧
    points.length = route.legs.length + 1 ∧
    numbered tracepoints = (points.map fun p => tidied.tidiedToOriginal.getD (matching.indices.getD p 0) 0).zipIdx ∧
    route.legs.map some = (points.zip points.tail).map (joinBetween leggy.legs)

/-- The points of the matching that are waypoints after tidying. -/
def waypointPoints (indices waypoints : List ℕ) : List ℕ :=
  (range indices.length).filter fun p => decide (indices.getD p 0 ∈ waypoints)

section Collapse

variable {indices waypoints : List ℕ} {leggy : InternalRouteResult V}

variable (increasing : indices.Pairwise (· < ·)) (increasing' : waypoints.Pairwise (· < ·)) (found : ∀ w ∈ waypoints, w ∈ indices)

include increasing increasing' found

theorem map_waypointPoints : (waypointPoints indices waypoints).map (indices.getD · 0) = waypoints := by
  apply (map_getD_filter indices fun i => decide (i ∈ waypoints)).trans
  apply Pairwise.eq_of_mem_iff (increasing.filter _) increasing'
  intro w
  rw [mem_filter, decide_eq_true_iff]
  exact ⟨And.right, fun here => ⟨found w here, here⟩⟩

omit [Inhabited (PhantomNode V)] in
/-- The collapsed route has a leg from each of these points to the next one. -/
theorem collapse_waypointLegs (first : 0 ∈ waypoints) (ends : last ∈ waypoints) (inside : ∀ i ∈ indices, i ≤ last)
    (routed : leggy.legs.length + 1 = indices.length) :
    (collapseInternalRouteResult leggy (waypointLegs indices waypoints)).legs.map some =
      ((waypointPoints indices waypoints).zip (waypointPoints indices waypoints).tail).map (joinBetween leggy.legs) := by
  have perm := subperm_of_subset increasing'.nodup found
  have flags := waypointLegs_eq increasing (sublist_of_subperm_of_pairwise perm increasing' increasing)
  have test : ∀ p, p < indices.length → (waypointLegs indices waypoints).getD p false = decide (indices.getD p 0 ∈ waypoints) := by
    intro p inside
    rw [flags, getD_eq_getElem?_getD, getElem?_map, getD_eq_getElem?_getD, getElem?_eq_getElem inside]
    rfl
  have start : (waypointLegs indices waypoints).head? = some true := by
    cases indices with
    | nil => cases found 0 first
    | cons i indices =>
      have zero : i = 0 := by
        rcases mem_cons.1 (found 0 first) with zero | later
        · exact zero.symm
        · exact absurd ((pairwise_cons.1 increasing).1 0 later) (Nat.not_lt_zero i)
      rw [flags, map_cons, head?_cons, zero, decide_eq_true first]
  rw [collapse_legs (by rw [flags, length_map]; omega) start]
  have points : waypointPoints indices waypoints = waypointsBefore (waypointLegs indices waypoints) leggy.legs.length ++ [leggy.legs.length] := by
    have final : indices.getD leggy.legs.length 0 ∈ waypoints := by
      obtain ⟨front, i, split⟩ := (eq_nil_or_concat indices).resolve_left (ne_nil_of_mem (found 0 first))
      rw [concat_eq_append] at split
      subst split
      have same : i = last := by
        rcases mem_append.1 (found last ends) with before | here
        · have lt := (pairwise_append.1 increasing).2.2 last before i (by simp)
          exact absurd (inside i (by simp)) (Nat.not_le.2 lt)
        · exact (mem_singleton.1 here).symm
      have place : leggy.legs.length = front.length := by simpa using routed
      rw [place, getD_append_right _ _ _ _ le_rfl, Nat.sub_self, same]
      exact ends
    rw [waypointPoints, ← routed, range_succ, filter_append, waypointsBefore]
    congr 1
    · apply filter_congr
      intro p here
      have := mem_range.1 here
      exact (test p (by omega)).symm
    · simp only [filter_cons, final, decide_true, if_true, filter_nil]
  rw [points, zip_tail_eq_spans]

end Collapse

/-- The tracepoints and the legs agree if and only if the waypoints that are kept are the representatives. -/
theorem waypointsAgree_iff {keep : ℕ → Bool} {tidied : Result} {matching : SubMatching (PhantomNode V)}
    {leggy : InternalRouteResult V} (spec : Tidy.Tidied parameters keep tidied) (given : parameters.waypoints.isEmpty = false)
    (increasing : matching.indices.Pairwise (· < ·)) (found : ∀ w ∈ tidied.parameters.waypoints, w ∈ matching.indices)
    (first : 0 ∈ tidied.parameters.waypoints) (ends : last ∈ tidied.parameters.waypoints)
    (inside : ∀ i ∈ matching.indices, i ≤ last) (routed : leggy.legs.length + 1 = matching.indices.length) :
    WaypointsAgree tidied matching leggy
      (collapseInternalRouteResult leggy (waypointLegs matching.indices tidied.parameters.waypoints))
      (makeTracepoints parameters tidied [matching]) ↔ Tidy.keptWaypoints parameters keep = Tidy.representatives tidied := by
  have increasing' := spec.parameters.increasing
  have places := map_waypointPoints increasing increasing' found
  have originals : (waypointPoints matching.indices tidied.parameters.waypoints).map
      (fun p => tidied.tidiedToOriginal.getD (matching.indices.getD p 0) 0) = Tidy.representatives tidied := by
    have mapped := congrArg (map fun j => tidied.tidiedToOriginal.getD j 0) places
    rwa [map_map] at mapped
  have legs := collapse_waypointLegs increasing increasing' found first ends inside routed
  have count : (waypointPoints matching.indices tidied.parameters.waypoints).length =
      (collapseInternalRouteResult leggy (waypointLegs matching.indices tidied.parameters.waypoints)).legs.length + 1 := by
    have lengths := congrArg length legs
    have positive : 0 < (waypointPoints matching.indices tidied.parameters.waypoints).length := by
      have := length_pos_of_mem first
      rwa [← places, length_map] at this
    rw [length_map, length_map, length_zip, length_tail] at lengths
    omega
  have numbers : numbered (makeTracepoints parameters tidied [matching]) = (Tidy.keptWaypoints parameters keep).zipIdx := by
    rw [numbered, makeTracepoints, length_makeTracepointsFrom, length_range, numbered_from given]
    congr 1
    apply filter_congr
    intro i here
    have inside := mem_range.1 here
    rw [spec.removed i inside, spec.was]
    cases kept : keep i with
    | false => rfl
    | true =>
      cases was : Tidy.wasWaypoint parameters i with
      | false => rw [Bool.and_false, Bool.and_false]
      | true =>
        -- a waypoint that is kept is one after tidying, so it is matched
        have waypoint := (spec.parameters.mem _).2 ⟨i, inside, was, Tidy.rank_of_kept kept⟩
        have matched := (matchingIndices_isSome tidied matching i).2
          ⟨_, found _ waypoint, by rw [spec.tidied, Tidy.getD_rank inside kept]⟩
        rw [matched]
        rfl
  constructor
  · intro ⟨points, _, _, length, numbers', _⟩
    apply spec.eq_of_length
    have lengths := congrArg List.length (numbers.symm.trans numbers')
    rw [length_zipIdx, length_zipIdx, length_map] at lengths
    rw [← originals, length_map, count, lengths, length]
  · intro same
    refine ⟨_, pairwise_lt_range.filter _, ?_, count, ?_, legs⟩
    · intro p here
      exact mem_range.1 (mem_filter.1 here).1
    · rw [numbers, same, ← originals]
      rfl

namespace MatchPlugin

variable {parameters : MatchParameters} (plugin : MatchPlugin V)

/-- The routes of the request are found, as asserted after the search. -/
def Routed (plugin : MatchPlugin V) (parameters : MatchParameters) : Prop :=
  ∀ tidied, plugin.tidied parameters = some tidied → ∀ matching ∈ plugin.subMatchings parameters tidied,
    (plugin.shortestPathSearch matching.nodes).legs.length + 1 = matching.nodes.length

/-- What stands for a waypoint after tidying is a waypoint itself. -/
def RepresentedByWaypoints (plugin : MatchPlugin V) (parameters : MatchParameters) : Prop :=
  parameters.tidy = true → ∀ w ∈ parameters.waypoints, w + 1 < parameters.coordinates.length →
    ∀ a, Tidy.Represents (Tidy.overThresholds plugin.facade.greatCircleDistance parameters ⟨15, 5⟩) a w → a ∈ parameters.waypoints

omit [Inhabited (PhantomNode V)] in
theorem tidied_spec (nonempty : 0 < parameters.coordinates.length) (first : 0 ∈ parameters.waypoints) :
    ∃ tidied keep, plugin.tidied parameters = some tidied ∧ Tidy.Tidied parameters keep tidied ∧ keep 0 = true ∧
      (Tidy.keptWaypoints parameters keep = Tidy.representatives tidied ↔ plugin.RepresentedByWaypoints parameters) := by
  have given := isEmpty_eq_false_iff.2 (ne_nil_of_mem first)
  have was (i : ℕ) := Tidy.wasWaypoint_iff (i := i) given
  unfold RepresentedByWaypoints tidied
  cases tidy : parameters.tidy with
  | false =>
    have spec := Tidy.keepAll_tidied given
    refine ⟨_, _, rfl, spec, rfl, ?_⟩
    rw [spec.eq_representatives_iff]
    refine iff_of_true ?_ fun no => absurd no Bool.false_ne_true
    intro w inside here a _ le quiet
    obtain rfl : a = w := by
      by_contra other
      cases quiet w (by omega) le_rfl
    exact here
  | true =>
    obtain ⟨tidied, result, spec⟩ := Tidy.tidy_tidied plugin.facade.greatCircleDistance ⟨15, 5⟩ ((was 0).2 first) nonempty
    refine ⟨tidied, _, result, spec, by simp [Tidy.kept, Tidy.lastPassed], ?_⟩
    rw [spec.eq_representatives_iff]
    constructor
    · intro all _ w here inside a represents
      obtain ⟨kept, le, quiet⟩ := (Tidy.kept_iff_represents inside).2 represents
      exact (was a).1 (all w (by omega) ((was w).2 here) a kept le quiet)
    · intro all w inside here a kept le quiet
      rw [was] at here ⊢
      by_cases last : w + 1 = parameters.coordinates.length
      · -- the last coordinate is kept, so it stands for itself
        obtain rfl : a = w := by
          by_contra other
          have removed := quiet w (by omega) le_rfl
          rw [Tidy.kept, decide_eq_true last] at removed
          cases removed
        exact here
      · exact all rfl w here (by omega) a ((Tidy.kept_iff_represents (by omega)).1 ⟨kept, le, quiet⟩)

/-- **Waypoints and legs.** For a request with the first coordinate among its waypoints that is answered with tracepoints, these
agree with the legs of the route if and only if every coordinate that stands for a waypoint after tidying is a waypoint. -/
theorem handleRequest_waypoints_iff (parameters : MatchParameters)
    (nonempty : 0 < parameters.coordinates.length) (first : 0 ∈ parameters.waypoints) (routed : plugin.Routed parameters)
    {response : MatchResponse V} {tracepoints : List (Option (Tracepoint V))}
    (handled : plugin.handleRequest parameters = some (.ok response)) (shown : response.tracepoints = some tracepoints) :
    ∃ tidied matching route, plugin.tidied parameters = some tidied ∧ plugin.subMatchings parameters tidied = [matching] ∧
      response.matchings = [(route, matching.confidence)] ∧
      (WaypointsAgree tidied matching (plugin.shortestPathSearch matching.nodes) route tracepoints ↔
        plugin.RepresentedByWaypoints parameters) := by
  have given := isEmpty_eq_false_iff.2 (ne_nil_of_mem first)
  obtain ⟨tidied, keep, result, spec, kept, condition⟩ := plugin.tidied_spec nonempty first
  have answered : plugin.handleTidied parameters tidied = .ok response := by
    unfold handleRequest at handled
    split at handled
    · cases handled
    · rw [result] at handled
      exact Option.some.inj handled
  obtain ⟨matching, one, rfl, ends, found⟩ := handleTidied_ok given answered
  have matched := subMatchings_matched (one ▸ mem_singleton_self matching)
  have inside : ∀ i ∈ matching.indices, i ≤ tidied.parameters.coordinates.length - 1 := by
    intro i here
    have lt : i < (plugin.candidates tidied.parameters).length := matched.inside here
    rw [plugin.length_candidates] at lt
    omega
  have start : 0 ∈ tidied.parameters.waypoints := by
    apply (spec.parameters.mem 0).2
    exact ⟨0, nonempty, (Tidy.wasWaypoint_iff given).2 first, Tidy.rank_of_kept kept⟩
  have legs := routed tidied result matching (one ▸ mem_singleton_self matching)
  rw [matched.length] at legs
  have agree := waypointsAgree_iff spec given matched.increasing found start (mem_of_getLast? ends) inside legs
  refine ⟨tidied, matching, _, result, one, rfl, ?_⟩
  rw [← condition, ← agree]
  simp only [makeResponse] at shown
  split_ifs at shown
  rw [← Option.some.inj shown, subRoute, given]
  rfl

/-- A plugin for coordinates on one road, of which each is matched where it is. -/
def onOneRoad : MatchPlugin ℕ where
  hasMapMatching := true
  checkAlgorithms _ := none
  maxLocationsMapMatching := 100
  maxRadiusMapMatching := 0
  facade :=
    { greatCircleDistance := fun c d => |(c.lon : ℚ) - d.lon|
      getNetworkDistance := fun p q _ => |(p.forwardWeight : ℚ) - q.forwardWeight|
      transitionLogProbability := fun d => -d
      confidence := fun _ _ => 1
      mapMatchingMaxSpeed := 50
      weightMultiplier := 10 }
  candidates params := params.coordinates.map fun c => [phantomAt c.lon]
  length_candidates _ := length_map _
  emissionLogProbabilities _ _ _ := (-4 : ℚ)
  shortestPathSearch nodes := ⟨zipWith (fun p q => legBetween p.forwardWeight q.forwardWeight []) nodes nodes.tail, 0⟩

instance : Inhabited (PhantomNode ℕ) := ⟨phantomAt 0⟩

theorem routed_onOneRoad (parameters : MatchParameters) : onOneRoad.Routed parameters := by
  intro tidied _ matching here
  have matched := subMatchings_matched here
  have several := matched.several
  rw [← matched.length] at several
  simp only [onOneRoad, length_zipWith, length_tail]
  omega

/-- Four coordinates, of which the third one is dropped. -/
def closeCoordinates (waypoints : List ℕ) : MatchParameters where
  coordinates := [⟨0, 0⟩, ⟨20, 0⟩, ⟨25, 0⟩, ⟨45, 0⟩]
  waypoints := waypoints
  tidy := true

/-- The number of legs of each route, and the numbered tracepoints. -/
def summary : Option (Except RequestError (MatchResponse ℕ)) → Option (List ℕ × Option (List (ℕ × ℕ)))
  | some (.ok response) => some (response.matchings.map (·.1.legs.length), response.tracepoints.map numbered)
  | _ => none

theorem summary_eq {answer : Option (Except RequestError (MatchResponse ℕ))} {legs : ℕ} {numbers : List (ℕ × ℕ)}
    (summarised : summary answer = some ([legs], some numbers)) : ∃ response tracepoints, answer = some (.ok response) ∧
      response.tracepoints = some tracepoints ∧ response.matchings.map (·.1.legs.length) = [legs] ∧
      numbered tracepoints = numbers := by
  match answer with
  | none => cases summarised
  | some (.error _) => cases summarised
  | some (.ok ⟨matchings, none⟩) =>
    have parts := Prod.mk.inj (Option.some.inj summarised)
    cases parts.2
  | some (.ok ⟨matchings, some tracepoints⟩) =>
    have parts := Prod.mk.inj (Option.some.inj summarised)
    exact ⟨_, tracepoints, rfl, rfl, parts.1, Option.some.inj parts.2⟩

/-- The dropped waypoint is represented by another one. -/
theorem handleRequest_waypoints_iff_closeCoordinates : ∃ response tracepoints tidied matching route,
    onOneRoad.handleRequest (closeCoordinates [0, 1, 2, 3]) = some (.ok response) ∧ response.tracepoints = some tracepoints ∧
      onOneRoad.subMatchings (closeCoordinates [0, 1, 2, 3]) tidied = [matching] ∧
      response.matchings = [(route, matching.confidence)] ∧ route.legs.length = 2 ∧ numbered tracepoints = [(0, 0), (1, 1), (3, 2)] ∧
      WaypointsAgree tidied matching (onOneRoad.shortestPathSearch matching.nodes) route tracepoints := by
  have answered : summary (onOneRoad.handleRequest (closeCoordinates [0, 1, 2, 3])) = some ([2], some [(0, 0), (1, 1), (3, 2)]) := by
    decide +kernel
  obtain ⟨response, tracepoints, handled, shown, legs, numbers⟩ := summary_eq answered
  obtain ⟨tidied, matching, route, -, one, routes, agree⟩ :=
    handleRequest_waypoints_iff onOneRoad (closeCoordinates [0, 1, 2, 3]) (by decide) (by decide) (routed_onOneRoad _) handled shown
  rw [routes] at legs
  refine ⟨response, tracepoints, tidied, matching, route, handled, shown, one, routes, head_eq_of_cons_eq legs, numbers, agree.2 ?_⟩
  intro _ w _ inside a represents
  have le := represents.2.1
  have inside : w + 1 < 4 := inside
  exact mem_range.2 (show a < 4 by omega)

/-- The dropped waypoint is represented by a coordinate that is not a waypoint: the route has two legs, but only two tracepoints
are numbered. -/
theorem handleRequest_waypoints_closeCoordinates : ∃ response tracepoints,
    onOneRoad.handleRequest (closeCoordinates [0, 2, 3]) = some (.ok response) ∧ response.tracepoints = some tracepoints ∧
      response.matchings.map (·.1.legs.length) = [2] ∧ numbered tracepoints = [(0, 0), (3, 1)] ∧
      ∀ tidied matching leggy, ∀ route ∈ response.matchings.map (·.1), ¬ WaypointsAgree tidied matching leggy route tracepoints := by
  have answered : summary (onOneRoad.handleRequest (closeCoordinates [0, 2, 3])) = some ([2], some [(0, 0), (3, 1)]) := by
    decide +kernel
  obtain ⟨response, tracepoints, handled, shown, legs, numbers⟩ := summary_eq answered
  refine ⟨response, tracepoints, handled, shown, legs, numbers, ?_⟩
  intro tidied matching leggy route here ⟨points, _, _, count, numbers', _⟩
  have two : route.legs.length = 2 := by
    rw [← mem_singleton, ← legs]
    obtain ⟨entry, member, rfl⟩ := mem_map.1 here
    exact mem_map_of_mem member
  have lengths := congrArg length (numbers.symm.trans numbers')
  rw [length_zipIdx, length_map, count, two] at lengths
  cases lengths

end MatchPlugin

end Osrm
