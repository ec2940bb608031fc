import Osrm.Engine.LiveDataStore
import Osrm.Engine.PhantomNode
import Osrm.Util.Coordinate
import Mathlib.Algebra.BigOperators.Group.Finset.Basic
import Mathlib.Data.List.MinMax

/-!
# Aggregating the pending samples

`aggregatePendingTrafficSamples` takes the pending samples, groups those that are fresh and snap
to a road by geometry and user, keeps the newest of each user, and stores one average for each
geometry of the round. The snapping is a parameter: `LiveFacade` has what the aggregation and the
traffic response ask the data facade for.

`get_aggregate` is the specification of a whole round.
-/

namespace Osrm.Live

open List Std.TreeMap

/-- The facade, as far as live traffic uses it: the forward segment ids of the nearest phantoms, the geometry of an
edge-based node, and the coordinates of a geometry. -/
structure LiveFacade where
  nearestPhantomNodes : Coordinate → List (SegmentID ℕ)
  getGeometryIndex : ℕ → ℕ
  coordinates : ℕ → List Coordinate

variable (facade : LiveFacade)

/-- The factor of a speed. What is not a number compares as false and has no number as its quotient. -/
def computeTrafficWeightFactor : Option ℚ → Option ℚ
  | none => none
  | some speedKmh =>
    if speedKmh ≤ 1 / 2 then some 10
    else
      let factor := toDouble (50 / speedKmh)
      some (if factor > 10 then 10 else factor)

/-- A segment weight scaled by live traffic. The conversion of what is not a number to an integer has no defined result;
processors give `0`. -/
def scaledWeight (factor : Option ℚ) (weight : ℕ) : ℕ := factor.elim 0 fun factor => (stdRound (toDouble (weight * factor))).toNat

def applyLiveTrafficToSegmentWeights (store : LiveDataStore) (geometryId : ℕ) (weights : List ℕ) : List ℕ :=
  match store.liveSegment geometryId with
  | none => weights
  | some live => weights.map (scaledWeight live.weightFactor)

abbrev UserSamples := Std.TreeMap ℕ TrafficSample

/-- The geometry that a sample counts for, if it snaps to one. -/
def LiveFacade.snap (sample : TrafficSample) : Option ℕ :=
  match facade.nearestPhantomNodes (toFixed sample.longitude sample.latitude) with
  | [] => none
  | forwardSegment :: _ => if forwardSegment.enabled then some (facade.getGeometryIndex forwardSegment.id) else none

/-- Keep a sample unless the user already has a newer one. -/
def recordSample (userSamples : UserSamples) (sample : TrafficSample) : UserSamples :=
  match userSamples[sample.userId]? with
  | none => userSamples.insert sample.userId sample
  | some existing =>
    if sample.timestampMs ≥ existing.timestampMs then userSamples.insert sample.userId sample else userSamples

/-- One iteration of the grouping loop. -/
def groupSample (now staleSeconds : ℤ) (grouped : Std.TreeMap ℕ UserSamples)
    (sample : TrafficSample) : Std.TreeMap ℕ UserSamples :=
  if sample.timestampMs + staleSeconds * 1000 < now then grouped
  else
    match facade.snap sample with
    | none => grouped
    | some geometryId => grouped.insert geometryId (recordSample (grouped.getD geometryId ∅) sample)

/-- The data stored for the samples of one geometry, in the order in which the map lists them. -/
def averageOf (samples : List TrafficSample) : TrafficEdgeData :=
  let count := samples.length
  let speedKmh := (samples.map (·.speedKmh)).sum / count
  { speedKmh := speedKmh
    weightFactor := computeTrafficWeightFactor (some speedKmh)
    bearingDeg := (samples.map (·.bearingDeg)).sum / count
    latitude := (samples.map (·.latitude)).sum / count
    longitude := (samples.map (·.longitude)).sum / count
    timestampMs := (samples.map (·.timestampMs)).foldl max 0
    sampleCount := count % 2 ^ 32
    source := .live }

/-- The data stored for the users of one geometry. -/
def averageData (userSamples : UserSamples) : TrafficEdgeData :=
  averageOf (userSamples.toList.map (·.2))

def aggregatePendingTrafficSamples (now staleSeconds : ℤ) (store : LiveDataStore) : LiveDataStore :=
  let (samples, taken) := store.takePendingSamples
  if samples.isEmpty then taken
  else
    let grouped := samples.foldl (groupSample facade now staleSeconds) ∅
    let updated := grouped.toList.foldl (fun store entry => store.update entry.1 (averageData entry.2)) taken
    updated.removeStaleSegments now staleSeconds

/-! ## Reports of users -/

variable {l : List TrafficSample} {sample : TrafficSample} {user : ℕ}

/-- The samples of `l` that count for a geometry. -/
def LiveFacade.reports (facade : LiveFacade) (g : ℕ) (l : List TrafficSample) : List TrafficSample :=
  l.filter fun sample => facade.snap sample = some g

def users (l : List TrafficSample) : Finset ℕ := (l.map (·.userId)).toFinset

/-- The newest sample of a user; of equally new ones, the one that arrived last. -/
def latest (l : List TrafficSample) (user : ℕ) : Option TrafficSample :=
  @List.argmax _ ℤ Int.instLinearOrder.toPreorder _ (·.timestampMs) (l.filter (·.userId = user)).reverse

/-- The speeds of the newest samples of all users, added up. -/
def speedSum (l : List TrafficSample) : ℚ := ∑ user ∈ users l, ((latest l user).map (·.speedKmh)).getD 0

/-- The samples of one geometry as the grouping loop collects them. -/
def collect (l : List TrafficSample) : UserSamples := l.foldl recordSample ∅

variable (l sample user) in
theorem latest_concat :
    latest (l ++ [sample]) user =
      if sample.userId = user then
        match latest l user with
        | none => some sample
        | some existing => if sample.timestampMs < existing.timestampMs then some existing else some sample
      else latest l user := by
  unfold latest
  by_cases own : sample.userId = user
  · simp only [filter_append, own, filter_cons, decide_true, if_true, filter_nil, reverse_append,
      reverse_singleton, singleton_append, argmax_cons]
    cases @List.argmax _ ℤ Int.instLinearOrder.toPreorder _ (·.timestampMs) (l.filter (·.userId = user)).reverse <;> rfl
  · simp [own]

theorem recordSample_getElem? (m : UserSamples) (sample : TrafficSample) (user : ℕ) :
    (recordSample m sample)[user]? =
      if sample.userId = user then
        match m[user]? with
        | none => some sample
        | some existing => if sample.timestampMs < existing.timestampMs then some existing else some sample
      else m[user]? := by
  unfold recordSample
  by_cases own : sample.userId = user
  · subst own
    cases h : m[sample.userId]? with
    | none => simp
    | some existing =>
      by_cases newer : sample.timestampMs < existing.timestampMs
      · simp [h, not_le.2 newer]
      · simp [not_lt.1 newer]
  · split
    · simp [Std.TreeMap.getElem?_insert, own]
    · split
      · simp [Std.TreeMap.getElem?_insert, own]
      · rfl

theorem collect_concat (l : List TrafficSample) (sample : TrafficSample) :
    collect (l ++ [sample]) = recordSample (collect l) sample := by
  simp [collect]

/-- The loop keeps the newest sample of each user. -/
theorem collect_getElem? (l : List TrafficSample) (user : ℕ) : (collect l)[user]? = latest l user := by
  induction l using reverseRecOn with
  | nil => exact getElem?_emptyc
  | append_singleton l sample ih => rw [collect_concat, recordSample_getElem?, latest_concat, ih]

theorem latest_eq_none : latest l user = none ↔ user ∉ users l := by
  unfold latest users
  simp

theorem latest_mem (h : latest l user = some sample) : sample ∈ l ∧ sample.userId = user := by
  have := argmax_mem (Option.mem_def.2 h)
  simpa only [mem_reverse, mem_filter, decide_eq_true_eq] using this

theorem le_latest (h : latest l user = some sample) {other : TrafficSample} (member : other ∈ l) (own : other.userId = user) :
    other.timestampMs ≤ sample.timestampMs := by
  apply le_of_mem_argmax _ (Option.mem_def.2 h)
  simp [member, own]

theorem collect_keys (l : List TrafficSample) : (collect l).keys.toFinset = users l := by
  ext user
  rw [mem_toFinset, Std.TreeMap.mem_keys, mem_iff_isSome_getElem?, collect_getElem?,
    Option.isSome_iff_ne_none, Ne, latest_eq_none, not_not]

/-- As many samples are kept as there are users. -/
theorem collect_length (l : List TrafficSample) : ((collect l).toList.map (·.2)).length = (users l).card := by
  rw [← collect_keys, toFinset_card_of_nodup nodup_keys, length_map, length_keys,
    length_toList]

/-- A sum over the kept samples is a sum over the users. -/
theorem collect_sum (f : TrafficSample → ℚ) (l : List TrafficSample) :
    (((collect l).toList.map (·.2)).map f).sum = ∑ user ∈ users l, ((latest l user).map f).getD 0 := by
  have entries : ((collect l).toList.map (·.2)).map f =
      (collect l).keys.map fun user => ((latest l user).map f).getD 0 := by
    rw [← map_fst_toList_eq_keys, map_map, map_map]
    apply map_congr_left
    intro entry member
    have found := mem_toList_iff_getElem?_eq_some.1 member
    rw [collect_getElem?] at found
    simp [found]
  rw [entries, ← collect_keys, sum_toFinset _ nodup_keys]

theorem foldl_max_mem (times : List ℤ) : times.foldl max 0 = 0 ∨ times.foldl max 0 ∈ times := by
  refine foldlRecOn (motive := fun latest => latest = 0 ∨ latest ∈ times) times max (.inl rfl) fun latest before time mem => ?_
  rcases max_choice latest time with h | h
  · rwa [h]
  · exact .inr (h.symm ▸ mem)

/-- The stored timestamp is that of a sample, unless all are negative. -/
theorem averageData_timestamp (l : List TrafficSample) :
    (averageData (collect l)).timestampMs = 0 ∨
      ∃ sample ∈ l, (averageData (collect l)).timestampMs = sample.timestampMs := by
  rcases foldl_max_mem (((collect l).toList.map (·.2)).map (·.timestampMs)) with zero | member
  · exact .inl zero
  · obtain ⟨sample, kept, time⟩ := mem_map.1 member
    obtain ⟨entry, inside, rfl⟩ := mem_map.1 kept
    have found := mem_toList_iff_getElem?_eq_some.1 inside
    rw [collect_getElem?] at found
    exact .inr ⟨entry.2, (latest_mem found).1, time.symm⟩

/-- The loop for the stored timestamp. -/
theorem le_foldl_max (times : List ℤ) (start : ℤ) :
    start ≤ times.foldl max start ∧ ∀ time ∈ times, time ≤ times.foldl max start := by
  induction times generalizing start with
  | nil => exact ⟨le_rfl, by simp⟩
  | cons time rest ih =>
    have ⟨base, later⟩ := ih (max start time)
    refine ⟨(le_max_left _ _).trans base, ?_⟩
    intro other inside
    rcases mem_cons.1 inside with rfl | inRest
    · exact (le_max_right _ _).trans base
    · exact later other inRest

/-- No sample of the round is newer than the stored timestamp. -/
theorem le_averageData_timestamp (member : sample ∈ l) :
    sample.timestampMs ≤ (averageData (collect l)).timestampMs := by
  have known : sample.userId ∈ users l := by
    simp only [users, mem_toFinset]
    exact mem_map_of_mem member
  cases newest : latest l sample.userId with
  | none => exact absurd known (latest_eq_none.1 newest)
  | some kept =>
    apply (le_latest newest member rfl).trans
    apply (le_foldl_max _ 0).2
    apply mem_map_of_mem (f := fun sample : TrafficSample => sample.timestampMs)
    apply mem_map.2
    refine ⟨(sample.userId, kept), ?_, rfl⟩
    rw [mem_toList_iff_getElem?_eq_some, collect_getElem?, newest]

/-- The stored timestamp is the newest of all samples. -/
theorem averageData_timestamp_eq (l : List TrafficSample) :
    (averageData (collect l)).timestampMs = (l.map (·.timestampMs)).foldl max 0 := by
  apply le_antisymm
  · rcases averageData_timestamp l with zero | ⟨sample, mem, same⟩
    · exact zero ▸ (le_foldl_max _ 0).1
    · exact same ▸ (le_foldl_max _ 0).2 _ (mem_map_of_mem mem)
  · rcases foldl_max_mem (l.map (·.timestampMs)) with zero | mem
    · rw [zero]
      exact (le_foldl_max _ 0).1
    · obtain ⟨sample, hs, same⟩ := mem_map.1 mem
      exact same ▸ le_averageData_timestamp hs

/-! ## One round -/

/-- The samples that the round does not skip for their age. -/
def freshSamples (now staleSeconds : ℤ) (l : List TrafficSample) : List TrafficSample :=
  l.filter fun sample => ¬ sample.timestampMs + staleSeconds * 1000 < now

section Round

variable (facade : LiveFacade) (now staleSeconds : ℤ)

theorem groupSample_getElem? (grouped : Std.TreeMap ℕ UserSamples) (sample : TrafficSample) (g : ℕ) :
    (groupSample facade now staleSeconds grouped sample)[g]? =
      if ¬ sample.timestampMs + staleSeconds * 1000 < now ∧ facade.snap sample = some g then
        some (recordSample (grouped.getD g ∅) sample)
      else grouped[g]? := by
  unfold groupSample
  by_cases old : sample.timestampMs + staleSeconds * 1000 < now
  · simp [old]
  · cases snapped : facade.snap sample with
    | none => simp [old]
    | some g' =>
      by_cases here : g' = g
      · subst here
        simp [old]
      · simp [old, here, Std.TreeMap.getElem?_insert]

theorem fresh_reports_concat (l : List TrafficSample) (sample : TrafficSample) (g : ℕ) :
    facade.reports g (freshSamples now staleSeconds (l ++ [sample])) =
      facade.reports g (freshSamples now staleSeconds l) ++
        if ¬ sample.timestampMs + staleSeconds * 1000 < now ∧ facade.snap sample = some g then [sample] else [] := by
  unfold LiveFacade.reports freshSamples
  by_cases old : sample.timestampMs + staleSeconds * 1000 < now
  · simp [old]
  · by_cases here : facade.snap sample = some g
    · rw [if_pos ⟨old, here⟩]
      simpa [here] using old
    · simp [here]

/-- The grouping loop collects, for each geometry, the fresh samples that snap to it. -/
theorem grouped_getElem? (l : List TrafficSample) (g : ℕ) :
    (l.foldl (groupSample facade now staleSeconds) ∅)[g]? =
      if facade.reports g (freshSamples now staleSeconds l) = [] then none
      else some (collect (facade.reports g (freshSamples now staleSeconds l))) := by
  induction l using reverseRecOn with
  | nil => simp [LiveFacade.reports, freshSamples]
  | append_singleton l sample ih =>
    rw [foldl_append, foldl_cons, foldl_nil, groupSample_getElem?, fresh_reports_concat]
    by_cases counts : ¬ sample.timestampMs + staleSeconds * 1000 < now ∧ facade.snap sample = some g
    · have before : (l.foldl (groupSample facade now staleSeconds) ∅).getD g ∅ =
          collect (facade.reports g (freshSamples now staleSeconds l)) := by
        rw [getD_eq_getD_getElem?, ih]
        split_ifs with none
        · rw [none]
          rfl
        · rfl
      rw [if_pos counts, if_pos counts, if_neg (by simp), collect_concat, before]
    · rw [if_neg counts, if_neg counts, append_nil, ih]

variable (entries : List (ℕ × UserSamples)) (store : LiveDataStore)

/-- The updates of a round, one for each entry of a list with distinct geometries. -/
theorem get_updates_other (g : ℕ)
    (other : ∀ entry ∈ entries, entry.1 ≠ g) :
    (entries.foldl (fun store entry => store.update entry.1 (averageData entry.2)) store).get g = store.get g := by
  refine foldlRecOn (motive := fun now : LiveDataStore => now.get g = store.get g) entries _ rfl fun now same entry member => ?_
  rw [LiveDataStore.get_update, if_neg (other entry member), same]

theorem get_updates_same (distinct : (entries.map (·.1)).Nodup) (store : LiveDataStore)
    (g : ℕ) (userSamples : UserSamples) (selected : (g, userSamples) ∈ entries) :
    (entries.foldl (fun store entry => store.update entry.1 (averageData entry.2)) store).get g =
      some (averageData userSamples) := by
  induction entries generalizing store with
  | nil => cases selected
  | cons entry rest ih =>
    have unique := nodup_cons.1 distinct
    rcases mem_cons.1 selected with here | tail
    · subst entry
      rw [foldl_cons, get_updates_other]
      · simp
      · intro later member equal
        exact unique.1 (mem_map.2 ⟨later, member, equal⟩)
    · exact ih unique.2 _ tail

variable {facade now staleSeconds} (store : LiveDataStore)

/-- **One round**: what is stored for a geometry afterwards. -/
theorem get_aggregate (pending : store.pendingSamples ≠ []) (g : ℕ) :
    (aggregatePendingTrafficSamples facade now staleSeconds store).get g =
      (if facade.reports g (freshSamples now staleSeconds store.pendingSamples) = [] then store.get g
        else some (averageData (collect (facade.reports g (freshSamples now staleSeconds store.pendingSamples))))).filter
        fun data => !decide (data.Expired now staleSeconds) := by
  unfold aggregatePendingTrafficSamples
  simp only [LiveDataStore.takePendingSamples, List.isEmpty_iff, pending, if_false, LiveDataStore.get_removeStaleSegments]
  congr 1
  have grouped := grouped_getElem? facade now staleSeconds store.pendingSamples g
  split at grouped
  · rename_i none
    rw [if_pos none, get_updates_other]
    · rfl
    · rintro ⟨g', userSamples⟩ member rfl
      rw [mem_toList_iff_getElem?_eq_some, grouped] at member
      cases member
  · rename_i some
    rw [if_neg some]
    apply get_updates_same
    · rw [map_fst_toList_eq_keys]
      exact nodup_keys
    · rw [mem_toList_iff_getElem?_eq_some, grouped]

/-- Without pending samples nothing happens, and nothing is purged. -/
theorem aggregate_idle (idle : store.pendingSamples = []) :
    aggregatePendingTrafficSamples facade now staleSeconds store = store := by
  cases store
  subst idle
  rfl

/-- The updates change nothing but the segments. -/
theorem updates_frame :
    (entries.foldl (fun store entry => store.update entry.1 (averageData entry.2)) store).pendingSamples =
        store.pendingSamples ∧
      (entries.foldl (fun store entry => store.update entry.1 (averageData entry.2)) store).staleSeconds =
        store.staleSeconds := by
  induction entries generalizing store with
  | nil => exact ⟨rfl, rfl⟩
  | cons entry rest ih => exact ih _

@[simp] theorem pendingSamples_aggregate :
    (aggregatePendingTrafficSamples facade now staleSeconds store).pendingSamples = [] := by
  unfold aggregatePendingTrafficSamples
  simp only
  split
  · rfl
  · exact (updates_frame _ _).1

@[simp] theorem staleSeconds_aggregate :
    (aggregatePendingTrafficSamples facade now staleSeconds store).staleSeconds = store.staleSeconds := by
  unfold aggregatePendingTrafficSamples
  simp only
  split
  · rfl
  · exact (updates_frame _ _).2

/-! ## Order of the samples -/

theorem averageOf_perm {samples samples' : List TrafficSample} (perm : samples.Perm samples') :
    averageOf samples = averageOf samples' := by
  unfold averageOf
  simp only [perm.length_eq, (perm.map _).sum_eq, (perm.map _).foldl_eq]

theorem latest_perm {l l' : List TrafficSample} (perm : l.Perm l')
    (single : ∀ sample ∈ l, ∀ other ∈ l, sample.userId = other.userId → sample.timestampMs = other.timestampMs →
      sample = other) (user : ℕ) :
    latest l user = latest l' user := by
  have known : users l = users l' := toFinset_eq_of_perm _ _ (perm.map _)
  cases found : latest l user with
  | none => exact (latest_eq_none.2 (known ▸ latest_eq_none.1 found)).symm
  | some sample =>
    cases found' : latest l' user with
    | none =>
      rw [latest_eq_none, ← known, ← latest_eq_none, found] at found'
      cases found'
    | some other =>
      obtain ⟨mem, own⟩ := latest_mem found
      obtain ⟨mem', own'⟩ := latest_mem found'
      have older := le_latest found (perm.mem_iff.2 mem') own'
      have newer := le_latest found' (perm.mem_iff.1 mem) own
      exact congrArg some (single sample mem other (perm.mem_iff.2 mem') (own.trans own'.symm) (newer.antisymm older))

/-- Maps that hold the same average the same, whatever the order in which they list their entries. -/
theorem averageOf_listed {m m' : UserSamples} (same : ∀ user : ℕ, m[user]? = m'[user]?) {listed : List TrafficSample}
    (perm : listed.Perm (m'.toList.map (·.2))) : averageOf listed = averageData m := by
  have nodup : ∀ m : UserSamples, m.toList.Nodup := by
    intro m
    apply Nodup.of_map (·.1)
    rw [map_fst_toList_eq_keys]
    exact nodup_keys
  apply averageOf_perm
  apply perm.trans
  apply Perm.map
  rw [perm_ext_iff_of_nodup (nodup m') (nodup m)]
  intro entry
  rw [mem_toList_iff_getElem?_eq_some, mem_toList_iff_getElem?_eq_some, same]

/-- Different reports of one user on one geometry have different times. -/
def LiveFacade.OneAtATime (facade : LiveFacade) (l : List TrafficSample) : Prop :=
  ∀ g, ∀ sample ∈ facade.reports g l, ∀ other ∈ facade.reports g l,
    sample.userId = other.userId → sample.timestampMs = other.timestampMs → sample = other

/-- **A round does not depend on the order** of the pending samples, nor on that in which a map lists its entries. -/
theorem aggregate_perm {l l' : List TrafficSample} (perm : l.Perm l') (single : facade.OneAtATime l) (g : ℕ) :
    (aggregatePendingTrafficSamples facade now staleSeconds { store with pendingSamples := l }).get g =
        (aggregatePendingTrafficSamples facade now staleSeconds { store with pendingSamples := l' }).get g ∧
      ∀ listed : List TrafficSample,
        listed.Perm ((collect (facade.reports g (freshSamples now staleSeconds l'))).toList.map (·.2)) →
          averageOf listed = averageData (collect (facade.reports g (freshSamples now staleSeconds l))) := by
  set reports := facade.reports g (freshSamples now staleSeconds l) with reports_eq
  set reports' := facade.reports g (freshSamples now staleSeconds l') with reports_eq'
  have reported : reports.Perm reports' := (perm.filter _).filter _
  have fresh : reports ⊆ facade.reports g l := (filter_sublist.filter _).subset
  have same : ∀ user : ℕ, (collect reports)[user]? = (collect reports')[user]? := by
    intro user
    rw [collect_getElem?, collect_getElem?]
    apply latest_perm reported
    exact fun sample inside other inside' => single g sample (fresh inside) other (fresh inside')
  refine ⟨?_, fun listed order => averageOf_listed same order⟩
  by_cases idle : l = []
  · subst idle
    rw [perm.nil_eq]
  · have nil_iff : ∀ {a b : List TrafficSample}, a.Perm b → (a = [] ↔ b = []) := by
      intro a b perm
      rw [← length_eq_zero_iff, perm.length_eq, length_eq_zero_iff]
    rw [get_aggregate _ idle, get_aggregate _ (mt (nil_iff perm).2 idle)]
    simp only [← reports_eq, ← averageOf_listed same (Perm.refl _), nil_iff reported]
    rfl

/-- Two users on one road, one of them with an older sample. -/
theorem aggregate_perm_two_users :
    let facade : LiveFacade := ⟨fun _ => [⟨0, true⟩], id, fun _ => []⟩
    let samples : List TrafficSample := [⟨1, 0, 0, 30, 0, 10⟩, ⟨1, 0, 0, 20, 0, 5⟩, ⟨2, 0, 0, 60, 0, 5⟩]
    (aggregatePendingTrafficSamples facade 10 120 { pendingSamples := samples }).get 0 =
      (aggregatePendingTrafficSamples facade 10 120 { pendingSamples := samples.reverse }).get 0 := by
  intro facade samples
  have single : ∀ sample ∈ samples, ∀ other ∈ samples,
      sample.userId = other.userId → sample.timestampMs = other.timestampMs → sample = other := by
    simp [samples]
  refine (aggregate_perm {} (reverse_perm samples).symm ?_ 0).1
  exact fun g sample mem other mem' => single sample (mem_of_mem_filter mem) other (mem_of_mem_filter mem')

end Round

end Osrm.Live
