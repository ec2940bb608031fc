import Mathlib.Data.Rat.Floor

/-!
# The store of live traffic data

One store is shared by the thread that receives samples and the threads that answer requests.
Each of its operations holds the lock for the whole of its work, so each is one function here.
Ids are natural numbers and times are integers; speeds, bearings and coordinates are rationals.
The factor of a segment is a double, which may be not a number (`none`).
-/

namespace Osrm

structure TrafficSample where
  userId : ℕ
  latitude : ℚ
  longitude : ℚ
  speedKmh : ℚ
  bearingDeg : ℚ
  timestampMs : ℤ
deriving DecidableEq, Repr

/-- The values of `TrafficEdgeData::source`. -/
inductive TrafficSource where
  | static
  | live
deriving DecidableEq, Repr

structure TrafficEdgeData where
  speedKmh : ℚ := 0
  weightFactor : Option ℚ := some 1
  bearingDeg : ℚ := 0
  latitude : ℚ := 0
  longitude : ℚ := 0
  timestampMs : ℤ := 0
  sampleCount : ℕ := 0
  source : TrafficSource := .static
deriving DecidableEq, Repr

structure LiveDataStore where
  segments : Std.TreeMap ℕ TrafficEdgeData := ∅
  pendingSamples : List TrafficSample := []
  staleSeconds : ℤ := 120

/-- The segment is too old at time `now`. -/
def TrafficEdgeData.Expired (data : TrafficEdgeData) (now staleSeconds : ℤ) : Prop :=
  now - data.timestampMs > staleSeconds * 1000

instance (data : TrafficEdgeData) (now staleSeconds : ℤ) : Decidable (data.Expired now staleSeconds) :=
  inferInstanceAs (Decidable (_ > _))

namespace LiveDataStore

variable (store : LiveDataStore)

def addSample (sample : TrafficSample) : LiveDataStore :=
  { store with pendingSamples := store.pendingSamples ++ [sample] }

/-- The pending samples, and the store without them. -/
def takePendingSamples : List TrafficSample × LiveDataStore :=
  (store.pendingSamples, { store with pendingSamples := [] })

def update (geometryId : ℕ) (data : TrafficEdgeData) : LiveDataStore :=
  { store with segments := store.segments.insert geometryId data }

def get (geometryId : ℕ) : Option TrafficEdgeData := store.segments[geometryId]?

/-- The segment that a query uses: the stored one, where its source is live. -/
def liveSegment (geometryId : ℕ) : Option TrafficEdgeData :=
  (store.get geometryId).filter (·.source = .live)

def getAllSegments : List (ℕ × TrafficEdgeData) := store.segments.toList

def removeStaleSegments (now staleSeconds : ℤ) : LiveDataStore :=
  { store with segments := store.segments.filter fun _ data => !decide (data.Expired now staleSeconds) }

def clear : LiveDataStore := { store with segments := ∅, pendingSamples := [] }

variable (store : LiveDataStore) (g g' : ℕ) (data : TrafficEdgeData) (now staleSeconds : ℤ)

@[simp] theorem get_clear : store.clear.get g = none := Std.TreeMap.getElem?_emptyc

@[simp] theorem get_update : (store.update g data).get g' = if g = g' then some data else store.get g' := by
  simp [get, update, Std.TreeMap.getElem?_insert]

@[simp] theorem get_removeStaleSegments : (store.removeStaleSegments now staleSeconds).get g =
    (store.get g).filter fun data => !decide (data.Expired now staleSeconds) :=
  Std.TreeMap.getElem?_filter'

theorem mem_getAllSegments : (g, data) ∈ store.getAllSegments ↔ store.get g = some data :=
  Std.TreeMap.mem_toList_iff_getElem?_eq_some

/-- A purge keeps what has not expired. -/
theorem get_removeStaleSegments_eq_some : (store.removeStaleSegments now staleSeconds).get g = some data ↔
    store.get g = some data ∧ ¬ data.Expired now staleSeconds := by
  simp [Option.filter_eq_some_iff]

end LiveDataStore

end Osrm
