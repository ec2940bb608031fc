import Mathlib.Data.List.Basic

/-!
# Segment data

What `SegmentDataContainer` stores for one geometry: its nodes in forward order, and for
each node the weight, duration and data source of the segment that leads to it. The first
node has no forward segment and the last one no reverse segment, so their entries are
skipped by the ranges. A range in reverse direction runs backwards through the storage.
-/

namespace Osrm.Extractor

/-- `INVALID_SEGMENT_WEIGHT` and `INVALID_SEGMENT_DURATION` -/
def invalidSegmentWeight : ℕ := 4194303

structure SegmentData where
  nodes : List ℕ
  fwdWeights : List ℕ
  revWeights : List ℕ
  fwdDurations : List ℕ
  revDurations : List ℕ
  fwdDatasources : List ℕ
  revDatasources : List ℕ
  two : 2 ≤ nodes.length
  aligned : ∀ l ∈ [fwdWeights, revWeights, fwdDurations, revDurations, fwdDatasources, revDatasources], l.length = nodes.length

namespace SegmentData

variable (s : SegmentData) (dir : Bool)

/-- A range over entries, by direction. -/
def range (fwd rev : List ℕ) (dir : Bool) : List ℕ := if dir then fwd.drop 1 else rev.dropLast.reverse

def geometry : List ℕ := if dir then s.nodes else s.nodes.reverse

def weights : List ℕ := range s.fwdWeights s.revWeights dir

def durations : List ℕ := range s.fwdDurations s.revDurations dir

def datasources : List ℕ := range s.fwdDatasources s.revDatasources dir

def size : ℕ := s.nodes.length - 1

theorem size_pos : 0 < s.size := by
  have := s.two
  unfold size
  omega

theorem length_range {fwd rev : List ℕ} (hf : fwd.length = s.nodes.length) (hr : rev.length = s.nodes.length) :
    (range fwd rev dir).length = s.size := by
  cases dir with
  | true => simp [range, hf, size]
  | false => simp [range, hr, size]

@[simp] theorem length_weights : (s.weights dir).length = s.size :=
  s.length_range dir (s.aligned _ (by simp)) (s.aligned _ (by simp))

@[simp] theorem length_geometry : (s.geometry dir).length = s.size + 1 := by
  have := s.two
  cases dir with
  | true =>
    show s.nodes.length = s.size + 1
    unfold size
    omega
  | false =>
    show s.nodes.reverse.length = s.size + 1
    rw [List.length_reverse, size]
    omega

end SegmentData

end Osrm.Extractor
