import Osrm.Lib.Failure
import Osrm.Extractor.SegmentData
import Osrm.Lib.SlotTable
import Osrm.Util.Typedefs

/-!
# The geometry of compressed edges

`CompressedEdgeContainer` keeps for each edge id a bucket: the nodes that the edge leads along,
each with the weight and the duration of the segment to it. `CompressEdge` appends the bucket of
an edge to that of the edge before it, with an entry for a penalty at the node between them.
`ZipEdges` writes the buckets of the two directions of a road into the segment data.
-/

namespace Osrm.Extractor

open Function List

open Lib

structure OnewayCompressedEdge (V : Type) where
  nodeId : V
  weight : ℕ
  duration : ℕ
  deriving DecidableEq, Repr

structure NodePenalty where
  weight : ℤ
  duration : ℤ
  deriving DecidableEq, Repr

namespace NodePenalty

/-- The values that stand for no penalty. -/
def unset : NodePenalty := ⟨invalidEdgeWeight, maximalEdgeDuration⟩

def IsSet (p : NodePenalty) : Prop := p.weight ≠ invalidEdgeWeight ∧ p.duration ≠ maximalEdgeDuration

instance (p : NodePenalty) : Decidable p.IsSet := inferInstanceAs (Decidable (_ ∧ _))

theorem not_isSet_unset : ¬ unset.IsSet := fun set => set.1 rfl

end NodePenalty

/-- `SegmentDataContainer`: the entries of all geometries in a row, and where each of them begins. -/
structure SegmentDataContainer (V : Type) where
  index : List ℕ := []
  nodes : List V := []
  fwdWeights : List ℕ := []
  revWeights : List ℕ := []
  fwdDurations : List ℕ := []
  revDurations : List ℕ := []
  fwdDatasources : List ℕ := []
  revDatasources : List ℕ := []
  deriving DecidableEq, Repr

structure CompressedEdgeContainer (V : Type) where
  geometries : SlotTable ℕ (OnewayCompressedEdge V)
  forwardEdgeIdToZippedIndexMap : ℕ → Option ℕ
  reverseEdgeIdToZippedIndexMap : ℕ → Option ℕ
  segmentData : SegmentDataContainer V

/-- A value of a segment: a signed number is read as an unsigned one and limited. -/
def clip (invalid : ℕ) (value : ℤ) : ℕ :=
  let segment := (value % 4294967296).toNat
  if segment ≥ invalid then invalid - 1 else segment

def clipWeight (weight : ℤ) : ℕ := clip invalidSegmentWeight weight

def clipDuration (duration : ℤ) : ℕ := clip invalidSegmentWeight duration

theorem clip_of_lt {invalid : ℕ} {value : ℤ} (small : invalid ≤ 4294967296) (nonneg : 0 ≤ value) (lt : value < invalid) :
    (clip invalid value : ℤ) = value := by
  have below : value < 4294967296 := lt.trans_le (by exact_mod_cast small)
  rw [clip, Int.emod_eq_of_lt nonneg below, if_neg (by omega), Int.toNat_of_nonneg nonneg]

namespace CompressedEdgeContainer

variable {V : Type}

def empty : CompressedEdgeContainer V where
  geometries := SlotTable.grow 100 ⟨[], [], fun _ => none, 0⟩
  forwardEdgeIdToZippedIndexMap _ := none
  reverseEdgeIdToZippedIndexMap _ := none
  segmentData := {}

variable (c : CompressedEdgeContainer V)

/-- `GetBucketReference`; `none` if the map has no such key. -/
def getBucketReference (edgeId : ℕ) : Option (List (OnewayCompressedEdge V)) := c.geometries.get edgeId

def entry (node : V) (weight duration : ℤ) : OnewayCompressedEdge V := ⟨node, clipWeight weight, clipDuration duration⟩

/-- The list of an edge is created if it does not exist, and filled if it is empty. -/
def createList (t : SlotTable ℕ (OnewayCompressedEdge V)) (edgeId : ℕ) (first : OnewayCompressedEdge V) :
    SlotTable ℕ (OnewayCompressedEdge V) :=
  (t.allocate 100 edgeId).modify edgeId fun bucket => if bucket.isEmpty then [first] else bucket

def compressEdge (edgeId1 edgeId2 : ℕ) (viaNodeId targetNodeId : V) (weight1 weight2 duration1 duration2 : ℤ)
    (penalty : NodePenalty) : CompressedEdgeContainer V :=
  let created := createList c.geometries edgeId1 (entry viaNodeId weight1 duration1)
  let penalised := if penalty.IsSet then created.modify edgeId1 (· ++ [entry viaNodeId penalty.weight penalty.duration]) else created
  { c with
    geometries := match penalised.get edgeId2 with
      | some bucket2 => (penalised.modify edgeId1 (· ++ bucket2)).release edgeId2
      | none => penalised.modify edgeId1 (· ++ [entry targetNodeId weight2 duration2]) }

def addUncompressedEdge (edgeId : ℕ) (targetNodeId : V) (weight duration : ℤ) : CompressedEdgeContainer V :=
  { c with geometries := createList c.geometries edgeId (entry targetNodeId weight duration) }

/-- The entry of the reverse bucket that the loop of `ZipEdges` reads; `at` throws when the index is out of range. -/
def reverseAt (reverseBucket : List (OnewayCompressedEdge V)) (i : ℕ) : Option (OnewayCompressedEdge V) :=
  if i + 2 ≤ reverseBucket.length then reverseBucket[reverseBucket.length - 2 - i]? else none

/-- The loop of `ZipEdges`: the entries of both directions at the inner nodes. -/
def zipInner (forwardBucket reverseBucket : List (OnewayCompressedEdge V)) :
    Option (List (OnewayCompressedEdge V × OnewayCompressedEdge V)) :=
  (range (forwardBucket.length - 1)).mapM fun i => do
    let fwdNode ← forwardBucket[i]?
    let revNode ← reverseAt reverseBucket i
    some (fwdNode, revNode)

/-- `ZipEdges`, with the id of the geometry. -/
def zipEdges (fEdgeId rEdgeId : ℕ) : Option (ℕ × CompressedEdgeContainer V) := do
  let forwardBucket ← c.getBucketReference fEdgeId
  let reverseBucket ← c.getBucketReference rEdgeId
  let zippedGeometryId := c.segmentData.index.length
  let firstNode ← reverseBucket.getLast?
  let inner ← zipInner forwardBucket reverseBucket
  let lastNode ← forwardBucket.getLast?
  let s := c.segmentData
  some (zippedGeometryId, { c with
    forwardEdgeIdToZippedIndexMap := update c.forwardEdgeIdToZippedIndexMap fEdgeId (some zippedGeometryId)
    reverseEdgeIdToZippedIndexMap := update c.reverseEdgeIdToZippedIndexMap rEdgeId (some zippedGeometryId)
    segmentData :=
      { index := s.index ++ [s.nodes.length]
        nodes := s.nodes ++ [firstNode.nodeId] ++ inner.map (·.1.nodeId) ++ [lastNode.nodeId]
        fwdWeights := s.fwdWeights ++ [invalidSegmentWeight] ++ inner.map (·.1.weight) ++ [lastNode.weight]
        revWeights := s.revWeights ++ [firstNode.weight] ++ inner.map (·.2.weight) ++ [invalidSegmentWeight]
        fwdDurations := s.fwdDurations ++ [invalidSegmentWeight] ++ inner.map (·.1.duration) ++ [lastNode.duration]
        revDurations := s.revDurations ++ [firstNode.duration] ++ inner.map (·.2.duration) ++ [invalidSegmentWeight]
        fwdDatasources := s.fwdDatasources ++ [0] ++ inner.map (fun _ => 0) ++ [0]
        revDatasources := s.revDatasources ++ [0] ++ inner.map (fun _ => 0) ++ [0] } })

variable {c}

/-! ### Buckets -/

theorem empty_valid : (empty : CompressedEdgeContainer V).geometries.Valid := by
  apply SlotTable.Valid.grow
  constructor <;> simp

/-- The entries of an edge; without a bucket it is atomic. -/
def entries (bucket : Option (List (OnewayCompressedEdge V))) (atomic : OnewayCompressedEdge V) : List (OnewayCompressedEdge V) :=
  bucket.getD [atomic]

theorem entries_ne_nil {bucket : Option (List (OnewayCompressedEdge V))} (filled : bucket ≠ some []) (atomic : OnewayCompressedEdge V) :
    entries bucket atomic ≠ [] := by
  cases bucket with
  | none => exact cons_ne_nil _ _
  | some list =>
    rintro rfl
    exact filled rfl

theorem createList_get {t : SlotTable ℕ (OnewayCompressedEdge V)} (valid : t.Valid) {edgeId : ℕ} (filled : t.get edgeId ≠ some [])
    (first : OnewayCompressedEdge V) :
    (createList t edgeId first).Valid ∧
      ∀ e, (createList t edgeId first).get e = if e = edgeId then some (entries (t.get edgeId) first) else t.get e := by
  obtain ⟨allocated, buckets⟩ := valid.allocate (by decide : 0 < 100) edgeId
  obtain ⟨modified, buckets'⟩ := allocated.modify edgeId fun bucket => if bucket.isEmpty then [first] else bucket
  refine ⟨modified, ?_⟩
  intro e
  rw [createList, buckets', buckets, if_pos rfl, buckets, Option.map_some]
  split
  · cases found : t.get edgeId with
    | none => rfl
    | some bucket =>
      rw [Option.getD_some, if_neg]
      · rfl
      · intro empty
        exact filled (by rw [found, isEmpty_iff.1 empty])
  · rfl

/-- `CompressEdge` appends the entries of the second edge to those of the first one. -/
theorem compressEdge_bucket (valid : c.geometries.Valid) {edgeId1 edgeId2 : ℕ} (other : edgeId1 ≠ edgeId2)
    (filled : c.getBucketReference edgeId1 ≠ some []) (viaNodeId targetNodeId : V) (weight1 weight2 duration1 duration2 : ℤ)
    (penalty : NodePenalty) :
    let c' := c.compressEdge edgeId1 edgeId2 viaNodeId targetNodeId weight1 weight2 duration1 duration2 penalty
    c'.geometries.Valid ∧ ∀ e, c'.getBucketReference e =
      if e = edgeId1 then some (entries (c.getBucketReference edgeId1) (entry viaNodeId weight1 duration1) ++
        (if penalty.IsSet then [entry viaNodeId penalty.weight penalty.duration] else []) ++
        entries (c.getBucketReference edgeId2) (entry targetNodeId weight2 duration2))
      else if e = edgeId2 then none else c.getBucketReference e := by
  intro c'
  obtain ⟨created, buckets⟩ := createList_get valid filled (entry viaNodeId weight1 duration1)
  have penalised : ∃ t : SlotTable ℕ (OnewayCompressedEdge V), t.Valid ∧ (∀ e, t.get e = if e = edgeId1
      then some (entries (c.geometries.get edgeId1) (entry viaNodeId weight1 duration1) ++
        if penalty.IsSet then [entry viaNodeId penalty.weight penalty.duration] else [])
      else c.geometries.get e) ∧
      c'.geometries = match t.get edgeId2 with
        | some bucket2 => (t.modify edgeId1 (· ++ bucket2)).release edgeId2
        | none => t.modify edgeId1 (· ++ [entry targetNodeId weight2 duration2]) := by
    refine ⟨_, ?_, ?_, rfl⟩
    · split
      · exact (created.modify _ _).1
      · exact created
    · intro e
      split
      · rw [(created.modify _ _).2, buckets, if_pos rfl, buckets]
        split <;> rfl
      · rw [buckets, append_nil]
  obtain ⟨t, valid', buckets', result⟩ := penalised
  have second : t.get edgeId2 = c.geometries.get edgeId2 := by rw [buckets', if_neg (Ne.symm other)]
  simp only [getBucketReference]
  rw [result, second]
  cases found : c.geometries.get edgeId2 with
  | some bucket2 =>
    obtain ⟨appended, joined⟩ := valid'.modify edgeId1 (· ++ bucket2)
    obtain ⟨released, removed⟩ := appended.release edgeId2
    refine ⟨released, ?_⟩
    intro e
    rw [removed, joined, buckets', buckets', if_pos rfl]
    by_cases first : e = edgeId1
    · rw [if_neg (by rw [first]; exact other), if_pos first, if_pos first]
      rfl
    · rw [if_neg first, if_neg first, if_neg first]
  | none =>
    obtain ⟨appended, joined⟩ := valid'.modify edgeId1 (· ++ [entry targetNodeId weight2 duration2])
    refine ⟨appended, ?_⟩
    intro e
    rw [joined, buckets', buckets', if_pos rfl]
    by_cases first : e = edgeId1
    · rw [if_pos first, if_pos first]
      rfl
    · rw [if_neg first, if_neg first, if_neg first]
      split
      · next same => rw [same, found]
      · rfl

/-! ### Zipped geometries -/

/-- What `ZipEdges` appends for the two buckets of a road. -/
def appendZipped (s : SegmentDataContainer V) (source : V) (forwardBucket reverseBucket : List (OnewayCompressedEdge V)) :
    SegmentDataContainer V where
  index := s.index ++ [s.nodes.length]
  nodes := s.nodes ++ source :: forwardBucket.map (·.nodeId)
  fwdWeights := s.fwdWeights ++ invalidSegmentWeight :: forwardBucket.map (·.weight)
  revWeights := s.revWeights ++ (reverseBucket.reverse.map (·.weight) ++ [invalidSegmentWeight])
  fwdDurations := s.fwdDurations ++ invalidSegmentWeight :: forwardBucket.map (·.duration)
  revDurations := s.revDurations ++ (reverseBucket.reverse.map (·.duration) ++ [invalidSegmentWeight])
  fwdDatasources := s.fwdDatasources ++ replicate (forwardBucket.length + 1) 0
  revDatasources := s.revDatasources ++ replicate (forwardBucket.length + 1) 0

/-- The inner entries of one direction meet those of the other one, read backwards. -/
theorem zipInner_eq {front rest : List (OnewayCompressedEdge V)} (same : front.length = rest.length) (first last : OnewayCompressedEdge V) :
    zipInner (front ++ [last]) (first :: rest).reverse = some (front.zip rest) := by
  have ranges : (range ((front ++ [last]).length - 1)).map (fun i => (front.getD i last, rest.getD i first)) = front.zip rest := by
    apply ext_getElem
    · simp [same]
    · intro i inside inside'
      have bound : i < front.length := by simpa using inside
      simp [bound, same ▸ bound]
  rw [← ranges]
  apply Lib.mapM_eq_some
  intro i here
  have bound : i < front.length := by simpa using mem_range.1 here
  have bound' : i < rest.length := same ▸ bound
  have total : (first :: rest).length = rest.length + 1 := length_cons
  have length : (first :: rest).reverse.length = rest.length + 1 := by rw [length_reverse, total]
  rw [getElem?_append_left bound, reverseAt, if_pos (by omega), getElem?_reverse (by omega), length, length_cons,
    show rest.length + 1 - 1 - (rest.length + 1 - 2 - i) = i + 1 by omega]
  simp [bound, bound']

/-- **Zipped edges.** The node before each segment of the geometry has its reverse weight, and the node behind it has its
forward weight. -/
theorem zipEdges_eq {fEdgeId rEdgeId : ℕ} {forwardBucket reverseBucket : List (OnewayCompressedEdge V)} {source : V}
    (forward : c.getBucketReference fEdgeId = some forwardBucket) (reverse : c.getBucketReference rEdgeId = some reverseBucket)
    (same : forwardBucket.length = reverseBucket.length) (start : reverseBucket.getLast?.map (·.nodeId) = some source) :
    ∃ c', c.zipEdges fEdgeId rEdgeId = some (c.segmentData.index.length, c') ∧ c'.geometries = c.geometries ∧
      c'.forwardEdgeIdToZippedIndexMap fEdgeId = some c.segmentData.index.length ∧
      c'.reverseEdgeIdToZippedIndexMap rEdgeId = some c.segmentData.index.length ∧
      c'.segmentData = appendZipped c.segmentData source forwardBucket reverseBucket := by
  obtain ⟨first, last, rfl⟩ := Option.map_eq_some_iff.1 start
  obtain ⟨rest, rfl⟩ : ∃ rest, reverseBucket = (first :: rest).reverse := by
    obtain ⟨front, rfl⟩ := getLast?_eq_some_iff.1 last
    exact ⟨front.reverse, by simp⟩
  obtain ⟨front, final, rfl⟩ : ∃ front final, forwardBucket = front ++ [final] := by
    rcases eq_nil_or_concat forwardBucket with rfl | ⟨front, final, rfl⟩
    · simp at same
    · exact ⟨front, final, concat_eq_append⟩
  have lengths : front.length = rest.length := by simpa using same
  simp only [zipEdges, forward, reverse, zipInner_eq lengths, last, getLast?_append,
    Option.bind_eq_bind, Option.bind_some]
  refine ⟨_, rfl, rfl, update_self .., update_self .., ?_⟩
  have left : ∀ {β : Type} (f : OnewayCompressedEdge V → β), (front.zip rest).map (fun pair => f pair.1) = front.map f := by
    intro β f
    have mapped := congrArg (map f) (map_fst_zip lengths.le)
    rwa [map_map] at mapped
  have right : ∀ {β : Type} (f : OnewayCompressedEdge V → β), (front.zip rest).map (fun pair => f pair.2) = rest.map f := by
    intro β f
    have mapped := congrArg (map f) (map_snd_zip lengths.ge)
    rwa [map_map] at mapped
  have sources : ∀ l : List ℕ, l ++ [0] ++ (front.zip rest).map (fun _ => 0) ++ [0] =
      l ++ replicate ((front ++ [final]).length + 1) 0 := by
    intro l
    rw [length_append, length_singleton, replicate_succ, replicate_succ', map_const', length_zip,
      lengths]
    simp
  simp only [left, right, sources, appendZipped]
  simp

end CompressedEdgeContainer

end Osrm.Extractor
