import Osrm.Engine.TrafficAggregator
import Osrm.Extractor.SegmentData
import Osrm.Lib.Walk
import Mathlib.Algebra.Order.BigOperators.Group.List

/-!
# Snapping to a road

`MakePhantomNode` turns a segment of the road network and the place of the projected point
on it into a phantom node. The weights of the geometry are scaled by live traffic first, the
weights of the graph are not. A source's key in the heap is the negative of its weight and
offset, so it can fall below the negative weight of its node (`makePhantomNode_le_static_iff`).
-/

namespace Osrm

open List

open Extractor Live

structure GeometryID where
  id : ℕ
  forward : Bool
deriving DecidableEq, Repr

/-- What the data facade knows of the geometries; `isSpecial` is the comparison with `SPECIAL_SEGMENTID`. -/
structure GeometryFacade (V : Type*) where
  getGeometryIndex : V → GeometryID
  segmentData : ℕ → SegmentData
  isSpecial : V → Bool

/-- `EdgeBasedNodeSegment`: a segment of the road network as the tree of segments stores it. -/
structure EdgeData (V : Type*) where
  forwardSegmentId : SegmentID V
  reverseSegmentId : SegmentID V
  fwdSegmentPosition : ℕ

/-- A phantom node with its place in the geometry. -/
structure SnappedPhantom (V : Type*) extends PhantomNode V where
  fwdSegmentPosition : ℕ

variable {V : Type*}

namespace EdgeData

def segmentId (data : EdgeData V) (dir : Bool) : SegmentID V := if dir then data.forwardSegmentId else data.reverseSegmentId

/-- The number of the segment among the `size` segments of the geometry, in the order of a direction. -/
def position (data : EdgeData V) (dir : Bool) (size : ℕ) : ℕ :=
  if dir then data.fwdSegmentPosition else size - data.fwdSegmentPosition - 1

end EdgeData

/-- The part of a segment from its start, in the direction of travel, to the point. -/
def partialWeight (dir special : Bool) (ratio : ℚ) (weight : ℕ) : ℤ :=
  if special then weight else if dir then truncate (toDouble (weight * ratio)) else weight - truncate (toDouble (weight * ratio))

def areSegmentsValid (weights : List ℕ) : Bool := !weights.contains invalidSegmentWeight

namespace GeometryFacade

variable (facade : GeometryFacade V) (store : LiveDataStore)

/-- The weights of a geometry with live traffic. -/
def liveWeights (geometryId : ℕ) (dir : Bool) : List ℕ :=
  applyLiveTrafficToSegmentWeights store geometryId ((facade.segmentData geometryId).weights dir)

/-- `MakePhantomNode` for a point at `ratio` of the segment, with the store as the aggregation has left it. -/
def makePhantomNode (data : EdgeData V) (ratio : ℚ) : SnappedPhantom V :=
  let geometryId := (facade.getGeometryIndex data.forwardSegmentId.id).id
  let segments := facade.segmentData geometryId
  let ratio := min 1 (max 0 ratio)
  let at_ (dir : Bool) := data.position dir segments.size
  let special (dir : Bool) := facade.isSpecial (data.segmentId dir).id
  let offset (dir : Bool) (l : List ℕ) : ℤ := (l.take (at_ dir)).sum
  let part (dir : Bool) (l : List ℕ) : ℤ := partialWeight dir (special dir) ratio (l.getD (at_ dir) 0)
  { forwardSegmentId := data.forwardSegmentId
    reverseSegmentId := data.reverseSegmentId
    forwardWeight := part true (facade.liveWeights store geometryId true)
    reverseWeight := part false (facade.liveWeights store geometryId false)
    forwardWeightOffset := offset true (facade.liveWeights store geometryId true)
    reverseWeightOffset := offset false (facade.liveWeights store geometryId false)
    forwardDuration := part true (segments.durations true)
    reverseDuration := part false (segments.durations false)
    forwardDurationOffset := offset true (segments.durations true)
    reverseDurationOffset := offset false (segments.durations false)
    validForwardSource := areSegmentsValid (segments.weights true)
    validForwardTarget := areSegmentsValid ((segments.weights true).take (at_ true + 1))
    validReverseSource := areSegmentsValid (segments.weights false)
    validReverseTarget := areSegmentsValid ((segments.weights false).take (segments.size - data.fwdSegmentPosition))
    fwdSegmentPosition := data.fwdSegmentPosition }

end GeometryFacade

/-! ### Bounds -/

theorem truncate_bounds {x : ℚ} {w : ℕ} (low : 0 ≤ x) (high : x ≤ w) : 0 ≤ truncate x ∧ truncate x ≤ w := by
  rw [truncate, if_pos low]
  refine ⟨Int.floor_nonneg.2 low, ?_⟩
  have := Int.floor_le_floor high
  rwa [Int.floor_natCast] at this

/-- Double precision keeps bounds that are weights. -/
theorem toDouble_le {w : ℕ} {x : ℚ} (small : w < 2 ^ 32) (le : x ≤ w) : toDouble x ≤ w :=
  Lib.roundBinary_le_natCast (by omega) le

theorem le_toDouble {w : ℕ} {x : ℚ} (small : w < 2 ^ 32) (le : w ≤ x) : w ≤ toDouble x :=
  Lib.natCast_le_roundBinary (by decide) (by omega) le

/-- The part of a segment is between nothing and the whole. -/
theorem partialWeight_bounds (dir special : Bool) {ratio : ℚ} (low : 0 ≤ ratio) (high : ratio ≤ 1) {w : ℕ} (small : w < 2 ^ 32) :
    0 ≤ partialWeight dir special ratio w ∧ partialWeight dir special ratio w ≤ w := by
  have weight : (0 : ℚ) ≤ w := Nat.cast_nonneg w
  have least : ((0 : ℕ) : ℚ) ≤ w * ratio := by simpa using mul_nonneg weight low
  obtain ⟨below, above⟩ := truncate_bounds (by simpa using le_toDouble (by decide) least)
    (toDouble_le small (mul_le_of_le_one_right weight high))
  unfold partialWeight
  cases special with
  | true =>
    omega
  | false =>
    cases dir with
    | true =>
      omega
    | false =>
      omega

theorem sum_take_add_le (l : List ℕ) (i : ℕ) : (l.take i).sum + l.getD i 0 ≤ l.sum := by
  induction l generalizing i with
  | nil => simp
  | cons w l ih =>
    cases i with
    | zero => simp
    | succ i =>
      have := ih i
      simp only [take_succ_cons, sum_cons, getD_cons_succ]
      omega

theorem sum_take_add_drop (l : List ℕ) (i : ℕ) : (l.take i).sum + l.getD i 0 + (l.drop (i + 1)).sum = l.sum := by
  induction l generalizing i with
  | nil => simp
  | cons w l ih => cases i <;> grind

theorem sum_take_add_eq {l : List ℕ} {i : ℕ} (last : i + 1 = l.length) : (l.take i).sum + l.getD i 0 = l.sum := by
  induction l generalizing i with
  | nil => simp at last
  | cons w l ih => cases i <;> grind

theorem scaledWeight_le_iff (factor : ℚ) (w n : ℕ) : scaledWeight (some factor) w ≤ n ↔ toDouble (w * factor) < n + 1 / 2 := by
  show (stdRound (toDouble (w * factor))).toNat ≤ n ↔ _
  generalize toDouble (w * factor) = x
  unfold stdRound
  rw [Int.toNat_le]
  split
  · rw [← Int.lt_add_one_iff, Int.floor_lt]
    push_cast
    constructor <;> intro h <;> linarith
  · rw [Int.ceil_le]
    push_cast
    constructor <;> intro h <;> linarith

/-- Scaling keeps a sum from growing exactly if it keeps every term from growing: all terms move the same way. -/
theorem sum_scaledWeight_le_iff (factor : Option ℚ) {l : List ℕ} (small : ∀ w ∈ l, w < 2 ^ 32) :
    (l.map (scaledWeight factor)).sum ≤ l.sum ↔ ∀ w ∈ l, scaledWeight factor w ≤ w := by
  have bounded : (∀ w ∈ l, scaledWeight factor w ≤ w) → (l.map (scaledWeight factor)).sum ≤ l.sum := by
    intro each
    simpa using sum_le_sum (f := scaledWeight factor) (g := id) each
  refine ⟨fun total => ?_, bounded⟩
  cases factor with
  | none => exact fun w _ => Nat.zero_le w
  | some factor =>
    rcases le_total factor 1 with fast | slow
    · intro w mem
      have less := toDouble_le (small w mem) (mul_le_of_le_one_right (Nat.cast_nonneg w) fast)
      rw [scaledWeight_le_iff]
      linarith
    · clear bounded
      have more : ∀ w ∈ l, w ≤ scaledWeight (some factor) w := by
        intro w mem
        by_contra! smaller
        have below := (scaledWeight_le_iff factor w (w - 1)).1 (by omega)
        rw [Nat.cast_pred (by omega)] at below
        have := le_toDouble (small w mem) (le_mul_of_one_le_right (Nat.cast_nonneg w) slow)
        linarith
      clear small
      induction l with
      | nil => simp
      | cons w l ih =>
        obtain ⟨here, later⟩ := forall_mem_cons.1 more
        have rest := sum_le_sum (l := l) (f := id) later
        rw [map_id] at rest
        rw [map_cons, sum_cons, sum_cons] at total
        exact forall_mem_cons.2 ⟨by omega, ih (by omega) later⟩

/-- Scaling keeps a blocked segment blocked and every other weight a weight. -/
def KeepsDomain (w scaled : ℕ) : Prop :=
  (scaled = invalidSegmentWeight ↔ w = invalidSegmentWeight) ∧
    (w ≠ invalidSegmentWeight → scaled ≤ invalidSegmentWeight - 1)

/-- What keeps an entry at a speed: the double product of a blocked entry and the factor is rounded to the entry, and that of
any other stays below the limit. Where the speed is not a number, the entry is not blocked. -/
def KeptAt (w : ℕ) : Option ℚ → Prop
  | none => w ≠ invalidSegmentWeight
  | some v =>
    let product := toDouble (w * if v ≤ 1 / 2 then 10 else min (toDouble (50 / v)) 10)
    if w = invalidSegmentWeight then 8388605 / 2 ≤ product ∧ product < 8388607 / 2 else product < 8388605 / 2

/-- **The domain of the weights** survives the scaling exactly if every entry is kept at the speed. -/
theorem applyLiveTraffic_keepsDomain_iff (store : LiveDataStore) (geometryId : ℕ) (weights : List ℕ) {live : TrafficEdgeData}
    (entry : store.liveSegment geometryId = some live) {speedKmh : Option ℚ}
    (factor : live.weightFactor = computeTrafficWeightFactor speedKmh) :
    Forall₂ KeepsDomain weights (applyLiveTrafficToSegmentWeights store geometryId weights) ↔
      ∀ w ∈ weights, KeptAt w speedKmh := by
  have scaled : applyLiveTrafficToSegmentWeights store geometryId weights = weights.map (scaledWeight live.weightFactor) := by
    rw [applyLiveTrafficToSegmentWeights, entry]
  rw [scaled, forall₂_map_right_iff, forall₂_same, factor]
  refine forall₂_congr fun w _ => ?_
  cases speedKmh with
  | none =>
    simp only [computeTrafficWeightFactor, scaledWeight, KeepsDomain, KeptAt, Option.elim_none, invalidSegmentWeight]
    omega
  | some v =>
    have value : computeTrafficWeightFactor (some v) = some (if v ≤ 1 / 2 then 10 else min (toDouble (50 / v)) 10) := by
      simp only [computeTrafficWeightFactor]
      split_ifs <;> grind
    rw [value, KeptAt]
    generalize (if v ≤ 1 / 2 then (10 : ℚ) else min (toDouble (50 / v)) 10) = f
    have below := scaledWeight_le_iff f w (invalidSegmentWeight - 1)
    have upTo := scaledWeight_le_iff f w invalidSegmentWeight
    norm_num [invalidSegmentWeight] at below upTo
    unfold KeepsDomain
    by_cases blocked : w = invalidSegmentWeight
    · simp only [if_pos blocked]
      rw [← upTo, ← not_lt (b := (8388605 / 2 : ℚ)), ← below]
      norm_num [invalidSegmentWeight] at blocked ⊢
      omega
    · simp only [if_neg blocked]
      rw [← below]
      norm_num [invalidSegmentWeight] at blocked ⊢
      omega

/-- A store in which live traffic moves at one speed. -/
def movingAt (speedKmh : ℚ) : LiveDataStore :=
  LiveDataStore.update {} 0 { speedKmh, weightFactor := computeTrafficWeightFactor (some speedKmh), source := .live }

/-- The factor and the product are rounded. -/
example : applyLiveTrafficToSegmentWeights (movingAt 116) 0 [145] = [62] ∧
    applyLiveTrafficToSegmentWeights (movingAt (140 / 3)) 0 [7] = [8] := by decide +kernel

/-- At the reference speed nothing changes. -/
theorem applyLiveTraffic_keepsDomain_reference : Forall₂ KeepsDomain [invalidSegmentWeight, 120]
    (applyLiveTrafficToSegmentWeights (movingAt 50) 0 [invalidSegmentWeight, 120]) := by
  have product : toDouble (invalidSegmentWeight * if (50 : ℚ) ≤ 1 / 2 then 10 else min (toDouble (50 / 50)) 10) = 4194303 ∧
      toDouble ((120 : ℕ) * if (50 : ℚ) ≤ 1 / 2 then 10 else min (toDouble (50 / 50)) 10) = 120 := by decide +kernel
  refine (applyLiveTraffic_keepsDomain_iff (movingAt 50) 0 _ rfl (rfl : _ = computeTrafficWeightFactor (some 50))).2 ?_
  simp only [forall_mem_cons, KeptAt, product]
  norm_num [invalidSegmentWeight]

/-- Fast traffic opens a blocked segment. -/
theorem applyLiveTraffic_opens :
    applyLiveTrafficToSegmentWeights (movingAt 100) 0 [invalidSegmentWeight] = [2097152] := by
  decide +kernel

section Keys

variable {V : Type*} (facade : GeometryFacade V) (store : LiveDataStore) {geometryId : ℕ} {dir : Bool}

theorem liveWeights_eq_map {live : TrafficEdgeData}
    (entry : store.liveSegment geometryId = some live) : facade.liveWeights store geometryId dir =
      ((facade.segmentData geometryId).weights dir).map (scaledWeight live.weightFactor) := by
  rw [GeometryFacade.liveWeights, applyLiveTrafficToSegmentWeights, entry]

theorem liveWeights_eq_static (entry : store.liveSegment geometryId = none) :
    facade.liveWeights store geometryId dir = (facade.segmentData geometryId).weights dir := by
  rw [GeometryFacade.liveWeights, applyLiveTrafficToSegmentWeights, entry]

@[simp] theorem length_liveWeights (geometryId : ℕ) (dir : Bool) :
    (facade.liveWeights store geometryId dir).length = (facade.segmentData geometryId).size := by
  cases entry : store.liveSegment geometryId with
  | none => rw [liveWeights_eq_static facade store entry, SegmentData.length_weights]
  | some live => rw [liveWeights_eq_map facade store entry, length_map, SegmentData.length_weights]

/-- The live weights of a geometry are no larger in sum than the static ones. -/
theorem sum_liveWeights_le_iff (small : ∀ w ∈ (facade.segmentData geometryId).weights dir, w < 2 ^ 32) :
    (facade.liveWeights store geometryId dir).sum ≤ ((facade.segmentData geometryId).weights dir).sum ↔
      ∀ live, store.liveSegment geometryId = some live →
        ∀ w ∈ (facade.segmentData geometryId).weights dir, scaledWeight live.weightFactor w ≤ w := by
  cases entry : store.liveSegment geometryId with
  | none =>
    rw [liveWeights_eq_static facade store entry]
    exact iff_of_true (Nat.le_refl _) nofun
  | some live =>
    rw [liveWeights_eq_map facade store entry, sum_scaledWeight_le_iff _ small]
    exact ⟨fun small live' same => Option.some.inj same ▸ small, fun small => small live rfl⟩

variable (data : EdgeData V) (ratio : ℚ)

def GeometryFacade.geometryOf : ℕ := (facade.getGeometryIndex data.forwardSegmentId.id).id

/-- `GetForwardWeightPlusOffset` and `GetReverseWeightPlusOffset` of a snapped point. -/
theorem weightPlusOffset_makePhantomNode (dir : Bool) :
    (facade.makePhantomNode store data ratio).weightPlusOffset dir =
      ((facade.liveWeights store (facade.geometryOf data) dir).take
        (data.position dir (facade.segmentData (facade.geometryOf data)).size)).sum +
      partialWeight dir (facade.isSpecial (data.segmentId dir).id) (min 1 (max 0 ratio))
        ((facade.liveWeights store (facade.geometryOf data) dir).getD
          (data.position dir (facade.segmentData (facade.geometryOf data)).size) 0) := by
  cases dir with
  | true => rfl
  | false => rfl

/-- No point has more weight before it than the whole geometry. -/
theorem weightPlusOffset_le (fits : (facade.liveWeights store (facade.geometryOf data) dir).sum < 2 ^ 31) :
    (facade.makePhantomNode store data ratio).weightPlusOffset dir ≤
      (facade.liveWeights store (facade.geometryOf data) dir).sum := by
  have low : (0 : ℚ) ≤ min 1 (max 0 ratio) := le_min zero_le_one (le_max_left _ _)
  rw [weightPlusOffset_makePhantomNode]
  generalize facade.liveWeights store (facade.geometryOf data) dir = l at fits ⊢
  generalize data.position dir _ = i
  have whole := sum_take_add_le l i
  have part := (partialWeight_bounds dir (facade.isSpecial (data.segmentId dir).id) low (min_le_left _ _)
    (by omega : l.getD i 0 < 2 ^ 32)).2
  omega

/-- The end of the geometry has the weight of all of it before it. -/
theorem weightPlusOffset_end (fits : (facade.liveWeights store (facade.geometryOf data) dir).sum < 2 ^ 31) :
    ∃ position < (facade.segmentData (facade.geometryOf data)).size, ∃ ratio,
    (facade.makePhantomNode store { data with fwdSegmentPosition := position } ratio).weightPlusOffset dir =
      (facade.liveWeights store (facade.geometryOf data) dir).sum := by
  have pos := (facade.segmentData (facade.geometryOf data)).size_pos
  have length := length_liveWeights facade store (facade.geometryOf data) dir
  have one : ∀ w : ℕ, w < 2 ^ 32 → truncate (toDouble ((w : ℚ) * 1)) = w := by
    intro w small
    rw [mul_one, (toDouble_le small le_rfl).antisymm (le_toDouble small le_rfl), truncate, if_pos (Nat.cast_nonneg w),
      Int.floor_natCast]
  have zero : ∀ w : ℕ, truncate (toDouble ((w : ℚ) * 0)) = 0 := by
    intro w
    rw [mul_zero]
    decide +kernel
  cases dir with
  | true =>
    refine ⟨(facade.segmentData (facade.geometryOf data)).size - 1, by omega, 1, ?_⟩
    rw [weightPlusOffset_makePhantomNode]
    have whole := sum_take_add_eq (l := facade.liveWeights store (facade.geometryOf data) true)
      (i := (facade.segmentData (facade.geometryOf data)).size - 1) (by omega)
    have last := one _ (by omega : (facade.liveWeights store (facade.geometryOf data) true).getD
      ((facade.segmentData (facade.geometryOf data)).size - 1) 0 < 2 ^ 32)
    rw [← whole]
    simp only [GeometryFacade.geometryOf] at last ⊢
    simp only [EdgeData.position, if_true, zero_le_one, max_eq_right, min_self, partialWeight, last, Nat.cast_add, ite_self]
  | false =>
    refine ⟨0, pos, 0, ?_⟩
    rw [weightPlusOffset_makePhantomNode]
    have whole := sum_take_add_eq (l := facade.liveWeights store (facade.geometryOf data) false)
      (i := (facade.segmentData (facade.geometryOf data)).size - 0 - 1) (by omega)
    rw [← whole]
    simp only [EdgeData.position, Bool.false_eq_true, if_false, GeometryFacade.geometryOf, max_self, zero_le_one, min_eq_right,
      partialWeight, zero, sub_zero, Nat.cast_add, ite_self]

/-- No point that snaps to the geometry has more weight before it than the static weight of the geometry's node. -/
def KeysConsistent : Prop :=
  ∀ position < (facade.segmentData (facade.geometryOf data)).size, ∀ ratio dir, (data.segmentId dir).enabled = true →
    (facade.makePhantomNode store { data with fwdSegmentPosition := position } ratio).weightPlusOffset dir ≤
      ((facade.segmentData (facade.geometryOf data)).weights dir).sum

/-- Live traffic does not make any segment of the geometry heavier: the double product of its weight and the factor is not
rounded up. -/
def NoSlowdown : Prop :=
  ∀ live, store.liveSegment (facade.geometryOf data) = some live → ∀ dir, (data.segmentId dir).enabled = true →
    ∀ w ∈ (facade.segmentData (facade.geometryOf data)).weights dir, ∀ f ∈ live.weightFactor, toDouble (w * f) < w + 1 / 2

/-- What live traffic adds up to a point is no more than the static weight behind it. -/
def Covered (position : ℕ) (ratio : ℚ) (dir : Bool) : Prop :=
  let static := (facade.segmentData (facade.geometryOf data)).weights dir
  let live := facade.liveWeights store (facade.geometryOf data) dir
  let i := EdgeData.position { data with fwdSegmentPosition := position } dir (facade.segmentData (facade.geometryOf data)).size
  ((live.take i).sum - (static.take i).sum : ℤ) +
    (partialWeight dir (facade.isSpecial (data.segmentId dir).id) (min 1 (max 0 ratio)) (live.getD i 0) - static.getD i 0) ≤
      (static.drop (i + 1)).sum

/-- The sums that are formed for the geometry fit their type. -/
def WeightsFit : Prop :=
  ∀ dir, ((facade.segmentData (facade.geometryOf data)).weights dir).sum < 2 ^ 31 ∧
    (facade.liveWeights store (facade.geometryOf data) dir).sum < 2 ^ 31

/-- **Keys of the heaps.** A phantom fits the static weight of its node exactly if what live traffic adds before it is covered
by the weights behind it, and all phantoms of a geometry do exactly if live traffic makes no segment heavier. Then no path
that leaves the node of a source has a negative weight. -/
theorem makePhantomNode_le_static_iff (fits : WeightsFit facade store data) :
    (∀ position < (facade.segmentData (facade.geometryOf data)).size, ∀ ratio dir,
      ((facade.makePhantomNode store { data with fwdSegmentPosition := position } ratio).weightPlusOffset dir ≤
        ((facade.segmentData (facade.geometryOf data)).weights dir).sum ↔ Covered facade store data position ratio dir)) ∧
    (KeysConsistent facade store data ↔ NoSlowdown facade store data) ∧
    (NoSlowdown facade store data → ∀ position < (facade.segmentData (facade.geometryOf data)).size, ∀ ratio dir,
      (data.segmentId dir).enabled = true → ∀ A : Lib.Arcs V,
      (∀ x c, A (data.segmentId dir).id x c → (((facade.segmentData (facade.geometryOf data)).weights dir).sum : ℤ) ≤ c) →
      (∀ u x c, A u x c → 0 ≤ c) → ∀ x v c d, A (data.segmentId dir).id x c → Lib.Walk A x v d →
        0 ≤ -(facade.makePhantomNode store { data with fwdSegmentPosition := position } ratio).weightPlusOffset dir + (c + d)) := by
  have small : ∀ dir, ∀ w ∈ (facade.segmentData (facade.geometryOf data)).weights dir, w < 2 ^ 32 := by
    intro dir w mem
    have := le_sum_of_mem mem
    have := (fits dir).1
    omega
  have slower : ∀ live : TrafficEdgeData, ∀ w : ℕ, scaledWeight live.weightFactor w ≤ w ↔
      ∀ f ∈ live.weightFactor, toDouble (w * f) < w + 1 / 2 := by
    intro live w
    cases live.weightFactor with
    | none => simp [scaledWeight]
    | some f => simp [scaledWeight_le_iff]
  have consistent : KeysConsistent facade store data ↔ NoSlowdown facade store data := by
    constructor
    · intro keys live entry dir enabled w mem
      obtain ⟨position, inside, ratio, total⟩ := weightPlusOffset_end facade store data (fits dir).2
      have bound := keys position inside ratio dir enabled
      rw [total, Nat.cast_le] at bound
      exact (slower live w).1 ((sum_liveWeights_le_iff facade store (small dir)).1 bound live entry w mem)
    · intro light position _ ratio dir enabled
      have bound := (sum_liveWeights_le_iff facade store (small dir)).2
        fun live entry w mem => (slower live w).2 (light live entry dir enabled w mem)
      have point := weightPlusOffset_le facade store { data with fwdSegmentPosition := position } ratio (fits dir).2
      exact point.trans (Nat.cast_le.2 bound)
  refine ⟨fun position inside ratio dir => ?_, consistent, fun light position inside ratio dir enabled A node nonneg x v c d arc walk => ?_⟩
  · have split := sum_take_add_drop (facade.segmentData (facade.geometryOf data) |>.weights dir)
      (EdgeData.position { data with fwdSegmentPosition := position } dir (facade.segmentData (facade.geometryOf data)).size)
    rw [weightPlusOffset_makePhantomNode, Covered]
    simp only [GeometryFacade.geometryOf, EdgeData.segmentId] at split ⊢
    omega
  · have key := consistent.2 light position inside ratio dir enabled
    have leaves := node x c arc
    have rest : 0 ≤ d := by
      clear leaves key arc
      induction walk with
      | nil => exact le_rfl
      | cons arc _ ih => exact add_nonneg (nonneg _ _ _ arc) ih
    omega

/-- A road of one segment of weight `10` in both directions. -/
def lane : SegmentData :=
  ⟨[0, 1], [4194303, 10], [10, 4194303], [4194303, 10], [10, 4194303], [0, 0], [0, 0], by decide, by decide⟩

/-- Node `0` runs along the road and node `1` against it. -/
def laneFacade : GeometryFacade (Fin 2) := ⟨fun u => ⟨0, u.val = 0⟩, fun _ => lane, fun _ => false⟩

/-- Traffic that is fast enough leaves the keys consistent. -/
theorem makePhantomNode_le_static_fast : KeysConsistent laneFacade (movingAt 60) ⟨⟨0, true⟩, ⟨1, true⟩, 0⟩ := by
  have products : ∀ dir, ∀ w ∈ lane.weights dir, ∀ f ∈ computeTrafficWeightFactor (some 60), toDouble (w * f) < w + 1 / 2 := by
    decide +kernel
  have fits : ∀ dir, (lane.weights dir).sum < 2 ^ 31 ∧ (laneFacade.liveWeights (movingAt 60) 0 dir).sum < 2 ^ 31 := by
    decide +kernel
  refine (makePhantomNode_le_static_iff laneFacade (movingAt 60) _ fits).2.1.2 fun live entry dir _ => ?_
  cases entry
  exact products dir

/-- Three quarters along the slow road a point has weight `15` before it; the static weight of the whole node is `10`. -/
theorem makePhantomNode_slow :
    (laneFacade.makePhantomNode (movingAt 25) ⟨⟨0, true⟩, ⟨1, true⟩, 0⟩ (3 / 4)).weightPlusOffset true = 15 ∧
      (laneFacade.segmentData 0).weights true = [10] ∧
      ¬ KeysConsistent laneFacade (movingAt 25) ⟨⟨0, true⟩, ⟨1, true⟩, 0⟩ := by
  have point : (laneFacade.makePhantomNode (movingAt 25) ⟨⟨0, true⟩, ⟨1, true⟩, 0⟩ (3 / 4)).weightPlusOffset true = 15 := by
    decide +kernel
  refine ⟨point, rfl, fun keys => ?_⟩
  have bound := keys 0 (by decide) (3 / 4) true rfl
  rw [point] at bound
  revert bound
  decide

end Keys

end Osrm
