import Mathlib.Data.List.Basic

/-!
# Tables of recycled slots

A vector of buckets, an index that says in which slot the bucket of a key is, and a list of the
slots that are free. The last free slot is taken first, and a slot that is released is emptied
and becomes the last free one. When no slot is free, the vector grows.

Seen from outside, such a table is a partial map from keys to buckets (`get`), and each operation
changes the bucket of one key.
-/

namespace Osrm.Lib

open Function List

structure SlotTable (K A : Type) where
  slots : List (List A)
  free : List ℕ
  index : K → Option ℕ
  /-- the number of the next slot that `grow` makes -/
  next : ℕ

namespace SlotTable

variable {K A : Type}

def get (t : SlotTable K A) (k : K) : Option (List A) := (t.index k).map fun i => t.slots.getD i []

/-- Keys have slots of their own, and free slots are empty. -/
structure Valid (t : SlotTable K A) : Prop where
  next : t.next = t.slots.length
  inside : ∀ {k i}, t.index k = some i → i < t.slots.length
  injective : ∀ {k k' i}, t.index k = some i → t.index k' = some i → k = k'
  apart : ∀ {k i}, t.index k = some i → i ∉ t.free
  unused : ∀ i ∈ t.free, i < t.slots.length ∧ t.slots.getD i [] = []
  nodup : t.free.Nodup

def grow (count : ℕ) (t : SlotTable K A) : SlotTable K A :=
  { t with
    slots := t.slots ++ replicate count []
    free := t.free ++ range' t.next count
    next := t.next + count }

/-- Grow if no slot is free. -/
def reserve (count : ℕ) (t : SlotTable K A) : SlotTable K A := if t.free.isEmpty then t.grow count else t

variable [DecidableEq K] (t : SlotTable K A) (k : K)

def take : SlotTable K A :=
  match t.free.getLast? with
  | none => t
  | some i => { t with index := update t.index k (some i), free := t.free.dropLast }

/-- Give the key a slot if it has none. -/
def allocate (count : ℕ) (t : SlotTable K A) (k : K) : SlotTable K A :=
  if (t.index k).isSome then t else (t.reserve count).take k

omit [DecidableEq K] in
def modify (f : List A → List A) : SlotTable K A :=
  match t.index k with
  | none => t
  | some i => { t with slots := t.slots.set i (f (t.slots.getD i [])) }

/-- Empty the slot of a key and make it free. -/
def release : SlotTable K A :=
  match t.index k with
  | none => t
  | some i => { t with slots := t.slots.set i [], free := t.free ++ [i], index := update t.index k none }

variable {t : SlotTable K A} {k k' : K} {i j count : ℕ} (l : List (List A))

omit [DecidableEq K]

theorem get_isSome : (t.get k).isSome = (t.index k).isSome := Option.isSome_map

theorem getD_append_replicate (count i : ℕ) : (l ++ replicate count []).getD i [] = l.getD i [] := by
  grind

theorem getD_set (inside : i < l.length) (b : List A) :
    (l.set i b).getD j [] = if j = i then b else l.getD j [] := by
  grind

variable (valid : t.Valid)

include valid

theorem Valid.grow (count : ℕ) : (t.grow count).Valid where
  next := by simp [SlotTable.grow, valid.next]
  inside here := by
    have := valid.inside here
    simp only [SlotTable.grow, length_append]
    omega
  injective := valid.injective
  apart here := by
    have := valid.inside here
    rw [← valid.next] at this
    simp only [SlotTable.grow, mem_append, mem_range'_1, not_or]
    exact ⟨valid.apart here, by omega⟩
  unused i here := by
    simp only [SlotTable.grow, length_append, length_replicate, getD_append_replicate]
    rcases mem_append.1 here with old | new
    · obtain ⟨inside, empty⟩ := valid.unused i old
      exact ⟨by omega, empty⟩
    · obtain ⟨low, high⟩ := mem_range'_1.1 new
      rw [valid.next] at low high
      rw [getD_eq_getElem?_getD, getElem?_eq_none low]
      exact ⟨high, rfl⟩
  nodup := by
    apply nodup_append.2
    refine ⟨valid.nodup, nodup_range', ?_⟩
    intro i old j new
    have := (valid.unused i old).1
    have := (mem_range'_1.1 new).1
    rw [valid.next] at this
    omega

omit valid in
theorem reserve_get (count : ℕ) (t : SlotTable K A) (k : K) : (t.reserve count).get k = t.get k := by
  unfold reserve
  split
  · simp only [get, grow, getD_append_replicate]
  · rfl

theorem Valid.reserve (positive : 0 < count) : (t.reserve count).Valid ∧ (t.reserve count).free ≠ [] := by
  unfold SlotTable.reserve
  split
  · refine ⟨valid.grow count, ?_⟩
    apply ne_nil_of_length_pos
    rw [SlotTable.grow, length_append, length_range']
    omega
  · next nonempty => exact ⟨valid, fun empty => nonempty (isEmpty_iff.2 empty)⟩

variable [DecidableEq K]

/-- The key gets an empty bucket. -/
theorem Valid.take (some : t.free ≠ []) (k : K) :
    (t.take k).Valid ∧ ∀ k', (t.take k).get k' = if k' = k then .some [] else t.get k' := by
  obtain ⟨front, i, split⟩ := (eq_nil_or_concat t.free).resolve_left some
  rw [concat_eq_append] at split
  have member : i ∈ t.free := by simp [split]
  obtain ⟨inside, empty⟩ := valid.unused i member
  have nodup := valid.nodup
  have fresh : i ∉ front := by
    intro again
    rw [split, nodup_append] at nodup
    exact nodup.2.2 i again i (mem_singleton_self i) rfl
  have result : t.take k = { t with index := update t.index k (.some i), free := front } := by
    simp [SlotTable.take, split]
  have old : ∀ {k' j}, update t.index k (.some i) k' = .some j → k' = k ∧ i = j ∨ k' ≠ k ∧ t.index k' = .some j := by
    intro k' j here
    by_cases same : k' = k
    · rw [same, update_self] at here
      exact .inl ⟨same, Option.some.inj here⟩
    · rw [update_of_ne same] at here
      exact .inr ⟨same, here⟩
  rw [result]
  refine ⟨⟨valid.next, ?_, ?_, ?_, ?_, ?_⟩, ?_⟩
  · intro k' j here
    obtain ⟨-, rfl⟩ | ⟨-, here⟩ := old here
    · exact inside
    · exact valid.inside here
  · intro k₁ k₂ j first second
    obtain ⟨same₁, rfl⟩ | ⟨-, first⟩ := old first
    · obtain ⟨same₂, -⟩ | ⟨-, second⟩ := old second
      · rw [same₁, same₂]
      · exact absurd member (valid.apart second)
    · obtain ⟨-, rfl⟩ | ⟨-, second⟩ := old second
      · exact absurd member (valid.apart first)
      · exact valid.injective first second
  · intro k' j here again
    obtain ⟨-, rfl⟩ | ⟨-, here⟩ := old here
    · exact fresh again
    · exact valid.apart here (by simp [split, show j ∈ front from again])
  · intro j here
    exact valid.unused j (by simp [split, show j ∈ front from here])
  · rw [split] at nodup
    exact (nodup_append.1 nodup).1
  · intro k'
    unfold get
    dsimp only
    by_cases same : k' = k
    · rw [if_pos same, same, update_self, Option.map_some, empty]
    · rw [if_neg same, update_of_ne same]

/-- The key has a bucket now; it is empty if it is new. -/
theorem Valid.allocate (positive : 0 < count) (k : K) :
    (t.allocate count k).Valid ∧ ∀ k', (t.allocate count k).get k' = if k' = k then some ((t.get k).getD []) else t.get k' := by
  unfold SlotTable.allocate
  split
  · next has =>
    refine ⟨valid, ?_⟩
    intro k'
    rw [← get_isSome] at has
    obtain ⟨bucket, found⟩ := Option.isSome_iff_exists.1 has
    split
    · next same => rw [same, found, Option.getD_some]
    · rfl
  · next none =>
    have none := Option.not_isSome_iff_eq_none.1 none
    obtain ⟨reserved, nonempty⟩ := valid.reserve positive
    obtain ⟨taken, buckets⟩ := reserved.take nonempty k
    have absent : t.get k = .none := by rw [get, none, Option.map_none]
    refine ⟨taken, ?_⟩
    intro k'
    rw [buckets, reserve_get, absent, Option.getD_none]

/-- Only the bucket of the key changes. -/
theorem Valid.modify (k : K) (f : List A → List A) :
    (t.modify k f).Valid ∧ ∀ k', (t.modify k f).get k' = if k' = k then (t.get k).map f else t.get k' := by
  unfold SlotTable.modify
  split
  · next none =>
    refine ⟨valid, ?_⟩
    intro k'
    split
    · next same => rw [same, get, none, Option.map_none, Option.map_none]
    · rfl
  · next i found =>
    have inside := valid.inside found
    refine ⟨⟨?_, ?_, valid.injective, valid.apart, ?_, valid.nodup⟩, ?_⟩
    · rw [length_set]
      exact valid.next
    · intro k' j here
      rw [length_set]
      exact valid.inside here
    · intro j here
      obtain ⟨bound, empty⟩ := valid.unused j here
      have other : j ≠ i := by
        rintro rfl
        exact valid.apart found here
      rw [length_set, getD_set _ inside, if_neg other]
      exact ⟨bound, empty⟩
    · intro k'
      simp only [get, getD_set _ inside]
      by_cases same : k' = k
      · rw [if_pos same, same, found, Option.map_some, Option.map_some, Option.map_some, if_pos rfl]
      · rw [if_neg same]
        cases here : t.index k' with
        | none => rfl
        | some j =>
          have other : j ≠ i := by
            rintro rfl
            exact same (valid.injective here found)
          rw [Option.map_some, Option.map_some, if_neg other]

/-- The key has no bucket any more. -/
theorem Valid.release (k : K) :
    (t.release k).Valid ∧ ∀ k', (t.release k).get k' = if k' = k then none else t.get k' := by
  unfold SlotTable.release
  split
  · next none =>
    refine ⟨valid, ?_⟩
    intro k'
    split
    · next same => rw [same, get, none, Option.map_none]
    · rfl
  · next i found =>
    have inside := valid.inside found
    have old : ∀ {k' j}, update t.index k none k' = .some j → k' ≠ k ∧ t.index k' = .some j := by
      intro k' j here
      by_cases same : k' = k
      · rw [same, update_self] at here
        cases here
      · rw [update_of_ne same] at here
        exact ⟨same, here⟩
    have fresh : ∀ {k' j}, k' ≠ k → t.index k' = .some j → j ≠ i := by
      rintro k' j other here rfl
      exact other (valid.injective here found)
    refine ⟨⟨?_, ?_, ?_, ?_, ?_, ?_⟩, ?_⟩
    · rw [length_set]
      exact valid.next
    · intro k' j here
      rw [length_set]
      exact valid.inside (old here).2
    · intro k₁ k₂ j first second
      exact valid.injective (old first).2 (old second).2
    · intro k' j here again
      obtain ⟨other, here⟩ := old here
      rcases mem_append.1 again with again | again
      · exact valid.apart here again
      · exact fresh other here (mem_singleton.1 again)
    · intro j here
      rw [length_set, getD_set _ inside]
      rcases mem_append.1 here with here | here
      · obtain ⟨bound, empty⟩ := valid.unused j here
        refine ⟨bound, ?_⟩
        split
        · rfl
        · exact empty
      · rw [mem_singleton.1 here, if_pos rfl]
        exact ⟨inside, rfl⟩
    · apply nodup_append.2
      refine ⟨valid.nodup, pairwise_singleton _ i, ?_⟩
      rintro j here j' again rfl
      exact valid.apart found (mem_singleton.1 again ▸ here)
    · intro k'
      simp only [get, getD_set _ inside]
      by_cases same : k' = k
      · rw [if_pos same, same, update_self, Option.map_none]
      · rw [if_neg same, update_of_ne same]
        cases here : t.index k' with
        | none => rfl
        | some j => rw [Option.map_some, Option.map_some, if_neg (fresh same here)]

end SlotTable

end Osrm.Lib
