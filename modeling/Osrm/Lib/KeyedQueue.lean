import Mathlib.Data.List.MinMax
import Mathlib.Data.List.Nodup

/-!
# Indexed priority queues that remember their nodes

A queue keeps one entry for every node ever inserted. Taking the minimum out only
clears the entry's `queued` mark, so the key and the data of a settled node stay
readable. Entries are listed newest first; among equal keys the oldest is taken.

`relax` is the update every label-setting search makes: insert an unknown node,
replace the label of a known one when the new label is better.
-/

namespace Osrm.Lib

open Function List

/-- A node with a tentative key and the data kept beside it. -/
structure Label (V D : Type*) where
  node : V
  weight : ℤ
  data : D
  deriving DecidableEq, Repr

/-- An entry of a queue: a label, and whether it still waits in the queue. -/
structure Entry (V D : Type*) extends Label V D where
  queued : Bool
  deriving DecidableEq, Repr

/-- The entries of all nodes inserted so far, newest first. -/
structure KeyedQueue (V D : Type*) where
  entries : List (Entry V D)
  deriving DecidableEq, Repr

namespace KeyedQueue

variable {V D : Type*} (q : KeyedQueue V D)

def empty : KeyedQueue V D := ⟨[]⟩

def insert (l : Label V D) : KeyedQueue V D := ⟨⟨l, true⟩ :: q.entries⟩

def waiting : List (Entry V D) := q.entries.filter (·.queued)

def settled : List (Entry V D) := q.entries.filter (!·.queued)

def size : ℕ := q.waiting.length

def isEmpty (q : KeyedQueue V D) : Bool := q.waiting.isEmpty

/-- The waiting entry with the least key, the oldest one among equals. -/
def top? : Option (Entry V D) :=
  @List.argmin _ ℤ Int.instLinearOrder.toPreorder _ (·.weight) q.waiting.reverse

def minKey? : Option ℤ := q.top?.map (·.weight)

def deleteAll : KeyedQueue V D := ⟨q.entries.map fun e => { e with queued := false }⟩

variable [DecidableEq V] (q : KeyedQueue V D) (v : V)

def find? (q : KeyedQueue V D) (v : V) : Option (Entry V D) := q.entries.find? (·.node = v)

def wasInserted : Bool := (q.find? v).isSome

def update (f : Entry V D → Entry V D) : KeyedQueue V D :=
  ⟨q.entries.map fun e => if e.node = v then f e else e⟩

/-- Take the entry of `v` out of the queue. -/
def dequeue : KeyedQueue V D := q.update v fun e => { e with queued := false }

/-- Offer a label to the queue; `lt new old` says that the new label is better. -/
def relax (lt : Label V D → Label V D → Bool) (q : KeyedQueue V D) (l : Label V D) : KeyedQueue V D :=
  match q.find? l.node with
  | none => q.insert l
  | some e => if lt l e.toLabel then q.update l.node fun e => { e with toLabel := l } else q

def Unique : Prop := (q.entries.map (·.node)).Nodup

/-- Some entry of `v` has a key of at most `w`. -/
def Reached (w : ℤ) : Prop := ∃ e ∈ q.entries, e.node = v ∧ e.weight ≤ w

section Lookup

omit [DecidableEq V]
variable {q : KeyedQueue V D} {e e' a : Entry V D} {l : Label V D} {v : V} {w : ℤ}

@[simp] theorem mem_waiting : e ∈ q.waiting ↔ e ∈ q.entries ∧ e.queued = true := by
  simp [waiting]

@[simp] theorem mem_settled : e ∈ q.settled ↔ e ∈ q.entries ∧ e.queued = false := by
  simp [settled]

theorem isEmpty_iff_settled : q.isEmpty = true ↔ ∀ e ∈ q.entries, e.queued = false := by
  simp [isEmpty, waiting]

theorem top?_mem (top : q.top? = some a) : a ∈ q.entries ∧ a.queued = true := by
  have := argmin_mem top
  simpa using this

theorem top?_le (top : q.top? = some a) (he : e ∈ q.entries) (queued : e.queued = true) :
    a.weight ≤ e.weight := by
  refine le_of_mem_argmin (f := fun e : Entry V D => e.weight) (a := e) ?_ top
  simpa using ⟨he, queued⟩

/-- The first waiting entry of least key is taken. -/
theorem top?_of_first {l₁ l₂ : List (Entry V D)} (order : q.entries.reverse = l₁ ++ e :: l₂) (queued : e.queued = true)
    (before : ∀ a ∈ l₁, a.queued = true → e.weight < a.weight) (after : ∀ a ∈ l₂, a.queued = true → e.weight ≤ a.weight) :
    q.top? = some e := by
  classical
  have waiting : q.waiting.reverse = l₁.filter (·.queued) ++ e :: l₂.filter (·.queued) := by
    rw [waiting, ← filter_reverse, order, filter_append, filter_cons_of_pos queued]
  have early : ∀ a ∈ l₁.filter (·.queued), e.weight < a.weight := by
    intro a ha
    obtain ⟨mem, waits⟩ := mem_filter.1 ha
    exact before a mem waits
  have position : ∀ a ∉ l₁.filter (·.queued), (l₁.filter (·.queued)).length ≤
      (l₁.filter (·.queued) ++ e :: l₂.filter (·.queued)).idxOf a := by
    intro a ha
    rw [idxOf_append_of_notMem ha]
    exact Nat.le_add_right _ _
  unfold top?
  rw [waiting]
  refine mem_argmin_iff.2 ⟨by simp, ?_, ?_⟩
  · intro a ha
    rcases mem_append.1 ha with first | ha
    · exact (early a first).le
    · rcases mem_cons.1 ha with rfl | last
      · exact le_rfl
      · obtain ⟨mem, waits⟩ := mem_filter.1 last
        exact after a mem waits
  · intro a ha le
    have own : e ∉ l₁.filter (·.queued) := fun mem => lt_irrefl _ (early e mem)
    have other : a ∉ l₁.filter (·.queued) := fun mem => absurd le (not_le.2 (early a mem))
    rw [idxOf_append_of_notMem own, idxOf_cons_self]
    exact position a other

theorem top?_eq_none : q.top? = none ↔ q.isEmpty = true := by
  simp [top?, isEmpty]

theorem exists_top (nonempty : q.isEmpty = false) : ∃ a, q.top? = some a := by
  cases top : q.top? with
  | none => rw [top?_eq_none.1 top] at nonempty; cases nonempty
  | some a => exact ⟨a, rfl⟩

theorem Reached.mono {w' : ℤ} (h : q.Reached v w) (le : w ≤ w') : q.Reached v w' := by
  obtain ⟨e, he, node, weight⟩ := h
  exact ⟨e, he, node, weight.trans le⟩

theorem Unique.eq (unique : q.Unique) (he : e ∈ q.entries) (he' : e' ∈ q.entries)
    (same : e.node = e'.node) : e = e' :=
  inj_on_of_nodup_map unique he he' same

@[simp] theorem mem_insert : e ∈ (q.insert l).entries ↔ e = ⟨l, true⟩ ∨ e ∈ q.entries := by
  simp [KeyedQueue.insert]

theorem mem_deleteAll : e ∈ q.deleteAll.entries ↔ ∃ e' ∈ q.entries, { e' with queued := false } = e := by
  simp [deleteAll]

theorem Unique.deleteAll (unique : q.Unique) : q.deleteAll.Unique := by
  simpa [KeyedQueue.Unique, KeyedQueue.deleteAll, comp_def] using unique

variable [DecidableEq V] {f : Entry V D → Entry V D}

theorem find?_mem (found : q.find? v = some e) : e ∈ q.entries ∧ e.node = v := by
  have := find?_some found
  exact ⟨mem_of_find?_eq_some found, by simpa using this⟩

theorem find?_none : q.find? v = none ↔ ∀ e ∈ q.entries, e.node ≠ v := by
  simp [find?]

theorem find?_of_mem (unique : q.Unique) (he : e ∈ q.entries) : q.find? e.node = some e := by
  cases found : q.find? e.node with
  | none => exact absurd rfl (find?_none.1 found e he)
  | some e' =>
    obtain ⟨mem, node⟩ := find?_mem found
    rw [unique.eq mem he node]

theorem mem_update :
    e' ∈ (q.update v f).entries ↔ ∃ e ∈ q.entries, (if e.node = v then f e else e) = e' := by
  simp [update]

theorem find?_insert : (q.insert l).find? v = if l.node = v then some ⟨l, true⟩ else q.find? v := by
  by_cases same : l.node = v <;> simp [find?, KeyedQueue.insert, same]

theorem find?_update_map (node : ∀ e, (f e).node = e.node) {x : V} :
    (q.update v f).find? x = (q.find? x).map fun e => if e.node = v then f e else e := by
  have keep : ∀ e : Entry V D, (if e.node = v then f e else e).node = e.node := by
    intro e
    split
    · exact node e
    · rfl
  have same : ((fun e : Entry V D => decide (e.node = x)) ∘ fun e => if e.node = v then f e else e) = fun e => decide (e.node = x) :=
    funext fun e => congrArg (fun node => decide (node = x)) (keep e)
  rw [find?, update, List.find?_map, same]
  rfl

theorem find?_update (node : ∀ e, (f e).node = e.node) {x : V} (found : q.find? x = some e) :
    (q.update v f).find? x = some (if e.node = v then f e else e) := by
  rw [find?_update_map node, found]
  rfl

theorem find?_deleteAll : q.deleteAll.find? v = (q.find? v).map fun e => { e with queued := false } := by
  rw [find?, deleteAll, List.find?_map]
  rfl

theorem update_nodes (node : ∀ e, (f e).node = e.node) :
    (q.update v f).entries.map (·.node) = q.entries.map (·.node) := by
  simp only [update, map_map]
  refine map_congr_left fun e _ => ?_
  simp only [comp]
  split <;> simp [node]

theorem Unique.dequeue (unique : q.Unique) (v : V) : (q.dequeue v).Unique := by
  unfold KeyedQueue.Unique KeyedQueue.dequeue
  rw [update_nodes (f := fun e => { e with queued := false }) fun _ => rfl]
  exact unique

theorem mem_dequeue : e' ∈ (q.dequeue v).entries ↔
    (e' ∈ q.entries ∧ e'.node ≠ v) ∨ ∃ e ∈ q.entries, e.node = v ∧ e' = { e with queued := false } := by
  simp only [dequeue, mem_update]
  constructor
  · rintro ⟨e, he, rfl⟩
    by_cases same : e.node = v
    · exact .inr ⟨e, he, same, by simp [same]⟩
    · exact .inl (by simpa [same] using he)
  · rintro (⟨he, node⟩ | ⟨e, he, node, rfl⟩)
    · exact ⟨e', he, by simp [node]⟩
    · exact ⟨e, he, by simp [node]⟩

theorem size_update (queued : ∀ e, (f e).queued = e.queued) : (q.update v f).size = q.size := by
  unfold size waiting update
  rw [← countP_eq_length_filter, ← countP_eq_length_filter, countP_map]
  apply countP_congr
  intro e _
  simp only [comp]
  split
  · rw [queued]
  · rfl

/-- Taking an entry out of the queue shortens the queue by one. -/
theorem size_dequeue (unique : q.Unique) (found : q.find? v = some e) (queued : e.queued = true) :
    (q.dequeue v).size + 1 = q.size := by
  unfold size waiting dequeue update
  rw [← countP_eq_length_filter, ← countP_eq_length_filter]
  unfold find? at found
  unfold KeyedQueue.Unique at unique
  induction entries : q.entries generalizing q with
  | nil =>
    rw [entries] at found
    cases found
  | cons a l ih =>
    rw [entries] at found unique
    rw [map_cons, nodup_cons] at unique
    simp only [map_cons, countP_cons]
    by_cases here : a.node = v
    · -- the entry of `v` comes first, so that the others keep theirs
      have same : a = e := by
        rw [find?_cons_of_pos (by simpa using here)] at found
        exact Option.some.inj found
      have others : l.map (fun e => if e.node = v then { e with queued := false } else e) = l := by
        have apart : ∀ b ∈ l, b.node ≠ v := fun b hb eq => unique.1 (mem_map.2 ⟨b, hb, eq.trans here.symm⟩)
        conv_rhs => rw [← map_id l]
        exact map_congr_left fun b hb => if_neg (apart b hb)
      rw [others, if_pos here, same, queued]
      simp
    · rw [find?_cons_of_neg (by simpa using here)] at found
      have rest := ih (q := ⟨l⟩) unique.2 found rfl
      rw [if_neg here, Nat.add_right_comm, rest]

end Lookup

section Relax

variable {q : KeyedQueue V D} {lt : Label V D → Label V D → Bool} {l : Label V D} {Q : Label V D → Prop}

/-- What one relaxation can do. -/
theorem relax_cases (lt : Label V D → Label V D → Bool) (q : KeyedQueue V D) (l : Label V D) :
    ((∀ e ∈ q.entries, e.node ≠ l.node) ∧ q.relax lt l = q.insert l) ∨
    (∃ e, q.find? l.node = some e ∧ lt l e.toLabel = true ∧
      q.relax lt l = q.update l.node fun e => { e with toLabel := l }) ∨
    (∃ e, q.find? l.node = some e ∧ lt l e.toLabel = false ∧ q.relax lt l = q) := by
  unfold relax
  cases found : q.find? l.node with
  | none => exact .inl ⟨find?_none.1 found, rfl⟩
  | some e =>
    cases better : lt l e.toLabel with
    | true => exact .inr (.inl ⟨e, rfl, better, by simp [better]⟩)
    | false => exact .inr (.inr ⟨e, rfl, better, by simp [better]⟩)

theorem Unique.relax (unique : q.Unique) : (q.relax lt l).Unique := by
  rcases relax_cases lt q l with ⟨fresh, eq⟩ | ⟨e, found, _, eq⟩ | ⟨_, _, _, eq⟩
  · rw [eq]
    refine nodup_cons.2 ⟨?_, unique⟩
    intro mem
    obtain ⟨e, he, same⟩ := mem_map.1 mem
    exact fresh e he same
  · rw [eq]
    have same : (q.update l.node fun e => { e with toLabel := l }).entries.map (·.node) =
        q.entries.map (·.node) := by
      simp only [update, map_map]
      refine map_congr_left fun e _ => ?_
      simp only [comp]
      split <;> simp_all
    unfold KeyedQueue.Unique
    rw [same]
    exact unique
  · rw [eq]
    exact unique

/-- What holds of all labels and of the new one holds after the relaxation. -/
theorem relax_labels (all : ∀ e ∈ q.entries, Q e.toLabel) (new : Q l) :
    ∀ e ∈ (q.relax lt l).entries, Q e.toLabel := by
  intro e mem
  rcases relax_cases lt q l with ⟨_, eq⟩ | ⟨_, _, _, eq⟩ | ⟨_, _, _, eq⟩
  · rw [eq] at mem
    rcases mem_cons.1 mem with rfl | old
    · exact new
    · exact all e old
  · rw [eq, mem_update] at mem
    obtain ⟨e', old, rfl⟩ := mem
    split
    · exact new
    · exact all e' old
  · rw [eq] at mem
    exact all e mem

theorem dequeue_labels (all : ∀ e ∈ q.entries, Q e.toLabel) (v : V) :
    ∀ e ∈ (q.dequeue v).entries, Q e.toLabel := by
  intro e mem
  rcases mem_dequeue.1 mem with ⟨old, _⟩ | ⟨e', old, _, rfl⟩
  · exact all e old
  · exact all e' old

/-- Relaxing a label leaves the other nodes alone. -/
theorem find?_relax_of_ne {v : V} (ne : l.node ≠ v) : (q.relax lt l).find? v = q.find? v := by
  rcases relax_cases lt q l with ⟨_, eq⟩ | ⟨_, _, _, eq⟩ | ⟨_, _, _, eq⟩
  · rw [eq, find?_insert, if_neg ne]
  · rw [eq]
    unfold find? update
    induction q.entries with
    | nil => rfl
    | cons e es ih =>
      by_cases same : e.node = l.node
      · simpa [same, ne] using ih
      · by_cases here : e.node = v
        · simp [here, ne.symm]
        · simpa [same, here] using ih
  · rw [eq]

/-- Relaxing a label that is not better than the one the node has. -/
theorem relax_of_worse {e : Entry V D} (found : q.find? l.node = some e) (worse : lt l e.toLabel = false) :
    q.relax lt l = q := by
  simp [relax, found, worse]

end Relax

end KeyedQueue

end Osrm.Lib
