import Osrm.Util.QueryHeap

/-!
# The query heap as an indexed priority queue

Each operation of `QueryHeap` keeps it consistent and does to its labels what the operation
of the same name does to a queue of labels. A sequence of operations that respects what the
callers promise therefore behaves as an indexed priority queue (`run_indexed_queue`),
whatever the index storage holds at its start.
-/

namespace Osrm.Util

open Function List

open Lib.KeyedQueue hiding update

namespace QueryHeap

open IndexStorage MutableHeap Lib

variable {S H Handle : Type} {n : ℕ} {D : Type} [IndexStorage S n] [MutableHeap H Handle] {weight w : ℤ}

section Steps

variable {q : QueryHeap S H Handle n D} {v : Fin n} {e : Entry (Fin n) D} {i : ℕ}

omit [IndexStorage S n] in
theorem labels_size : q.labels.size = q.insertedNodes.countP fun x => (elem q.heap x.handle).isSome := by
  unfold KeyedQueue.size KeyedQueue.waiting labels
  rw [filter_reverse, length_reverse, ← countP_eq_length_filter, countP_map]
  rfl

theorem clear_step : Consistent q.clear ∧ q.clear.labels = .empty := by
  refine ⟨⟨nodup_nil, nofun, nofun, ?_, size_clear _⟩, rfl⟩
  intro h w i leads
  rw [clear, elem_clear] at leads
  cases leads

theorem getElem?_concat {α : Type} {l : List α} {a x : α} (found : (l ++ [a])[i]? = some x) :
    l[i]? = some x ∨ i = l.length ∧ x = a := by
  grind

variable (inv : Consistent q)

include inv

/-- The handle of a pushed element is not in use. -/
theorem Consistent.push_apart (element : ℤ × ℕ) {x : HeapNode n D Handle}
    (at_ : q.insertedNodes[i]? = some x) : x.handle ≠ (push q.heap element).2 := by
  intro same
  rcases inv.handles i x at_ with alive | dead
  · rw [same, push_fresh] at alive
    cases alive
  · have none := elem_end (push q.heap element).1
    rw [end_push, ← dead, same, elem_push_self] at none
    cases none

/-- `Insert` of a node that was not inserted. -/
theorem Consistent.insert_step (fresh : q.labels.wasInserted v = false) (weight : ℤ) (data : D) :
    Consistent (q.insert v weight data) ∧ (q.insert v weight data).labels = q.labels.insert ⟨v, weight, data⟩ := by
  have unseen : ∀ x ∈ q.insertedNodes, x.node ≠ v := by
    intro x hx same
    have found := Option.isNone_iff_eq_none.1 (Option.isSome_eq_false_iff.1 fresh)
    exact find?_none.1 found _ (mem_labels.2 ⟨x, hx, rfl⟩) same
  have apart := fun {i x} => inv.push_apart (weight, q.insertedNodes.length) (i := i) (x := x)
  have same : ∀ {i : ℕ} {x : HeapNode n D Handle}, q.insertedNodes[i]? = some x →
      elem (push q.heap (weight, q.insertedNodes.length)).1 x.handle = elem q.heap x.handle :=
    fun at_ => elem_push_ne _ _ _ (apart at_)
  have labels : (q.insert v weight data).labels = q.labels.insert ⟨v, weight, data⟩ := by
    unfold QueryHeap.insert QueryHeap.labels KeyedQueue.insert
    simp only [map_append, map_cons, map_nil, reverse_append, reverse_cons, reverse_nil,
      nil_append, singleton_append]
    have own : entryOf (push q.heap (weight, q.insertedNodes.length)).1
        (⟨(push q.heap (weight, q.insertedNodes.length)).2, v, weight, data⟩ : HeapNode n D Handle) = ⟨⟨v, weight, data⟩, true⟩ := by
      unfold entryOf
      rw [elem_push_self]
      rfl
    have others : q.insertedNodes.map (entryOf (push q.heap (weight, q.insertedNodes.length)).1) =
        q.insertedNodes.map (entryOf q.heap) := by
      apply map_congr_left
      intro x hx
      obtain ⟨i, at_⟩ := getElem?_of_mem hx
      unfold entryOf
      rw [same at_]
    rw [own, others]
  refine ⟨⟨?_, ?_, ?_, ?_, ?_⟩, labels⟩
  · change ((q.insertedNodes ++ [_]).map _).Nodup
    rw [map_append, nodup_append]
    refine ⟨inv.unique, nodup_singleton _, ?_⟩
    intro a ha b hb
    obtain ⟨x, hx, rfl⟩ := mem_map.1 ha
    rw [mem_singleton.1 hb]
    exact unseen x hx
  · intro i x at_
    rcases getElem?_concat at_ with old | ⟨rfl, rfl⟩
    · exact (peek_assign_ne _ _ _ _ (unseen x (mem_of_getElem? old))).trans (inv.indexed i x old)
    · exact peek_assign_self _ _ _
  · intro i x at_
    rcases getElem?_concat at_ with old | ⟨rfl, rfl⟩
    · rcases inv.handles i x old with alive | dead
      · exact .inl ((same old).trans alive)
      · exact .inr (dead.trans (end_push _ _).symm)
    · exact .inl (elem_push_self _ _)
  · intro h w i leads
    by_cases new : h = (push q.heap (weight, q.insertedNodes.length)).2
    · have element := elem_push_self q.heap (weight, q.insertedNodes.length)
      rw [← new] at element
      cases leads.symm.trans element
      exact ⟨_, getElem?_concat_length, new.symm⟩
    · have old := (elem_push_ne q.heap (weight, q.insertedNodes.length) h new).symm.trans leads
      obtain ⟨x, at_, handle⟩ := inv.owned h w i old
      refine ⟨x, ?_, handle⟩
      change (q.insertedNodes ++ [_])[i]? = some x
      rw [getElem?_append_left (List.getElem?_eq_some_iff.1 at_).1, at_]
  · rw [labels]
    change MutableHeap.size (push q.heap (weight, q.insertedNodes.length)).1 = _
    rw [size_push, inv.sized]
    rfl

/-- Assignment to the data of a node that was inserted. -/
theorem Consistent.setData_step (found : q.labels.find? v = some e) (data : D) :
    Consistent (q.setData v data) ∧ (q.setData v data).labels = q.labels.update v fun e => { e with data } := by
  obtain ⟨i, x, at_, rfl, rfl⟩ := exists_slot found
  have index := inv.indexed i x at_
  have labels : (q.setData x.node data).labels = q.labels.update x.node fun e => { e with data } := by
    unfold setData
    rw [index]
    exact inv.labels_modify at_ rfl fun _ _ _ _ => rfl
  refine ⟨?_, labels⟩
  have sized : MutableHeap.size q.heap = (q.setData x.node data).labels.size := by
    rw [labels, size_update (f := fun e => { e with data }) fun _ => rfl, inv.sized]
  unfold setData at sized ⊢
  rw [index] at sized ⊢
  refine inv.modify (f := fun x => { x with data }) at_ (fun _ => rfl) (inv.handles i x at_)
    (fun j y there _ => inv.handles j y there) ?_ sized
  intro h w j leads
  obtain ⟨y, there, handle⟩ := inv.owned h w j leads
  refine ⟨y, there, ?_⟩
  split
  · exact handle
  · exact handle

/-- Handles of different nodes that lead to elements are different. -/
theorem Consistent.handles_apart {j : ℕ} {x y : HeapNode n D Handle} {element : ℤ × ℕ}
    (at_ : q.insertedNodes[i]? = some x) (there : q.insertedNodes[j]? = some y) (alive : elem q.heap x.handle = some element)
    (ne : j ≠ i) : y.handle ≠ x.handle := by
  intro same
  rcases inv.handles i x at_ with alive' | dead
  · rcases inv.handles j y there with alive'' | dead
    · rw [same, alive'] at alive''
      exact ne (Prod.mk.inj (Option.some.inj alive'')).2.symm
    · rw [← same, dead, elem_end] at alive
      cases alive
  · rw [dead, elem_end] at alive
    cases alive

/-- `DecreaseKey` of a queued node to a smaller key. -/
theorem Consistent.decreaseKey_step (found : q.labels.find? v = some e)
    (queued : e.queued = true) (smaller : weight ≤ e.weight) :
    Consistent (q.decreaseKey v weight) ∧ (q.decreaseKey v weight).labels = q.labels.update v fun e => { e with weight } := by
  obtain ⟨i, x, at_, rfl, rfl⟩ := exists_slot found
  have index := inv.indexed i x at_
  have alive := inv.alive at_ queued
  have le : pairLe (weight, i) (x.weight, i) := by
    rcases lt_or_eq_of_le smaller with less | same
    · exact .inl less
    · exact .inr ⟨same, le_rfl⟩
  have own := elem_increase_self q.heap x.handle (weight, i) _ alive le
  have other := elem_increase_ne q.heap x.handle (weight, i) _ alive le
  have eq : q.decreaseKey x.node weight =
      ⟨q.insertedNodes.modify i fun x => { x with weight }, increase q.heap x.handle (weight, i), q.nodeIndex⟩ := by
    unfold decreaseKey
    rw [inv.slot at_, index]
    rfl
  have labels : (q.decreaseKey x.node weight).labels = q.labels.update x.node fun e => { e with weight } := by
    rw [eq]
    apply inv.labels_modify at_
    · unfold entryOf
      rw [own, alive]
      rfl
    · intro j y there ne
      unfold entryOf
      rw [other _ (inv.handles_apart at_ there alive ne)]
  refine ⟨?_, labels⟩
  have sized : MutableHeap.size (increase q.heap x.handle (weight, i)) = (q.decreaseKey x.node weight).labels.size := by
    rw [labels, size_update (f := fun e => { e with weight }) fun _ => rfl, size_increase _ _ _ _ alive le, inv.sized]
  rw [eq] at sized ⊢
  refine inv.modify (f := fun x => { x with weight }) at_ (fun _ => rfl) (.inl own) ?_ ?_ sized
  · intro j y there ne
    rw [other _ (inv.handles_apart at_ there alive ne), end_increase]
    exact inv.handles j y there
  · intro h w j leads
    by_cases here : h = x.handle
    · rw [here, own] at leads
      cases leads
      exact ⟨x, at_, by rw [if_pos rfl]; exact here.symm⟩
    · rw [other h here] at leads
      obtain ⟨y, there, handle⟩ := inv.owned h w j leads
      refine ⟨y, there, ?_⟩
      split
      · exact handle
      · exact handle

/-- Both forms of `DecreaseKey` do the same. -/
theorem Consistent.decreaseKeyOf_eq (found : q.labels.find? v = some e)
    (queued : e.queued = true) (weight : ℤ) : q.decreaseKeyOf v weight = q.decreaseKey v weight := by
  obtain ⟨i, x, at_, rfl, rfl⟩ := exists_slot found
  have alive := inv.alive at_ queued
  unfold decreaseKeyOf decreaseKey
  rw [inv.slot at_, inv.indexed i x at_]
  simp only [alive]
  rfl

/-- `DeleteAll` -/
theorem Consistent.deleteAll_step : Consistent q.deleteAll ∧ q.deleteAll.labels = q.labels.deleteAll := by
  have labels : q.deleteAll.labels = q.labels.deleteAll := by
    unfold deleteAll QueryHeap.labels KeyedQueue.deleteAll
    simp only [map_reverse, map_map]
    congr 2
    apply map_congr_left
    intro x _
    simp only [comp, entryOf, elem_clear]
    rfl
  refine ⟨⟨?_, ?_, ?_, ?_, ?_⟩, labels⟩
  · simpa [deleteAll, comp_def] using inv.unique
  · intro i x at_
    obtain ⟨y, there, rfl⟩ := Option.map_eq_some_iff.1 ((getElem?_map).symm.trans at_)
    exact inv.indexed i y there
  · intro i x at_
    obtain ⟨y, -, rfl⟩ := Option.map_eq_some_iff.1 ((getElem?_map).symm.trans at_)
    exact .inr (end_clear q.heap).symm
  · intro h w i leads
    rw [deleteAll, elem_clear] at leads
    cases leads
  · change MutableHeap.size (MutableHeap.clear q.heap) = _
    rw [size_clear, labels_size]
    symm
    rw [countP_eq_zero]
    intro x _
    change ¬ (elem (MutableHeap.clear q.heap) x.handle).isSome = true
    rw [elem_clear]
    simp

/-- The top of the heap belongs to the first queued node of least key. -/
theorem Consistent.top_spec (highest : top q.heap = some (w, i)) :
    ∃ x, q.insertedNodes[i]? = some x ∧ elem q.heap x.handle = some (w, i) ∧ x.weight = w ∧
      elem (pop q.heap) x.handle = none ∧ (∀ h, h ≠ x.handle → elem (pop q.heap) h = elem q.heap h) ∧
      q.labels.top? = some (entryOf q.heap x) := by
  obtain ⟨h, leads, gone, others⟩ := elem_pop q.heap (w, i) highest
  obtain ⟨x, at_, rfl⟩ := inv.owned h w i leads
  have queued : (entryOf q.heap x).queued = true := by
    change (elem q.heap x.handle).isSome = true
    rw [leads]
    rfl
  have alive := inv.alive at_ queued
  have weight : x.weight = w := (Prod.mk.inj (Option.some.inj (alive.symm.trans leads))).1
  have least : ∀ j y, q.insertedNodes[j]? = some y → (entryOf q.heap y).queued = true → pairLe (w, i) (y.weight, j) := by
    intro j y there waits
    exact top_le q.heap (w, i) highest _ _ (inv.alive there waits)
  refine ⟨x, at_, leads, weight, gone, others, ?_⟩
  obtain ⟨lt, here⟩ := List.getElem?_eq_some_iff.1 at_
  have order : q.labels.entries.reverse = (q.insertedNodes.take i).map (entryOf q.heap) ++ entryOf q.heap x ::
      (q.insertedNodes.drop (i + 1)).map (entryOf q.heap) := by
    unfold labels
    rw [reverse_reverse, ← map_cons, ← map_append]
    rw [← here, getElem_cons_drop, take_append_drop]
  apply top?_of_first order queued
  · intro a ha waits
    obtain ⟨y, hy, rfl⟩ := mem_map.1 ha
    obtain ⟨j, there⟩ := getElem?_of_mem hy
    rw [getElem?_take] at there
    split at there
    · rcases least j y there waits with less | ⟨-, le⟩
      · exact weight.trans_lt less
      · omega
    · cases there
  · intro a ha waits
    obtain ⟨y, hy, rfl⟩ := mem_map.1 ha
    obtain ⟨j, there⟩ := getElem?_of_mem hy
    rw [getElem?_drop] at there
    rcases least _ y there waits with less | ⟨same, -⟩
    · exact weight.trans_le less.le
    · exact weight.trans_le same.le

/-- The heap is empty exactly if no node is queued. -/
theorem Consistent.top_none_iff : top q.heap = none ↔ q.labels.isEmpty = true := by
  rw [top_none, isEmpty_iff_settled]
  constructor
  · intro none e he
    obtain ⟨x, -, rfl⟩ := mem_labels.1 he
    change (elem q.heap x.handle).isSome = false
    rw [none]
    rfl
  · intro settled h
    cases leads : elem q.heap h with
    | none => rfl
    | some element =>
      obtain ⟨x, at_, rfl⟩ := inv.owned h element.1 element.2 leads
      have out : (elem q.heap x.handle).isSome = false :=
        settled (entryOf q.heap x) (mem_labels.2 ⟨x, mem_of_getElem? at_, rfl⟩)
      rw [leads] at out
      cases out

/-- `DeleteMin` takes out the first queued node of least key. -/
theorem Consistent.deleteMin_step (waits : q.labels.isEmpty = false) :
    ∃ e, q.labels.top? = some e ∧ Consistent q.deleteMin.1 ∧ q.deleteMin.1.labels = q.labels.dequeue e.node ∧
      q.deleteMin.2 = some e.node ∧ q.min? = some e.node ∧ q.minKey? = some e.weight := by
  cases highest : top q.heap with
  | none =>
    rw [inv.top_none_iff.1 highest] at waits
    cases waits
  | some element =>
    obtain ⟨w, i⟩ := element
    obtain ⟨x, at_, leads, rfl, gone, others, first⟩ := inv.top_spec highest
    have eq : q.deleteMin = (⟨q.insertedNodes.modify i fun x => { x with handle := endHandle (pop q.heap) }, pop q.heap,
        q.nodeIndex⟩, some x.node) := by
      unfold deleteMin
      rw [highest]
      simp only [setSlot, getElem?_setSlot, at_, if_true, Option.map_some]
    have dead : elem (pop q.heap) (endHandle (pop q.heap)) = none := elem_end _
    have labels : q.deleteMin.1.labels = q.labels.dequeue x.node := by
      rw [eq]
      apply inv.labels_modify at_
      · unfold entryOf
        rw [dead]
        rfl
      · intro j y there ne
        unfold entryOf
        rw [others _ (inv.handles_apart at_ there leads ne)]
    have found := inv.find at_
    have queued := (top?_mem first).2
    have sized : MutableHeap.size (pop q.heap) = q.deleteMin.1.labels.size := by
      have shorter := size_dequeue inv.unique_labels found queued
      have popped := size_pop q.heap _ highest
      have := inv.sized
      rw [labels]
      omega
    refine ⟨entryOf q.heap x, first, ?_, labels, by rw [eq]; rfl, ?_, ?_⟩
    · rw [eq] at sized ⊢
      refine inv.modify (f := fun x => { x with handle := endHandle (pop q.heap) }) at_ (fun _ => rfl) (.inr rfl) ?_ ?_ sized
      · intro j y there ne
        rw [others _ (inv.handles_apart at_ there leads ne), end_pop]
        exact inv.handles j y there
      · intro h w j found
        have other : h ≠ x.handle := by
          rintro rfl
          rw [gone] at found
          cases found
        rw [others h other] at found
        obtain ⟨y, there, handle⟩ := inv.owned h w j found
        refine ⟨y, there, ?_⟩
        rw [if_neg]
        · exact handle
        · rintro rfl
          rw [at_] at there
          cases there
          exact other handle.symm
    · rw [min?, highest]
      change (q.insertedNodes[i]?).map (·.node) = some x.node
      rw [at_]
      rfl
    · rw [minKey?, highest]
      rfl

end Steps

/-- An indexed priority queue: the key and the data of every node inserted since it was cleared, and whether the node is
still queued. -/
abbrev Record (n : ℕ) (D : Type) := Fin n → Option (ℤ × D × Bool)

/-- What an operation does to an indexed priority queue; `removed` is the node that `DeleteMin` returns. -/
def Record.step (m : Record n D) (removed : Option (Fin n)) : Op n D → Record n D
  | .clear => fun _ => none
  | .insert node weight data => update m node (some (weight, data, true))
  | .setData node data => update m node ((m node).map fun e => (e.1, data, e.2.2))
  | .decreaseKey node weight => update m node ((m node).map fun e => (weight, e.2))
  | .decreaseKeyOf node weight => update m node ((m node).map fun e => (weight, e.2))
  | .deleteMin => fun v => if removed = some v then (m v).map fun e => (e.1, e.2.1, false) else m v
  | .deleteAll => fun v => (m v).map fun e => (e.1, e.2.1, false)

/-- The operations that a caller may use: insert new nodes, read and decrease nodes that are there, delete from a queue
that is not empty. -/
def Legal (m : Record n D) : Op n D → Prop
  | .insert node _ _ => m node = none
  | .setData node _ => m node ≠ none
  | .decreaseKey node weight => ∃ w d, m node = some (w, d, true) ∧ weight ≤ w
  | .decreaseKeyOf node weight => ∃ w d, m node = some (w, d, true) ∧ weight ≤ w
  | .deleteMin => ∃ v w d, m v = some (w, d, true)
  | .clear => True
  | .deleteAll => True

/-- A sequence of legal operations on a new query heap, with the indexed priority queue under the same operations. -/
inductive Run : QueryHeap S H Handle n D → Record n D → Prop
  | start (storage : S) : Run (create storage) fun _ => none
  | next {q : QueryHeap S H Handle n D} {m : Record n D} (op : Op n D) : Run q m → Legal m op →
      Run (q.step op) (m.step q.deleteMin.2 op)

section Runs

variable {q : QueryHeap S H Handle n D} {m : Record n D} {a : KeyedQueue (Fin n) D} {v : Fin n}

def recordOf (a : KeyedQueue (Fin n) D) : Record n D := fun v => (a.find? v).map fun e => (e.weight, e.data, e.queued)

theorem recordOf_update {f : Entry (Fin n) D → Entry (Fin n) D}
    (node : ∀ e, (f e).node = e.node) : recordOf (a.update v f) =
      update (recordOf a) v ((a.find? v).map fun e => ((f e).weight, (f e).data, (f e).queued)) := by
  funext u
  unfold recordOf
  rw [find?_update_map node]
  by_cases same : u = v
  · subst same
    rw [update_self]
    cases found : a.find? u with
    | none => rfl
    | some e => simp [(find?_mem found).2]
  · rw [update_of_ne same]
    cases found : a.find? u with
    | none => rfl
    | some e =>
      have other : e.node ≠ v := fun here => same ((find?_mem found).2.symm.trans here)
      simp [other]

theorem recordOf_none : recordOf a v = none ↔ a.wasInserted v = false := by
  unfold recordOf KeyedQueue.wasInserted
  cases a.find? v <;> simp

/-- A queued node of the record is a queued label. -/
theorem recordOf_some {d : D} {b : Bool} (entry : recordOf a v = some (w, d, b)) :
    ∃ e, a.find? v = some e ∧ e.weight = w ∧ e.data = d ∧ e.queued = b := by
  obtain ⟨e, found, eq⟩ := Option.map_eq_some_iff.1 entry
  simp only [Prod.mk.injEq] at eq
  exact ⟨e, found, eq.1, eq.2.1, eq.2.2⟩

/-- A record with a queued node is that of a queue that is not empty. -/
theorem not_isEmpty {d : D} (entry : recordOf a v = some (w, d, true)) :
    a.isEmpty = false := by
  obtain ⟨e, found, -, -, queued⟩ := recordOf_some entry
  by_contra empty
  rw [Bool.not_eq_false, isEmpty_iff_settled] at empty
  rw [empty e (find?_mem found).1] at queued
  cases queued

theorem Consistent.decreaseKey_spec (inv : Consistent q) {v : Fin n}
    (legal : Legal (recordOf q.labels) (.decreaseKey v weight)) : Consistent (q.decreaseKey v weight) ∧
      (recordOf q.labels).step q.deleteMin.2 (.decreaseKey v weight) = recordOf (q.decreaseKey v weight).labels := by
  obtain ⟨w, d, entry, smaller⟩ := legal
  obtain ⟨e, found, rfl, rfl, queued⟩ := recordOf_some entry
  obtain ⟨next, labels⟩ := inv.decreaseKey_step found queued smaller
  refine ⟨next, ?_⟩
  rw [labels, recordOf_update (f := fun e => { e with weight }) fun _ => rfl, Record.step, entry, found, queued.symm]
  rfl

/-- **One operation** does to the record of the labels what it does to an indexed priority queue. -/
theorem Consistent.step_spec (inv : Consistent q) (op : Op n D) (legal : Legal (recordOf q.labels) op) :
    Consistent (q.step op) ∧ (recordOf q.labels).step q.deleteMin.2 op = recordOf (q.step op).labels := by
  cases op with
  | clear => exact ⟨clear_step.1, rfl⟩
  | insert v weight data =>
    obtain ⟨next, labels⟩ := inv.insert_step (recordOf_none.1 legal) weight data
    refine ⟨next, ?_⟩
    change update _ _ _ = recordOf (q.insert v weight data).labels
    rw [labels]
    funext u
    by_cases same : u = v
    · rw [same, update_self, recordOf, find?_insert, if_pos rfl]
      rfl
    · rw [update_of_ne same, recordOf, recordOf, find?_insert, if_neg (Ne.symm same)]
  | setData v data =>
    obtain ⟨e, found⟩ : ∃ e, q.labels.find? v = some e := by
      cases found : q.labels.find? v with
      | none => exact absurd (by rw [recordOf, found]; rfl) legal
      | some e => exact ⟨e, rfl⟩
    obtain ⟨next, labels⟩ := inv.setData_step found data
    refine ⟨next, ?_⟩
    change update _ _ _ = recordOf (q.setData v data).labels
    have entry : recordOf q.labels v = some (e.weight, e.data, e.queued) := by rw [recordOf, found]; rfl
    rw [labels, recordOf_update (f := fun e => { e with data }) fun _ => rfl, entry, found]
    rfl
  | decreaseKey v weight => exact inv.decreaseKey_spec legal
  | decreaseKeyOf v weight =>
    obtain ⟨w, d, entry, -⟩ := id legal
    obtain ⟨e, found, -, -, queued⟩ := recordOf_some entry
    rw [QueryHeap.step, inv.decreaseKeyOf_eq found queued]
    exact inv.decreaseKey_spec legal
  | deleteMin =>
    obtain ⟨v, w, d, entry⟩ := legal
    obtain ⟨e, -, next, labels, removed, -⟩ := inv.deleteMin_step (not_isEmpty entry)
    refine ⟨next, ?_⟩
    change (fun u => if q.deleteMin.2 = some u then (recordOf q.labels u).map fun e => (e.1, e.2.1, false)
      else recordOf q.labels u) = recordOf q.deleteMin.1.labels
    rw [labels, removed, dequeue, recordOf_update (f := fun e => { e with queued := false }) fun _ => rfl]
    funext u
    by_cases same : u = e.node
    · rw [same, update_self, if_pos rfl, recordOf, Option.map_map]
      rfl
    · rw [update_of_ne same, if_neg fun here => same (Option.some.inj here).symm]
  | deleteAll =>
    obtain ⟨next, labels⟩ := inv.deleteAll_step
    refine ⟨next, ?_⟩
    change (fun u => (recordOf q.labels u).map fun e => (e.1, e.2.1, false)) = recordOf q.deleteAll.labels
    rw [labels]
    funext u
    simp only [recordOf, find?_deleteAll, Option.map_map]
    rfl

/-- **A run** keeps the heap consistent, and its labels are those of the indexed priority queue. -/
theorem Run.consistent (run : Run q m) : Consistent q ∧ m = recordOf q.labels := by
  induction run with
  | start storage => exact ⟨clear_step.1, rfl⟩
  | next op _ legal ih =>
    obtain ⟨inv, rfl⟩ := ih
    exact inv.step_spec op legal

/-- **The query heap is an indexed priority queue**, whatever its index storage: after any sequence of operations it knows
the nodes inserted since the last `Clear` with their last keys and data, it knows which of them are no longer queued, and
`DeleteMin` returns a queued node of least key. -/
theorem run_indexed_queue (run : Run q m) :
    (∀ v, q.wasInserted v = true ↔ m v ≠ none) ∧
    (∀ v, (q.getHeapNodeIfWasInserted v).map (fun x => (x.weight, x.data)) = (m v).map fun e => (e.1, e.2.1)) ∧
    (∀ v w d b, m v = some (w, d, b) → q.getKey v = some w ∧ q.getData v = some d ∧ (q.WasRemoved v ↔ b = false)) ∧
    (q.isEmpty = true ↔ ¬ ∃ v w d, m v = some (w, d, true)) ∧
    ((∃ v w d, m v = some (w, d, true)) → ∃ v w d, q.deleteMin.2 = some v ∧ q.min? = some v ∧ q.minKey? = some w ∧
      m v = some (w, d, true) ∧ ∀ u w' d', m u = some (w', d', true) → w ≤ w') := by
  obtain ⟨inv, rfl⟩ := run.consistent
  have queued_of : ∀ {e : Entry (Fin n) D}, e ∈ q.labels.entries → e.queued = true →
      recordOf q.labels e.node = some (e.weight, e.data, true) := by
    intro e mem queued
    rw [recordOf, find?_of_mem inv.unique_labels mem, Option.map_some, queued]
  refine ⟨?_, ?_, ?_, ?_, ?_⟩
  · intro v
    rw [inv.wasInserted_eq, ne_eq, recordOf_none, Bool.not_eq_false]
  · intro v
    rw [recordOf]
    cases found : q.labels.find? v with
    | some e =>
      obtain ⟨i, x, at_, rfl, rfl⟩ := exists_slot found
      rw [getHeapNodeIfWasInserted, inv.slot at_, Option.filter_some_pos (by simp)]
      rfl
    | none =>
      have missing : q.wasInserted v = false := by rw [inv.wasInserted_eq, KeyedQueue.wasInserted, found]; rfl
      unfold wasInserted at missing
      unfold getHeapNodeIfWasInserted
      cases slot : q.slot? v with
      | none => rfl
      | some x =>
        rw [slot] at missing
        rw [Option.filter_some_neg (by simpa using missing)]
        rfl
  · intro v w d b entry
    obtain ⟨e, found, rfl, rfl, rfl⟩ := recordOf_some entry
    exact inv.read found
  · have size : q.isEmpty = true ↔ q.labels.isEmpty = true := by
      rw [isEmpty, decide_eq_true_iff, size, inv.sized, KeyedQueue.isEmpty, isEmpty_iff_length_eq_zero]
      rfl
    rw [size]
    constructor
    · rintro empty ⟨v, w, d, entry⟩
      rw [not_isEmpty entry] at empty
      cases empty
    · intro none
      rw [isEmpty_iff_settled]
      intro e he
      by_contra queued
      exact none ⟨_, _, _, queued_of he (by simpa using queued)⟩
  · rintro ⟨v, w, d, entry⟩
    obtain ⟨e, first, -, -, removed, least, key⟩ := inv.deleteMin_step (not_isEmpty entry)
    obtain ⟨mem, queued⟩ := top?_mem first
    refine ⟨e.node, e.weight, e.data, removed, least, key, queued_of mem queued, ?_⟩
    intro u w' d' other
    obtain ⟨e', found, rfl, -, queued'⟩ := recordOf_some other
    exact top?_le first (find?_mem found).1 queued'

end Runs

/-- A mutable heap as a list of slots; a handle is the number of a slot. -/
structure SlotHeap where
  slots : List (Option (ℤ × ℕ))

namespace SlotHeap

variable (q : SlotHeap)

def elem : Option ℕ → Option (ℤ × ℕ)
  | none => none
  | some i => q.slots[i]?.join

instance (a b : ℤ × ℕ) : Decidable (pairLe a b) := inferInstanceAs (Decidable (a.1 < b.1 ∨ a.1 = b.1 ∧ a.2 ≤ b.2))

def least : List (ℤ × ℕ) → Option (ℤ × ℕ)
  | [] => none
  | v :: l =>
    match least l with
    | none => some v
    | some w => if pairLe v w then some v else some w

def top : Option (ℤ × ℕ) := least (q.slots.filterMap id)

def pop : SlotHeap :=
  match q.top with
  | none => q
  | some v => ⟨q.slots.set (q.slots.idxOf (some v)) none⟩

def increase (h : Option ℕ) (v : ℤ × ℕ) : SlotHeap :=
  match h with
  | none => q
  | some i => ⟨q.slots.set i (some v)⟩

variable {q : SlotHeap} {v w : ℤ × ℕ} {i : ℕ} {l : List (ℤ × ℕ)}

theorem least_none : least l = none ↔ l = [] := by
  cases l with
  | nil => simp [least]
  | cons v l =>
    rw [least]
    split
    · simp
    · split <;> simp

theorem least_spec : ∀ {v}, least l = some v → v ∈ l ∧ ∀ w ∈ l, pairLe v w := by
  induction l with
  | nil => exact nofun
  | cons u l ih =>
    intro v first
    have self : pairLe u u := .inr ⟨rfl, le_rfl⟩
    rw [least] at first
    split at first
    · rename_i none
      cases first
      rw [least_none.1 none]
      refine ⟨mem_singleton_self _, fun w hw => ?_⟩
      rw [mem_singleton.1 hw]
      exact self
    · rename_i w found
      obtain ⟨mem, low⟩ := ih found
      split at first
      · cases first
        refine ⟨mem_cons_self, fun x hx => ?_⟩
        rcases mem_cons.1 hx with rfl | hx
        · exact self
        · have := low x hx
          unfold pairLe at *
          omega
      · cases first
        refine ⟨mem_cons_of_mem _ mem, fun x hx => ?_⟩
        rcases mem_cons.1 hx with rfl | hx
        · unfold pairLe at *
          omega
        · exact low x hx

theorem elem_some : q.elem (some i) = some v ↔ q.slots[i]? = some (some v) := by
  change q.slots[i]?.join = some v ↔ _
  rw [Option.join_eq_some_iff]

theorem exists_slot {h : Option ℕ} (leads : q.elem h = some v) : ∃ i, h = some i ∧ q.slots[i]? = some (some v) := by
  cases h with
  | none => cases leads
  | some i => exact ⟨i, rfl, elem_some.1 leads⟩

theorem mem_slots : v ∈ q.slots.filterMap id ↔ ∃ h, q.elem h = some v := by
  rw [mem_filterMap]
  constructor
  · rintro ⟨slot, mem, rfl⟩
    obtain ⟨i, at_⟩ := getElem?_of_mem mem
    exact ⟨some i, elem_some.2 at_⟩
  · rintro ⟨h, leads⟩
    obtain ⟨i, rfl, at_⟩ := exists_slot leads
    exact ⟨some v, mem_of_getElem? at_, rfl⟩

/-- The slot of the top. -/
theorem top_slot (highest : q.top = some v) : q.slots[q.slots.idxOf (some v)]? = some (some v) := by
  obtain ⟨slot, mem, rfl⟩ := mem_filterMap.1 (least_spec highest).1
  exact getElem?_idxOf mem

section Set

variable (held : q.slots[i]? = some (some v)) (slot : Option (ℤ × ℕ))

include held

theorem elem_set (h : Option ℕ) : elem ⟨q.slots.set i slot⟩ h = if h = some i then slot else q.elem h := by
  cases h with
  | none => rfl
  | some j =>
    change (q.slots.set i slot)[j]?.join = _
    rw [getElem?_set]
    by_cases here : i = j
    · subst here
      rw [if_pos rfl, if_pos (List.getElem?_eq_some_iff.1 held).1, if_pos rfl]
      rfl
    · rw [if_neg here, if_neg fun same => here (Option.some.inj same).symm]
      rfl

theorem countP_set_slot : (q.slots.set i slot).countP (·.isSome) + 1 = q.slots.countP (·.isSome) + if slot.isSome then 1 else 0 := by
  obtain ⟨lt, here⟩ := List.getElem?_eq_some_iff.1 held
  have some : 0 < q.slots.countP (·.isSome) := countP_pos_iff.2 ⟨_, mem_of_getElem? held, rfl⟩
  simp only [countP_set lt, here, Option.isSome_some, if_true]
  omega

end Set

instance : MutableHeap SlotHeap (Option ℕ) where
  empty := ⟨[]⟩
  push q v := (⟨q.slots ++ [some v]⟩, some q.slots.length)
  top := top
  pop := pop
  increase := increase
  clear _ := ⟨[]⟩
  size q := q.slots.countP (·.isSome)
  endHandle _ := none
  elem := elem
  elem_empty h := by cases h <;> rfl
  elem_end _ := rfl
  elem_push_self q v := by
    apply elem_some.2
    exact getElem?_concat_length
  elem_push_ne q v h ne := by
    cases h with
    | none => rfl
    | some i =>
      change (q.slots ++ [some v])[i]?.join = q.slots[i]?.join
      have other : i ≠ q.slots.length := fun same => ne (congrArg some same)
      rw [getElem?_append]
      split
      · rfl
      · rw [getElem?_eq_none (by simp; omega), getElem?_eq_none (by omega)]
  push_fresh q v := by
    change q.slots[q.slots.length]?.join = none
    rw [getElem?_eq_none le_rfl]
    rfl
  top_none q := by
    rw [top, least_none, eq_nil_iff_forall_not_mem]
    constructor
    · intro none h
      cases leads : q.elem h with
      | none => rfl
      | some v => exact absurd (mem_slots.2 ⟨h, leads⟩) (none v)
    · intro none v mem
      obtain ⟨h, leads⟩ := mem_slots.1 mem
      rw [none] at leads
      cases leads
  top_le q v highest h w leads := (least_spec highest).2 w (mem_slots.2 ⟨h, leads⟩)
  elem_pop q v highest := by
    have at_ := top_slot highest
    have eq : q.pop = ⟨q.slots.set (q.slots.idxOf (some v)) none⟩ := by rw [pop, highest]
    refine ⟨some (q.slots.idxOf (some v)), elem_some.2 at_, ?_, fun h' ne => ?_⟩
    · rw [eq, elem_set at_, if_pos rfl]
    · rw [eq, elem_set at_, if_neg ne]
  elem_increase_self q h v w leads _ := by
    obtain ⟨i, rfl, held⟩ := exists_slot leads
    exact (elem_set held _ _).trans (if_pos rfl)
  elem_increase_ne q h v w leads _ h' ne := by
    obtain ⟨i, rfl, held⟩ := exists_slot leads
    exact (elem_set held _ _).trans (if_neg ne)
  elem_clear _ h := by cases h <;> rfl
  end_push _ _ := rfl
  end_pop _ := rfl
  end_increase _ _ _ := rfl
  end_clear _ := rfl
  size_empty := rfl
  size_push q v := by simp
  size_pop q v highest := by
    rw [pop, highest]
    exact countP_set_slot (top_slot highest) none
  size_increase q h v w leads _ := by
    obtain ⟨i, rfl, held⟩ := exists_slot leads
    exact Nat.succ.inj (countP_set_slot held (some v))
  size_clear _ := rfl

end SlotHeap

/-- Node `1` is gone after `Clear` although the storage still holds its old position, which is now that of node `0`. -/
theorem run_indexed_queue_stale :
    let q : QueryHeap (ArrayStorage 2) SlotHeap (Option ℕ) 2 Unit :=
      (((create ⟨#v[0, 0]⟩).step (.insert 1 5 ())).step .clear).step (.insert 0 3 ())
    q.wasInserted 1 = false ∧ q.getKey 0 = some 3 ∧ ¬ q.WasRemoved 0 ∧ q.deleteMin.2 = some 0 := by
  intro q
  have run : Run q (update (fun _ => none) 0 (some (3, (), true))) :=
    .next (.insert 0 3 ()) (.next .clear (.next (.insert 1 5 ()) (.start _) rfl) trivial) rfl
  obtain ⟨inserted, -, values, -, least⟩ := run_indexed_queue run
  obtain ⟨key, -, removed⟩ := values 0 3 () true rfl
  obtain ⟨v, w, d, deleted, -, -, queued, -⟩ := least ⟨0, 3, (), rfl⟩
  have node : v = 0 := by
    by_contra other
    rw [update_of_ne other] at queued
    cases queued
  refine ⟨?_, key, fun gone => Bool.noConfusion (removed.1 gone), node ▸ deleted⟩
  rw [← Bool.not_eq_true, inserted]
  exact fun some => some rfl

end QueryHeap

end Osrm.Util
