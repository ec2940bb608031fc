import Std.Data.TreeMap.Lemmas
import Std.Data.HashMap.Lemmas
import Osrm.Lib.KeyedQueue

/-!
# The query heap

`QueryHeap` keeps every node inserted since the last `Clear` in a vector, beside a mutable
heap of keys and positions; an index storage maps a node to its position. The storages differ
in what they forget: `ArrayStorage` forgets nothing, so its positions may be left over from
earlier searches. The heap itself is `boost::heap::d_ary_heap`, given by what it promises
(`MutableHeap`).

While the positions, the handles and the heap agree (`QueryHeap.Consistent`), a query heap
can be read as the queue of labels that the searches are modelled with (`QueryHeap.labels`).
-/

namespace Osrm.Util

/-- What `QueryHeap` needs of its index storage: assignment through `operator[]`, `peek_index` and `Clear`. Nothing is
asked of nodes that were not assigned. -/
class IndexStorage (S : Type) (n : outParam ℕ) where
  assign : S → Fin n → ℕ → S
  peekIndex : S → Fin n → ℕ
  clear : S → S
  peek_assign_self : ∀ s v k, peekIndex (assign s v k) v = k
  peek_assign_ne : ∀ s v k u, u ≠ v → peekIndex (assign s v k) u = peekIndex s u

def maxKey : ℕ := 2147483647

structure ArrayStorage (n : ℕ) where
  positions : Vector ℕ n

structure MapStorage (n : ℕ) where
  nodes : Std.TreeMap (Fin n) ℕ

structure UnorderedMapStorage (n : ℕ) where
  nodes : Std.HashMap (Fin n) ℕ

/-- `TwoLevelStorage`: the first `k` nodes are in the overlay. -/
structure TwoLevelStorage (n k : ℕ) where
  base : UnorderedMapStorage n
  overlay : ArrayStorage k

instance {n : ℕ} : IndexStorage (ArrayStorage n) n where
  assign s v k := ⟨s.positions.set v k v.isLt⟩
  peekIndex s v := s.positions.get v
  clear s := s
  peek_assign_self s v k := by
    change (s.positions.set v k v.isLt)[v.val] = k
    simp
  peek_assign_ne s v k u ne := by
    change (s.positions.set v k v.isLt)[u.val] = s.positions[u.val]
    exact Vector.getElem_set_ne _ _ (fun same => ne (Fin.ext same.symm))

instance {n : ℕ} : IndexStorage (MapStorage n) n where
  assign s v k := ⟨s.nodes.insert v k⟩
  peekIndex s v := s.nodes[v]?.getD maxKey
  clear _ := ⟨∅⟩
  peek_assign_self s v k := by simp
  peek_assign_ne s v k u ne := by
    rw [Std.TreeMap.getElem?_insert, if_neg (fun same => ne (Std.LawfulEqCmp.eq_of_compare same).symm)]

instance {n : ℕ} : IndexStorage (UnorderedMapStorage n) n where
  assign s v k := ⟨s.nodes.insert v k⟩
  peekIndex s v := s.nodes[v]?.getD maxKey
  clear _ := ⟨∅⟩
  peek_assign_self s v k := by simp
  peek_assign_ne s v k u ne := by
    rw [Std.HashMap.getElem?_insert, if_neg (by simpa using ne.symm)]

instance {n k : ℕ} : IndexStorage (TwoLevelStorage n k) n where
  assign s v key :=
    if small : v.val < k then { s with overlay := IndexStorage.assign s.overlay ⟨v, small⟩ key }
    else { s with base := IndexStorage.assign s.base v key }
  peekIndex s v :=
    if small : v.val < k then IndexStorage.peekIndex s.overlay ⟨v, small⟩ else IndexStorage.peekIndex s.base v
  clear s := ⟨IndexStorage.clear s.base, IndexStorage.clear s.overlay⟩
  peek_assign_self s v key := by
    by_cases small : v.val < k
    · rw [dif_pos small, dif_pos small, IndexStorage.peek_assign_self]
    · rw [dif_neg small, dif_neg small, IndexStorage.peek_assign_self]
  peek_assign_ne s v key u ne := by
    by_cases small : u.val < k
    · rw [dif_pos small, dif_pos small]
      split
      · exact IndexStorage.peek_assign_ne _ _ _ _ fun same => ne (Fin.ext (Fin.mk.inj same))
      · rfl
    · rw [dif_neg small, dif_neg small]
      split
      · rfl
      · exact IndexStorage.peek_assign_ne _ _ _ _ ne

/-- The order of the pairs in the heap. -/
def pairLe (a b : ℤ × ℕ) : Prop := a.1 < b.1 ∨ a.1 = b.1 ∧ a.2 ≤ b.2

/-- What `boost::heap::d_ary_heap` promises: a handle leads to its element until the element is removed, wherever the heap
moves it; the top is a least element. The handle of `end()` never leads to an element. -/
class MutableHeap (H : Type) (Handle : outParam Type) where
  empty : H
  push : H → ℤ × ℕ → H × Handle
  top : H → Option (ℤ × ℕ)
  pop : H → H
  increase : H → Handle → ℤ × ℕ → H
  clear : H → H
  size : H → ℕ
  endHandle : H → Handle
  /-- The element that a handle leads to. -/
  elem : H → Handle → Option (ℤ × ℕ)
  elem_empty : ∀ h, elem empty h = none
  elem_end : ∀ q, elem q (endHandle q) = none
  elem_push_self : ∀ q v, elem (push q v).1 (push q v).2 = some v
  elem_push_ne : ∀ q v h, h ≠ (push q v).2 → elem (push q v).1 h = elem q h
  push_fresh : ∀ q v, elem q (push q v).2 = none
  top_none : ∀ q, top q = none ↔ ∀ h, elem q h = none
  top_le : ∀ q v, top q = some v → ∀ h w, elem q h = some w → pairLe v w
  elem_pop : ∀ q v, top q = some v → ∃ h, elem q h = some v ∧ elem (pop q) h = none ∧ ∀ h', h' ≠ h → elem (pop q) h' = elem q h'
  elem_increase_self : ∀ q h v w, elem q h = some w → pairLe v w → elem (increase q h v) h = some v
  elem_increase_ne : ∀ q h v w, elem q h = some w → pairLe v w → ∀ h', h' ≠ h → elem (increase q h v) h' = elem q h'
  elem_clear : ∀ q h, elem (clear q) h = none
  end_push : ∀ q v, endHandle (push q v).1 = endHandle q
  end_pop : ∀ q, endHandle (pop q) = endHandle q
  end_increase : ∀ q h v, endHandle (increase q h v) = endHandle q
  end_clear : ∀ q, endHandle (clear q) = endHandle q
  size_empty : size empty = 0
  size_push : ∀ q v, size (push q v).1 = size q + 1
  size_pop : ∀ q v, top q = some v → size (pop q) + 1 = size q
  size_increase : ∀ q h v w, elem q h = some w → pairLe v w → size (increase q h v) = size q
  size_clear : ∀ q, size (clear q) = 0

structure HeapNode (n : ℕ) (D Handle : Type) where
  handle : Handle
  node : Fin n
  weight : ℤ
  data : D

structure QueryHeap (S H Handle : Type) (n : ℕ) (D : Type) where
  insertedNodes : List (HeapNode n D Handle)
  heap : H
  nodeIndex : S

namespace QueryHeap

open IndexStorage MutableHeap Lib

variable {S H Handle : Type} {n : ℕ} {D : Type} [IndexStorage S n] [MutableHeap H Handle]

section Operations

variable (q : QueryHeap S H Handle n D)

def clear : QueryHeap S H Handle n D :=
  ⟨[], MutableHeap.clear q.heap, IndexStorage.clear q.nodeIndex⟩

/-- `QueryHeap`, over a storage in any state -/
def create (storage : S) : QueryHeap S H Handle n D := clear ⟨[], MutableHeap.empty, storage⟩

def size : ℕ := MutableHeap.size q.heap

def isEmpty : Bool := q.size = 0

def insert (node : Fin n) (weight : ℤ) (data : D) : QueryHeap S H Handle n D :=
  let index := q.insertedNodes.length
  let pushed := push q.heap (weight, index)
  ⟨q.insertedNodes ++ [⟨pushed.2, node, weight, data⟩], pushed.1, assign q.nodeIndex node index⟩

/-- The vector element behind a node, `inserted_nodes[node_index.peek_index(node)]`. -/
def slot? (node : Fin n) : Option (HeapNode n D Handle) :=
  q.insertedNodes[peekIndex q.nodeIndex node]?

def wasInserted (node : Fin n) : Bool := (q.slot? node).any (·.node = node)

def getHeapNodeIfWasInserted (node : Fin n) : Option (HeapNode n D Handle) :=
  (q.slot? node).filter (·.node = node)

def getKey (node : Fin n) : Option ℤ := (q.slot? node).map (·.weight)

def getData (node : Fin n) : Option D := (q.slot? node).map (·.data)

def WasRemoved (node : Fin n) : Prop :=
  ∃ x, q.slot? node = some x ∧ x.handle = endHandle q.heap

def min? : Option (Fin n) :=
  (top q.heap).bind fun t => q.insertedNodes[t.2]?.map (·.node)

def minKey? : Option ℤ := (top q.heap).map (·.1)

/-- Assignment to one element of `inserted_nodes`. -/
def setSlot (index : ℕ) (f : HeapNode n D Handle → HeapNode n D Handle) :
    QueryHeap S H Handle n D := { q with insertedNodes := q.insertedNodes.modify index f }

/-- Assignment through the reference that `GetData` returns. -/
def setData (node : Fin n) (data : D) : QueryHeap S H Handle n D :=
  q.setSlot (peekIndex q.nodeIndex node) fun x => { x with data }

/-- `DeleteMin`: the heap without its top and the node that was removed. -/
def deleteMin : QueryHeap S H Handle n D × Option (Fin n) :=
  match top q.heap with
  | none => (q, none)
  | some (_, removedIndex) =>
    let heap := pop q.heap
    let q := { q with heap }.setSlot removedIndex fun x => { x with handle := endHandle heap }
    (q, q.insertedNodes[removedIndex]?.map (·.node))

def deleteAll : QueryHeap S H Handle n D :=
  ⟨q.insertedNodes.map fun x => { x with handle := endHandle q.heap }, MutableHeap.clear q.heap, q.nodeIndex⟩

def decreaseKey (node : Fin n) (weight : ℤ) : QueryHeap S H Handle n D :=
  let index := peekIndex q.nodeIndex node
  match q.slot? node with
  | none => q
  | some x => { q.setSlot index fun x => { x with weight } with heap := increase q.heap x.handle (weight, index) }

/-- `DecreaseKey` of a heap node whose `weight` was lowered before through the reference to it: the position is that of
the element behind the handle. -/
def decreaseKeyOf (node : Fin n) (weight : ℤ) : QueryHeap S H Handle n D :=
  match q.slot? node with
  | none => q
  | some x => { q.setSlot (peekIndex q.nodeIndex node) fun x => { x with weight } with
      heap := increase q.heap x.handle (weight, ((elem q.heap x.handle).map (·.2)).getD 0) }

inductive Op (n : ℕ) (D : Type)
  | clear
  | insert (node : Fin n) (weight : ℤ) (data : D)
  | setData (node : Fin n) (data : D)
  | decreaseKey (node : Fin n) (weight : ℤ)
  | decreaseKeyOf (node : Fin n) (weight : ℤ)
  | deleteMin
  | deleteAll

def step : Op n D → QueryHeap S H Handle n D
  | .clear => q.clear
  | .insert node weight data => q.insert node weight data
  | .setData node data => q.setData node data
  | .decreaseKey node weight => q.decreaseKey node weight
  | .decreaseKeyOf node weight => q.decreaseKeyOf node weight
  | .deleteMin => q.deleteMin.1
  | .deleteAll => q.deleteAll

/-- The label of an element of `inserted_nodes`; it is queued as long as its handle leads to an element. -/
def entryOf (heap : H) (x : HeapNode n D Handle) : Entry (Fin n) D :=
  ⟨⟨x.node, x.weight, x.data⟩, (elem heap x.handle).isSome⟩

/-- The queue of labels that a query heap stands for. -/
def labels : KeyedQueue (Fin n) D := ⟨(q.insertedNodes.map (entryOf q.heap)).reverse⟩

end Operations

/-- The positions, the handles and the heap agree. -/
structure Consistent (q : QueryHeap S H Handle n D) : Prop where
  unique : (q.insertedNodes.map (·.node)).Nodup
  indexed : ∀ i x, q.insertedNodes[i]? = some x → peekIndex q.nodeIndex x.node = i
  handles : ∀ i x, q.insertedNodes[i]? = some x → elem q.heap x.handle = some (x.weight, i) ∨ x.handle = endHandle q.heap
  owned : ∀ h w i, elem q.heap h = some (w, i) → ∃ x, q.insertedNodes[i]? = some x ∧ x.handle = h
  sized : MutableHeap.size q.heap = q.labels.size

section Observe

variable {q : QueryHeap S H Handle n D} {x : HeapNode n D Handle} {i : ℕ} {v : Fin n}
  {f : HeapNode n D Handle → HeapNode n D Handle} {e : Entry (Fin n) D} {heap : H}

theorem Consistent.unique_labels (inv : Consistent q) : q.labels.Unique := by
  have nodes : q.labels.entries.map (·.node) = (q.insertedNodes.map (·.node)).reverse := by
    simp only [labels, List.map_reverse, List.map_map]
    rfl
  unfold KeyedQueue.Unique
  rw [nodes]
  exact List.nodup_reverse.2 inv.unique

omit [IndexStorage S n] in
theorem mem_labels : e ∈ q.labels.entries ↔ ∃ x ∈ q.insertedNodes, entryOf q.heap x = e := by
  simp only [labels, List.mem_reverse, List.mem_map]

variable (inv : Consistent q) (at_ : q.insertedNodes[i]? = some x)

include inv at_

/-- A node that was inserted is found at its position. -/
theorem Consistent.slot : q.slot? x.node = some x := by
  rw [slot?, inv.indexed i x at_, at_]

theorem Consistent.find :
    q.labels.find? x.node = some (entryOf q.heap x) :=
  KeyedQueue.find?_of_mem inv.unique_labels (mem_labels.2 ⟨x, List.mem_of_getElem? at_, rfl⟩)

omit inv at_ in
omit [IndexStorage S n] in
/-- A label belongs to an element of `inserted_nodes`. -/
theorem exists_slot (found : q.labels.find? v = some e) :
    ∃ (i : ℕ) (x : HeapNode n D Handle), q.insertedNodes[i]? = some x ∧ x.node = v ∧ entryOf q.heap x = e := by
  obtain ⟨mem, node⟩ := KeyedQueue.find?_mem found
  obtain ⟨x, hx, rfl⟩ := mem_labels.1 mem
  obtain ⟨i, lt, at_⟩ := List.getElem_of_mem hx
  exact ⟨i, x, by rw [List.getElem?_eq_getElem lt, at_], node, rfl⟩

omit inv at_ in
/-- `WasInserted` tells positions left over from earlier searches apart. -/
theorem Consistent.wasInserted_eq (inv : Consistent q) (v : Fin n) : q.wasInserted v = q.labels.wasInserted v := by
  unfold wasInserted KeyedQueue.wasInserted
  cases found : q.labels.find? v with
  | some e =>
    obtain ⟨i, x, at_, rfl, -⟩ := exists_slot found
    rw [inv.slot at_]
    simp
  | none =>
    cases slot : q.slot? v with
    | none => rfl
    | some x =>
      have other : x.node ≠ v := by
        intro same
        have := inv.find slot
        rw [same, found] at this
        cases this
      simp [other]

theorem Consistent.removed_iff :
    x.handle = endHandle q.heap ↔ (entryOf q.heap x).queued = false := by
  constructor
  · intro dead
    change (elem q.heap x.handle).isSome = false
    rw [dead, elem_end]
    rfl
  · intro out
    rcases inv.handles i x at_ with alive | dead
    · change (elem q.heap x.handle).isSome = false at out
      rw [alive] at out
      cases out
    · exact dead

theorem Consistent.alive (queued : (entryOf q.heap x).queued = true) :
    elem q.heap x.handle = some (x.weight, i) := by
  rcases inv.handles i x at_ with alive | dead
  · exact alive
  · rw [inv.removed_iff at_, queued] at dead
    cases dead

omit inv at_ in
/-- What can be read of a node that was inserted. -/
theorem Consistent.read (inv : Consistent q) (found : q.labels.find? v = some e) :
    q.getKey v = some e.weight ∧ q.getData v = some e.data ∧ (q.WasRemoved v ↔ e.queued = false) := by
  obtain ⟨i, x, at_, rfl, rfl⟩ := exists_slot found
  have slot := inv.slot at_
  refine ⟨?_, ?_, ?_⟩
  · rw [getKey, slot]
    rfl
  · rw [getData, slot]
    rfl
  · rw [← inv.removed_iff at_]
    unfold WasRemoved
    rw [slot]
    constructor
    · rintro ⟨y, same, dead⟩
      cases same
      exact dead
    · exact fun dead => ⟨x, rfl, dead⟩

omit inv at_ in
/-- Equal nodes are at equal positions. -/
theorem Consistent.position (inv : Consistent q) {j : ℕ} {y : HeapNode n D Handle} (at_ : q.insertedNodes[i]? = some x)
    (there : q.insertedNodes[j]? = some y) : y.node = x.node ↔ j = i := by
  constructor
  · intro same
    rw [← inv.indexed i x at_, ← inv.indexed j y there, same]
  · rintro rfl
    rw [at_] at there
    cases there
    rfl

omit inv at_ in
omit [IndexStorage S n] [MutableHeap H Handle] in
theorem getElem?_setSlot (j : ℕ) :
    (q.insertedNodes.modify i f)[j]? = q.insertedNodes[j]?.map fun y => if j = i then f y else y := by
  rw [List.getElem?_modify]
  simp only [eq_comm]
  rfl

/-- Changing one element of `inserted_nodes` changes the label of its node. -/
theorem Consistent.labels_modify {g : Entry (Fin n) D → Entry (Fin n) D}
    (own : entryOf heap (f x) = g (entryOf q.heap x))
    (others : ∀ j y, q.insertedNodes[j]? = some y → j ≠ i → entryOf heap y = entryOf q.heap y) :
    labels ⟨q.insertedNodes.modify i f, heap, q.nodeIndex⟩ = q.labels.update x.node g := by
  unfold labels KeyedQueue.update
  simp only [List.map_reverse, List.map_map]
  congr 2
  apply List.ext_getElem?
  intro j
  rw [List.getElem?_map, List.getElem?_map, getElem?_setSlot]
  cases there : q.insertedNodes[j]? with
  | none => rfl
  | some y =>
    have position := inv.position at_ there
    change some (entryOf heap (if j = i then f y else y)) =
      some (if y.node = x.node then g (entryOf q.heap y) else entryOf q.heap y)
    by_cases here : j = i
    · subst here
      rw [at_] at there
      cases there
      rw [if_pos rfl, if_pos rfl, own]
    · rw [if_neg here, if_neg fun same => here (position.1 same), others j y there here]

/-- Changing one element keeps the heap consistent, as long as the handles still fit. -/
theorem Consistent.modify (node : ∀ y, (f y).node = y.node)
    (own : elem heap (f x).handle = some ((f x).weight, i) ∨ (f x).handle = endHandle heap)
    (others : ∀ j y, q.insertedNodes[j]? = some y → j ≠ i →
      elem heap y.handle = some (y.weight, j) ∨ y.handle = endHandle heap)
    (owned : ∀ h w j, elem heap h = some (w, j) → ∃ y, q.insertedNodes[j]? = some y ∧ (if j = i then f y else y).handle = h)
    (sized : MutableHeap.size heap = (labels (⟨q.insertedNodes.modify i f, heap, q.nodeIndex⟩ : QueryHeap S H Handle n D)).size) :
    Consistent (⟨q.insertedNodes.modify i f, heap, q.nodeIndex⟩ : QueryHeap S H Handle n D) := by
  have read : ∀ j, (q.insertedNodes.modify i f)[j]? = q.insertedNodes[j]?.map fun y => if j = i then f y else y :=
    getElem?_setSlot
  have nodes : (q.insertedNodes.modify i f).map (·.node) = q.insertedNodes.map (·.node) := by
    apply List.ext_getElem?
    intro j
    rw [List.getElem?_map, List.getElem?_map, read]
    cases q.insertedNodes[j]? with
    | none => rfl
    | some y =>
      simp only [Option.map_some]
      split
      · rw [node]
      · rfl
  refine ⟨by rw [nodes]; exact inv.unique, ?_, ?_, ?_, sized⟩
  · intro j y there
    rw [read] at there
    obtain ⟨y', found, rfl⟩ := Option.map_eq_some_iff.1 there
    rw [← inv.indexed j y' found]
    split
    · rw [node]
    · rfl
  · intro j y there
    rw [read] at there
    obtain ⟨y', found, rfl⟩ := Option.map_eq_some_iff.1 there
    by_cases here : j = i
    · subst here
      rw [at_] at found
      cases found
      rw [if_pos rfl]
      exact own
    · rw [if_neg here]
      exact others j y' found here
  · intro h w j leads
    obtain ⟨y, there, handle⟩ := owned h w j leads
    exact ⟨_, by rw [read, there]; rfl, handle⟩

end Observe

end QueryHeap

end Osrm.Util
