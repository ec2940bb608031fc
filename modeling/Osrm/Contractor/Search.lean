import Osrm.Lib.KeyedQueue
import Osrm.Contractor.GraphContractor

/-!
# The local search for witness paths

Before a node is contracted, `search` runs from the start of each edge into it. It never
enters the node itself and stops after a number of nodes, beyond a weight limit, or once
all ends of edges out of the node are settled. Those ends stand in the heap from the
beginning, with the key `invalidEdgeWeight`.

Wherever it stops, a finite key is the weight of a path around the node
(`searchWitness_finds`). A larger weight limit only lowers keys (`searchWitness_mono`).
-/

namespace Osrm

open Lib Lib.KeyedQueue ContractorGraph

open List (foldlRecOn append_of_mem)

variable {n : ℕ}

structure ContractorHeapData where
  hop : ℕ
  target : Bool
  deriving DecidableEq, Repr

abbrev ContractorHeap (n : ℕ) := KeyedQueue (Fin n) ContractorHeapData

variable (g : ContractorGraph n) (heap : ContractorHeap n)

/-- One edge of `relaxNode`: a known node keeps its `target` mark. -/
def relaxEdge (toNode : Fin n) (toWeight : ℤ) (hop : ℕ) : ContractorHeap n :=
  match heap.find? toNode with
  | none => heap.insert ⟨toNode, toWeight, ⟨hop, false⟩⟩
  | some known =>
    if toWeight < known.weight then heap.update toNode fun e => { e with weight := toWeight, data.hop := hop } else heap

def relaxNode (forbidden node : Fin n) (nodeWeight : ℤ) (heap : ContractorHeap n) :
    ContractorHeap n :=
  let hop := ((heap.find? node).map (·.data.hop)).getD 0 + 1
  (g.edges node).foldl (fun heap edge =>
    if edge.data.forward && edge.target ≠ forbidden then
      relaxEdge heap edge.target (add32 nodeWeight edge.data.weight) hop
    else heap) heap

/-- The loop of `search`. The first argument bounds the iterations; `nodeLimit + 1` is enough, for the
loop counts its nodes. -/
def searchLoop (g : ContractorGraph n) (numberOfTargets nodeLimit : ℕ) (weightLimit : ℤ) (forbidden : Fin n) :
    ℕ → ℕ → ℕ → ContractorHeap n → ContractorHeap n
  | 0, _, _, heap => heap
  | fuel + 1, nodes, found, heap =>
    match heap.top? with
    | none => heap
    | some e =>
      let popped := heap.dequeue e.node
      if nodes + 1 > nodeLimit then popped
      else if e.weight > weightLimit then popped
      else
        let found' := if e.data.target then found + 1 else found
        if e.data.target && decide (found' ≥ numberOfTargets) then popped
        else searchLoop g numberOfTargets nodeLimit weightLimit forbidden fuel (nodes + 1) found'
          (relaxNode g forbidden e.node e.weight popped)

def search (numberOfTargets nodeLimit : ℕ) (weightLimit : ℤ)
    (forbidden : Fin n) : ContractorHeap n :=
  searchLoop g numberOfTargets nodeLimit weightLimit forbidden (nodeLimit + 1) 0 0 heap

/-- What the first loop over the out-edges prepares for the search. -/
structure SearchInput (n : ℕ) where
  heap : ContractorHeap n
  maxWeight : ℤ
  numberOfTargets : ℕ

/-- The first loop over the out-edges, for out-edges that do not lead back to the source. -/
def addTarget (inEdge : DynamicEdge n ContractorEdgeData) (st : SearchInput n)
    (outEdge : DynamicEdge n ContractorEdgeData) : SearchInput n :=
  if outEdge.target = inEdge.target then st
  else
    let maxWeight := max st.maxWeight (viaWeight inEdge outEdge)
    if st.heap.wasInserted outEdge.target then { st with maxWeight }
    else ⟨st.heap.insert ⟨outEdge.target, invalidEdgeWeight, ⟨0, true⟩⟩, maxWeight, st.numberOfTargets + 1⟩

def searchInput (outs : List (DynamicEdge n ContractorEdgeData)) (inEdge : DynamicEdge n ContractorEdgeData) :
    SearchInput n :=
  outs.foldl (addTarget inEdge) ⟨empty.insert ⟨inEdge.target, 0, ⟨0, false⟩⟩, 0, 0⟩

def fullSearchSpaceSize : ℕ := 2000

/-- The key that `ContractNode` finds at `target` after the search for `inEdge`. -/
def searchWitness (node : Fin n) (inEdge : DynamicEdge n ContractorEdgeData)
    (target : Fin n) : ℤ :=
  let input := searchInput (outEdges g node) inEdge
  (((search g input.heap input.numberOfTargets fullSearchSpaceSize input.maxWeight node).find? target).map
    (·.weight)).getD invalidEdgeWeight

/-! ### Keys only fall -/

variable (g : ContractorGraph n) (heap : ContractorHeap n) {node : Fin n} (numberOfTargets nodeLimit : ℕ) (toNode : Fin n)

/-- Every key of `q` is there in `q'`, and no larger. -/
def Lowers (q q' : ContractorHeap n) : Prop :=
  ∀ t e, q.find? t = some e → ∃ e', q'.find? t = some e' ∧ e'.weight ≤ e.weight

theorem Lowers.refl (q : ContractorHeap n) : Lowers q q := fun _ e found => ⟨e, found, le_rfl⟩

theorem Lowers.trans {q q₁ q₂ : ContractorHeap n} (h : Lowers q q₁) (h' : Lowers q₁ q₂) : Lowers q q₂ := by
  intro t e found
  obtain ⟨e₁, found₁, le₁⟩ := h t e found
  obtain ⟨e₂, found₂, le₂⟩ := h' t e₁ found₁
  exact ⟨e₂, found₂, le₂.trans le₁⟩

theorem dequeue_lowers (v : Fin n) : Lowers heap (heap.dequeue v) := by
  intro t e found
  refine ⟨_, find?_update (by simp) found, ?_⟩
  split <;> exact le_rfl

theorem relaxEdge_lowers (w : ℤ) (hop : ℕ) :
    Lowers heap (relaxEdge heap toNode w hop) := by
  intro t e found
  unfold relaxEdge
  cases known : heap.find? toNode with
  | none =>
    have other : toNode ≠ t := by
      rintro rfl
      rw [found] at known
      cases known
    exact ⟨e, by simp [find?_insert, other, found], le_rfl⟩
  | some old =>
    simp only
    split_ifs with lighter
    · refine ⟨_, find?_update (by simp) found, ?_⟩
      split_ifs with same
      · have : e = old := by
          rw [← (find?_mem found).2, same, known] at found
          exact (Option.some.inj found).symm
        subst this
        exact lighter.le
      · exact le_rfl
    · exact ⟨e, found, le_rfl⟩

/-- Steps that lower keys do so one after the other. -/
theorem Lowers.foldl {S α : Type} (heap : S → ContractorHeap n) {step : S → α → S}
    (lowers : ∀ st a, Lowers (heap st) (heap (step st a))) (l : List α) (st : S) : Lowers (heap st) (heap (l.foldl step st)) :=
  foldlRecOn (motive := fun st' => Lowers (heap st) (heap st')) l step (.refl _) fun st' before a _ => before.trans (lowers st' a)

theorem relaxIf_lowers (forbidden : Fin n) (w : ℤ) (hop : ℕ) (heap : ContractorHeap n) (edge : DynamicEdge n ContractorEdgeData) :
    Lowers heap (if edge.data.forward && edge.target ≠ forbidden then relaxEdge heap edge.target (add32 w edge.data.weight) hop
      else heap) := by
  split
  · exact relaxEdge_lowers heap _ _ _
  · exact .refl heap

theorem relaxNode_lowers (forbidden node : Fin n) (w : ℤ) (heap : ContractorHeap n) :
    Lowers heap (relaxNode g forbidden node w heap) :=
  Lowers.foldl id (relaxIf_lowers forbidden w _) _ heap

theorem searchLoop_lowers (weightLimit : ℤ) (forbidden : Fin n)
    (fuel : ℕ) : ∀ nodes found heap,
      Lowers heap (searchLoop g numberOfTargets nodeLimit weightLimit forbidden fuel nodes found heap) := by
  induction fuel with
  | zero => exact fun _ _ heap => .refl heap
  | succ fuel ih =>
    intro nodes found heap
    unfold searchLoop
    split
    · exact .refl heap
    · rename_i e _
      have popped := dequeue_lowers heap e.node
      simp only
      split_ifs
      · exact popped
      · exact popped
      · exact popped
      · exact popped.trans ((relaxNode_lowers g _ _ _ _).trans (ih _ _ _))
      · exact popped
      · exact popped.trans ((relaxNode_lowers g _ _ _ _).trans (ih _ _ _))

/-- The search with the smaller weight limit stops earlier; the other one goes on from there. -/
theorem searchLoop_mono {limit limit' : ℤ} (le : limit ≤ limit')
    (forbidden : Fin n) (fuel : ℕ) : ∀ nodes found heap,
      Lowers (searchLoop g numberOfTargets nodeLimit limit forbidden fuel nodes found heap)
        (searchLoop g numberOfTargets nodeLimit limit' forbidden fuel nodes found heap) := by
  induction fuel with
  | zero => exact fun _ _ heap => .refl heap
  | succ fuel ih =>
    intro nodes found heap
    by_cases stop : ∃ e, heap.top? = some e ∧ e.weight > limit
    · obtain ⟨e, top, heavy⟩ := stop
      unfold searchLoop
      simp only [top]
      split_ifs
      all_goals first | exact .refl _ | exact (relaxNode_lowers g _ _ _ _).trans (searchLoop_lowers g _ _ _ _ _ _ _ _)
    · unfold searchLoop
      cases top : heap.top? with
      | none => exact .refl heap
      | some e =>
        have light : ¬ e.weight > limit := fun heavy => stop ⟨e, top, heavy⟩
        have light' : ¬ e.weight > limit' := by omega
        simp only [light, light']
        split_ifs
        all_goals first | exact .refl _ | exact ih _ _ _

/-! ### Finite keys are paths -/

/-- The paths from `source` that the search looks at. -/
def Around (g : ContractorGraph n) (forbidden : Fin n) : Arcs (Fin n) := fun x y c => g.Forward x y c ∧ y ≠ forbidden

/-- Each key below `invalidEdgeWeight` is the weight of a path around the forbidden node. -/
def KeysArePaths (g : ContractorGraph n) (forbidden source : Fin n) (heap : ContractorHeap n) : Prop :=
  ∀ e ∈ heap.entries, e.weight < invalidEdgeWeight → Walk (Around g forbidden) source e.node e.weight

section Paths

variable {g : ContractorGraph n} {forbidden source : Fin n} {heap : ContractorHeap n}

theorem KeysArePaths.dequeue (paths : KeysArePaths g forbidden source heap) (v : Fin n) :
    KeysArePaths g forbidden source (heap.dequeue v) := by
  intro e he light
  rcases mem_dequeue.1 he with ⟨old, -⟩ | ⟨e', he', -, rfl⟩
  · exact paths e old light
  · exact paths e' he' light

theorem KeysArePaths.relaxEdge (paths : KeysArePaths g forbidden source heap) {toNode : Fin n} {w : ℤ} (hop : ℕ)
    (path : w < invalidEdgeWeight → Walk (Around g forbidden) source toNode w) :
    KeysArePaths g forbidden source (relaxEdge heap toNode w hop) := by
  unfold Osrm.relaxEdge
  split
  · intro e he light
    rcases mem_insert.1 he with rfl | old
    · exact path light
    · exact paths e old light
  · split
    · intro e he light
      obtain ⟨e', he', rfl⟩ := mem_update.1 he
      by_cases same : e'.node = toNode
      · subst same
        simp only [if_true] at light ⊢
        exact path light
      · simp only [same] at light ⊢
        exact paths e' he' light
    · exact paths

variable (positive : ∀ u, ∀ e ∈ g.edges u, 0 < e.data.weight) {weightLimit : ℤ}
  (sums : ∀ u, ∀ e ∈ g.edges u, weightLimit + e.data.weight ≤ invalidEdgeWeight)

include positive sums

theorem KeysArePaths.relaxNode (paths : KeysArePaths g forbidden source heap) {w : ℤ} (within : w ≤ weightLimit)
    (path : w < invalidEdgeWeight → Walk (Around g forbidden) source node w) :
    KeysArePaths g forbidden source (relaxNode g forbidden node w heap) := by
  refine foldlRecOn _ _ paths fun heap paths edge mem => ?_
  split_ifs with open_
  · simp only [Bool.and_eq_true, decide_eq_true_eq] at open_
    have pos := positive node edge mem
    have small := sums node edge mem
    have walk := path (by omega)
    have nonneg : 0 ≤ w := walk.nonneg fun x y c ⟨⟨e, he, _, weight, _⟩, _⟩ => weight ▸ positive x e he
    rw [add32_eq (by omega) (by omega)]
    exact paths.relaxEdge _ fun _ => walk.snoc ⟨⟨edge, mem, rfl, rfl, open_.1⟩, open_.2⟩
  · exact paths

theorem KeysArePaths.searchLoop (numberOfTargets nodeLimit : ℕ) (fuel : ℕ) : ∀ nodes found heap, KeysArePaths g forbidden source heap →
      KeysArePaths g forbidden source
        (searchLoop g numberOfTargets nodeLimit weightLimit forbidden fuel nodes found heap) := by
  induction fuel with
  | zero => exact fun _ _ _ paths => paths
  | succ fuel ih =>
    intro nodes found heap paths
    unfold Osrm.searchLoop
    split
    · exact paths
    · rename_i e top
      have popped := paths.dequeue e.node
      have next := fun within => popped.relaxNode positive sums within (paths e (top?_mem top).1)
      simp only
      split_ifs with _ heavy
      all_goals first | exact popped | exact ih _ _ _ (next (not_lt.1 heavy))

end Paths

/-! ### The start of the search -/

section Input

variable {i i' : DynamicEdge n ContractorEdgeData} {st : SearchInput n}

theorem addTarget_lowers (st : SearchInput n) (o : DynamicEdge n ContractorEdgeData) :
    Lowers st.heap (addTarget i st o).heap := by
  unfold addTarget
  split
  · exact .refl _
  · split_ifs with fresh
    · exact .refl _
    · intro t e found
      have other : o.target ≠ t := by
        rintro rfl
        exact fresh (by simp [wasInserted, found])
      exact ⟨e, by simp [find?_insert, other, found], le_rfl⟩

variable (i st) in
/-- The source stands last, at zero, and all other ends at `invalidEdgeWeight`. -/
structure Starts : Prop where
  entries : ∃ ends, st.heap.entries = ends ++ [⟨⟨i.target, 0, ⟨0, false⟩⟩, true⟩] ∧ ∀ e ∈ ends, e.weight = invalidEdgeWeight
  limit : 0 ≤ st.maxWeight

theorem Starts.addTarget (starts : Starts i st) (o : DynamicEdge n ContractorEdgeData) :
    Starts i (addTarget i st o) := by
  have limit : 0 ≤ max st.maxWeight (viaWeight i o) := le_max_of_le_left starts.limit
  unfold Osrm.addTarget
  split
  · exact starts
  · split
    · exact ⟨starts.entries, limit⟩
    · obtain ⟨ends, entries, heavy⟩ := starts.entries
      refine ⟨⟨⟨⟨o.target, invalidEdgeWeight, ⟨0, true⟩⟩, true⟩ :: ends, ?_, List.forall_mem_cons.2 ⟨rfl, heavy⟩⟩, limit⟩
      rw [KeyedQueue.insert, entries]
      rfl

variable (outs : List (DynamicEdge n ContractorEdgeData))

theorem Starts.foldl :
    Starts i (outs.foldl (Osrm.addTarget i) ⟨empty.insert ⟨i.target, 0, ⟨0, false⟩⟩, 0, 0⟩) :=
  foldlRecOn outs _ ⟨⟨[], rfl, by simp⟩, le_rfl⟩ fun _ starts o _ => starts.addTarget o

theorem Starts.bounded (starts : Starts i st) {e : Entry (Fin n) ContractorHeapData}
    (mem : e ∈ st.heap.entries) : e.weight = invalidEdgeWeight ∨ e.weight = 0 ∧ e.node = i.target := by
  obtain ⟨ends, entries, heavy⟩ := starts.entries
  rw [entries, List.mem_append, List.mem_singleton] at mem
  rcases mem with end_ | rfl
  · exact .inl (heavy e end_)
  · exact .inr ⟨rfl, rfl⟩

theorem addTarget_found (starts : Starts i st) (o : DynamicEdge n ContractorEdgeData) :
    ∃ e, (addTarget i st o).heap.find? o.target = some e := by
  unfold addTarget
  split
  · rename_i same
    obtain ⟨ends, entries, -⟩ := starts.entries
    rw [same, ← Option.isSome_iff_exists, KeyedQueue.find?, List.find?_isSome]
    exact ⟨_, entries ▸ List.mem_append_right _ (List.mem_singleton_self _), by simp⟩
  · split_ifs with known
    · exact Option.isSome_iff_exists.1 known
    · exact ⟨⟨⟨o.target, invalidEdgeWeight, ⟨0, true⟩⟩, true⟩, by simp [find?_insert]⟩

/-- All ends stand in the heap the search starts with. -/
theorem searchInput_found {outs : List (DynamicEdge n ContractorEdgeData)} {o : DynamicEdge n ContractorEdgeData} (mem : o ∈ outs) :
    ∃ e, (searchInput outs i).heap.find? o.target = some e := by
  obtain ⟨before, after, rfl⟩ := append_of_mem mem
  rw [searchInput, List.foldl_append]
  obtain ⟨e, here⟩ := addTarget_found (Starts.foldl before) o
  obtain ⟨e', there, -⟩ := Lowers.foldl SearchInput.heap addTarget_lowers after _ _ e here
  exact ⟨e', there⟩

/-- The weight limit is the weight of the heaviest pair, or zero. -/
theorem searchInput_limit {limit : ℤ} (nonneg : 0 ≤ limit) (pairs : ∀ o ∈ outs, viaWeight i o ≤ limit) :
    (searchInput outs i).maxWeight ≤ limit := by
  refine foldlRecOn (motive := fun st : SearchInput n => st.maxWeight ≤ limit) outs _ nonneg fun st below o ho => ?_
  have max : Max.max st.maxWeight (viaWeight i o) ≤ limit := max_le below (pairs o ho)
  unfold addTarget
  split
  · exact below
  · split
    · exact max
    · exact max

/-- Two edges from the same node start the same search, but for the weight limit. -/
theorem searchInput_mono (same : i.target = i'.target) (le : ∀ o ∈ outs, viaWeight i o ≤ viaWeight i' o) :
    (searchInput outs i).heap = (searchInput outs i').heap ∧
      (searchInput outs i).numberOfTargets = (searchInput outs i').numberOfTargets ∧
      (searchInput outs i).maxWeight ≤ (searchInput outs i').maxWeight := by
  unfold searchInput
  rw [same]
  refine List.foldl_rel (r := fun (st st' : SearchInput n) => 
      st.heap = st'.heap ∧ st.numberOfTargets = st'.numberOfTargets ∧ st.maxWeight ≤ st'.maxWeight)
    ⟨rfl, rfl, le_rfl⟩ ?_
  rintro o ho st st' ⟨heap, targets, max⟩
  unfold addTarget
  rw [same, heap]
  split
  · exact ⟨heap, targets, max⟩
  · have max' : Max.max st.maxWeight (viaWeight i o) ≤ Max.max st'.maxWeight (viaWeight i' o) := max_le_max max (le o ho)
    split
    · exact ⟨rfl, targets, max'⟩
    · exact ⟨rfl, by simp [targets], max'⟩

end Input

/-! ### The search as a source of witnesses -/

variable {g : ContractorGraph n}

/-- The local search meets what a round asks of it. -/
theorem searchWitness_finds (positive : ∀ u, ∀ e ∈ g.edges u, 0 < e.data.weight) (sums : SumsFit g node) :
    FindsWitnesses g node (searchWitness g node) where
  le i _ o ho := by
    obtain ⟨e, start⟩ := searchInput_found (i := i) ho
    have light : e.weight ≤ invalidEdgeWeight := by
      rcases (Starts.foldl _).bounded (find?_mem start).1 with h | ⟨h, -⟩
      · exact h.le
      · rw [h]; decide
    simp only [searchWitness, search]
    generalize searchInput (outEdges g node) i = input at start ⊢
    obtain ⟨e', last, le⟩ := searchLoop_lowers g input.numberOfTargets fullSearchSpaceSize input.maxWeight node
      (fullSearchSpaceSize + 1) 0 0 _ _ e start
    simp only [last]
    exact le.trans light
  path i hi o ho light := by
    have limit : ∀ u, ∀ e ∈ g.edges u, (searchInput (outEdges g node) i).maxWeight + e.data.weight ≤ invalidEdgeWeight := by
      intro u e he
      have pair : ∀ o ∈ outEdges g node, viaWeight i o ≤ invalidEdgeWeight - e.data.weight := by
        intro o ho
        rw [sums.viaWeight_eq positive hi ho]
        have := sums i hi o ho u e he
        omega
      have nonneg : 0 ≤ invalidEdgeWeight - e.data.weight := by
        have := positive node i (mem_inEdges.1 hi).1
        have := positive node o (mem_outEdges.1 ho).1
        have := sums i hi o ho u e he
        omega
      have := searchInput_limit (outEdges g node) nonneg pair
      omega
    have start : KeysArePaths g node i.target (searchInput (outEdges g node) i).heap := by
      intro e he small
      rcases (Starts.foldl _).bounded he with h | ⟨h, same⟩
      · exact absurd small (by omega)
      · rw [h, same]
        exact .nil _
    simp only [searchWitness] at light ⊢
    generalize searchInput (outEdges g node) i = input at start light limit ⊢
    have paths := start.searchLoop positive limit input.numberOfTargets fullSearchSpaceSize (fullSearchSpaceSize + 1) 0 0
    cases last : (search g input.heap input.numberOfTargets fullSearchSpaceSize input.maxWeight node).find? o.target with
    | none =>
      simp only [last] at light
      exact absurd light (lt_irrefl _)
    | some e =>
      simp only [last] at light ⊢
      obtain ⟨mem, same⟩ := find?_mem last
      exact same ▸ paths e mem light

/-- The lighter of two edges from the same node meets keys that are no smaller. -/
theorem searchWitness_mono (positive : ∀ u, ∀ e ∈ g.edges u, 0 < e.data.weight) (sums : SumsFit g node)
    {i i' o : DynamicEdge n ContractorEdgeData} (hi : i ∈ inEdges g node) (hi' : i' ∈ inEdges g node)
    (same : i.target = i'.target) (le : i.data.weight ≤ i'.data.weight) (ho : o ∈ outEdges g node) :
    searchWitness g node i' o.target ≤ searchWitness g node i o.target := by
  obtain ⟨heap, targets, max⟩ := searchInput_mono (outEdges g node) same fun o ho => by
    rw [sums.viaWeight_eq positive hi ho, sums.viaWeight_eq positive hi' ho]
    omega
  obtain ⟨e, start⟩ := searchInput_found (i := i) ho
  simp only [searchWitness, search, ← heap, ← targets]
  generalize searchInput (outEdges g node) i = input at start max ⊢
  obtain ⟨e₁, first, -⟩ := searchLoop_lowers g input.numberOfTargets fullSearchSpaceSize input.maxWeight node
    (fullSearchSpaceSize + 1) 0 0 _ _ e start
  obtain ⟨e₂, second, le₂⟩ := searchLoop_mono g input.numberOfTargets fullSearchSpaceSize max node
    (fullSearchSpaceSize + 1) 0 0 _ _ e₁ first
  simp only [first, second]
  exact le₂

end Osrm
