import Osrm.Contractor.Distances
import Mathlib.Data.List.TakeWhile

/-!
# The input of the contractor

`toContractorGraph` lists every edge at both of its ends, sorts the entries, and replaces the
parallel entries between two nodes by one edge for each direction, or by one edge for both
where the two weigh the same. Weight, duration and distance of such an edge are the least of
its entries, each for itself; an edge with both flags takes all three from the direction that
leaves the node listing it.

`tbb::parallel_sort` may leave entries with the same ends in any order, so the sorted list is
an argument here (`SortedEntries`).
-/

namespace Osrm

open List

open Lib ContractorGraph

variable {n : ℕ}

structure EdgeBasedEdgeData where
  turnId : ℕ
  weight : ℤ
  distance : ℚ
  duration : ℤ
  forward : Bool
  backward : Bool
  deriving DecidableEq, Repr

abbrev EdgeBasedEdge (n : ℕ) := InputEdge n EdgeBasedEdgeData

/-- `MAXIMAL_EDGE_DISTANCE`, the largest finite `float` -/
def maximalEdgeDistance : ℚ := (2 ^ 24 - 1) * 2 ^ 104

def entriesOf (inputEdge : EdgeBasedEdge n) : List (ContractorEdge n) :=
  if inputEdge.data.weight = invalidEdgeWeight then []
  else
    [⟨inputEdge.source, inputEdge.target, ⟨max inputEdge.data.weight 1, inputEdge.data.duration, inputEdge.data.distance,
        inputEdge.data.turnId, 1, false, inputEdge.data.forward, inputEdge.data.backward⟩⟩,
      ⟨inputEdge.target, inputEdge.source, ⟨max inputEdge.data.weight 1, inputEdge.data.duration, inputEdge.data.distance,
        inputEdge.data.turnId, 1, false, inputEdge.data.backward, inputEdge.data.forward⟩⟩]

/-- `forward_edge` (for `true`) and `reverse_edge` before the loop over the parallel entries. -/
def parallelStart (id : ℕ) (dir : Bool) : ContractorEdgeData :=
  ⟨invalidEdgeWeight, maximalEdgeDuration, maximalEdgeDistance, id, 1, false, dir, !dir⟩

def takeLeast (dir : Bool) (best : ContractorEdgeData) (edge : ContractorEdge n) : ContractorEdgeData :=
  if edge.data.flag dir then
    { best with
      weight := min edge.data.weight best.weight
      duration := min edge.data.duration best.duration
      distance := min edge.data.distance best.distance }
  else best

def parallelEdge (id : ℕ) (dir : Bool) (group : List (ContractorEdge n)) : ContractorEdgeData :=
  group.foldl (takeLeast dir) (parallelStart id dir)

/-- What replaces the parallel entries between two nodes. -/
def mergeParallel (source target : Fin n) (id : ℕ) (group : List (ContractorEdge n)) : List (ContractorEdge n) :=
  let forward := parallelEdge id true group
  let reverse := parallelEdge id false group
  if forward.weight = reverse.weight then
    if forward.weight ≠ invalidEdgeWeight then [⟨source, target, { forward with backward := true }⟩] else []
  else
    (if forward.weight ≠ invalidEdgeWeight then [⟨source, target, forward⟩] else []) ++
      (if reverse.weight ≠ invalidEdgeWeight then [⟨source, target, reverse⟩] else [])

def runs (u w : Fin n) (edge : ContractorEdge n) : Bool := edge.source = u && edge.target = w

/-- The loop over the sorted entries. Its first argument is their number. -/
def removeParallel : ℕ → List (ContractorEdge n) → List (ContractorEdge n)
  | 0, _ => []
  | _ + 1, [] => []
  | k + 1, edge :: edges =>
    if edge.source = edge.target then removeParallel k edges
    else
      mergeParallel edge.source edge.target edge.data.id ((edge :: edges).takeWhile (runs edge.source edge.target)) ++
        removeParallel k ((edge :: edges).dropWhile (runs edge.source edge.target))

/-- `toContractorGraph` on the sorted entries. -/
def toContractorGraph (edges : List (ContractorEdge n)) : ContractorGraph n :=
  .ofEdges (removeParallel edges.length edges)

/-- `InputEdge::operator<`, or equal ends. -/
def NotAfter (a b : ContractorEdge n) : Prop := a.source < b.source ∨ a.source = b.source ∧ a.target ≤ b.target

instance (a b : ContractorEdge n) : Decidable (NotAfter a b) :=
  inferInstanceAs (Decidable (a.source < b.source ∨ a.source = b.source ∧ a.target ≤ b.target))

/-- The entries of the input edges after sorting. -/
structure SortedEntries (input : List (EdgeBasedEdge n)) (edges : List (ContractorEdge n)) : Prop where
  perm : edges.Perm (input.flatMap entriesOf)
  sorted : edges.Pairwise NotAfter

/-! ### The edges between two nodes -/

section Groups

variable {u w : Fin n} {edges : List (ContractorEdge n)} {edge e : ContractorEdge n}
  {group : List (ContractorEdge n)} {id : ℕ}

theorem runs_iff : runs u w edge = true ↔ edge.source = u ∧ edge.target = w := by
  simp [runs]

/-- The entries become one edge for both directions, or one for each. -/
theorem mem_mergeParallel : e ∈ mergeParallel u w id group ↔
    ((parallelEdge id true group).weight = (parallelEdge id false group).weight ∧
      (parallelEdge id true group).weight ≠ invalidEdgeWeight ∧ e = ⟨u, w, { parallelEdge id true group with backward := true }⟩) ∨
    ((parallelEdge id true group).weight ≠ (parallelEdge id false group).weight ∧
      ∃ dir, (parallelEdge id dir group).weight ≠ invalidEdgeWeight ∧ e = ⟨u, w, parallelEdge id dir group⟩) := by
  unfold mergeParallel
  simp only [Bool.exists_bool]
  generalize parallelEdge id true group = forward
  generalize parallelEdge id false group = reverse
  split_ifs <;> grind

theorem mergeParallel_ends (mem : e ∈ mergeParallel u w id group) :
    e.source = u ∧ e.target = w := by
  rcases mem_mergeParallel.1 mem with ⟨-, -, rfl⟩ | ⟨-, dir, -, rfl⟩
  · exact ⟨rfl, rfl⟩
  · exact ⟨rfl, rfl⟩

section

variable (sorted : (edge :: edges).Pairwise NotAfter)

include sorted

/-- The entries with the ends of the first one stand in front. -/
theorem dropWhile_runs :
    ∀ e ∈ (edge :: edges).dropWhile (runs edge.source edge.target), runs edge.source edge.target e = false := by
  have later : ∀ l : List (ContractorEdge n), l.Pairwise NotAfter → (∀ e ∈ l, NotAfter edge e) →
      ∀ e ∈ l.dropWhile (runs edge.source edge.target), runs edge.source edge.target e = false := by
    intro l
    induction l with
    | nil => exact fun _ _ e mem => by cases mem
    | cons x l ih =>
      intro sorted after e mem
      rw [pairwise_cons] at sorted
      rw [dropWhile_cons] at mem
      split_ifs at mem with here
      · exact ih sorted.2 (fun y hy => after y (mem_cons_of_mem _ hy)) e mem
      · -- what is behind an entry with other ends cannot have the first ends again
        rw [Bool.eq_false_iff, Ne, runs_iff]
        rintro ⟨source, target⟩
        have behind : NotAfter x e := by
          rcases mem_cons.1 mem with rfl | mem
          · exact .inr ⟨rfl, le_rfl⟩
          · exact sorted.1 e mem
        have front := after x mem_cons_self
        rw [runs_iff] at here
        unfold NotAfter at behind front
        omega
  apply later _ sorted
  intro e mem
  rcases mem_cons.1 mem with rfl | mem
  · exact .inr ⟨rfl, le_rfl⟩
  · exact (pairwise_cons.1 sorted).1 e mem

theorem filter_dropWhile_front :
    ((edge :: edges).dropWhile (runs edge.source edge.target)).filter (runs edge.source edge.target) = [] := by
  rw [filter_eq_nil_iff]
  intro e mem
  rw [dropWhile_runs sorted e mem]
  exact Bool.false_ne_true

theorem takeWhile_runs :
    (edge :: edges).takeWhile (runs edge.source edge.target) = (edge :: edges).filter (runs edge.source edge.target) := by
  have parts := congrArg (filter (runs edge.source edge.target))
    (takeWhile_append_dropWhile (p := runs edge.source edge.target) (l := edge :: edges))
  rw [filter_append, filter_dropWhile_front sorted, append_nil, filter_eq_self.2 fun e mem => mem_takeWhile_imp mem] at parts
  exact parts

end

/-- The entries with other ends are left for later. -/
theorem filter_dropWhile_runs (other : ¬ (u = edge.source ∧ w = edge.target)) (l : List (ContractorEdge n)) :
    (l.dropWhile (runs edge.source edge.target)).filter (runs u w) = l.filter (runs u w) := by
  induction l with
  | nil => rfl
  | cons x l ih =>
    rw [dropWhile_cons]
    split_ifs with here
    · rw [runs_iff] at here
      rw [ih, filter_cons_of_neg]
      rw [runs_iff]
      rintro ⟨rfl, rfl⟩
      exact other here
    · rfl

/-- **The edges between two nodes** are what their entries are merged to. -/
theorem mem_removeParallel (k : ℕ) : ∀ edges : List (ContractorEdge n), edges.length ≤ k → edges.Pairwise NotAfter → ∀ e,
    e ∈ removeParallel k edges ↔ e.source ≠ e.target ∧ ∃ first, (edges.filter (runs e.source e.target)).head? = some first ∧
      e ∈ mergeParallel e.source e.target first.data.id (edges.filter (runs e.source e.target)) := by
  induction k with
  | zero =>
    intro edges short _ e
    rw [length_eq_zero_iff.1 (Nat.le_zero.1 short)]
    simp [removeParallel]
  | succ k ih =>
    intro edges short sorted e
    cases edges with
    | nil => simp [removeParallel]
    | cons edge edges =>
      have short' : edges.length ≤ k := by simpa using short
      unfold removeParallel
      split
      · -- an entry from a node to itself is skipped
        rename_i loop
        rw [ih edges short' (pairwise_cons.1 sorted).2]
        refine and_congr_right fun other => ?_
        rw [filter_cons_of_neg]
        rw [runs_iff, ← loop]
        rintro ⟨source, target⟩
        exact other (source.symm.trans target)
      · rename_i apart
        have rest := dropWhile_sublist (runs edge.source edge.target) (l := edge :: edges)
        have first : runs edge.source edge.target edge = true := runs_iff.2 ⟨rfl, rfl⟩
        have shorter : ((edge :: edges).dropWhile (runs edge.source edge.target)).length ≤ k := by
          rw [dropWhile_cons_of_pos first]
          exact (dropWhile_sublist _).length_le.trans short'
        rw [mem_append, ih _ shorter (sorted.sublist rest), takeWhile_runs sorted]
        by_cases here : e.source = edge.source ∧ e.target = edge.target
        · obtain ⟨source, target⟩ := here
          rw [source, target, filter_dropWhile_front sorted, filter_cons_of_pos first]
          simp [apart]
        · rw [filter_dropWhile_runs here]
          constructor
          · rintro (mem | later)
            · exact absurd (mergeParallel_ends mem) here
            · exact later
          · exact .inr

end Groups

/-! ### What the entries are merged to -/

section Merge

variable {u w : Fin n} {dir : Bool} {id : ℕ} {group : List (ContractorEdge n)} {e e' : ContractorEdge n}

/-- The least of the entries of one direction, each value for itself. -/
structure Least (dir : Bool) (group : List (ContractorEdge n)) (d : ContractorEdgeData) : Prop where
  low : ∀ e ∈ group, e.data.flag dir = true →
    d.weight ≤ e.data.weight ∧ d.duration ≤ e.data.duration ∧ d.distance ≤ e.data.distance
  weight : d.weight = invalidEdgeWeight ∨ ∃ e ∈ group, e.data.flag dir = true ∧ e.data.weight = d.weight
  duration : d.duration = maximalEdgeDuration ∨ ∃ e ∈ group, e.data.flag dir = true ∧ e.data.duration = d.duration
  distance : d.distance = maximalEdgeDistance ∨ ∃ e ∈ group, e.data.flag dir = true ∧ e.data.distance = d.distance

theorem min_or {α : Type*} [LinearOrder α] {P : α → Prop} {a b c : α} (left : P a) (right : b = c ∨ P b) : min a b = c ∨ P (min a b) := by
  rcases min_choice a b with h | h
  · rw [h]
    exact .inr left
  · rw [h]
    exact right

theorem parallelEdge_spec (id : ℕ) (dir : Bool) (group : List (ContractorEdge n)) : Least dir group (parallelEdge id dir group) ∧
    (parallelEdge id dir group).forward = dir ∧ (parallelEdge id dir group).backward = !dir ∧
      (parallelEdge id dir group).shortcut = false := by
  induction group using reverseRecOn with
  | nil => exact ⟨⟨by simp, .inl rfl, .inl rfl, .inl rfl⟩, rfl, rfl, rfl⟩
  | append_singleton group x ih =>
    obtain ⟨least, flags⟩ := ih
    have next : parallelEdge id dir (group ++ [x]) = takeLeast dir (parallelEdge id dir group) x := by
      rw [parallelEdge, foldl_append]
      rfl
    have old : ∀ {P : ContractorEdge n → Prop}, (∃ e ∈ group, e.data.flag dir = true ∧ P e) →
        ∃ e ∈ group ++ [x], e.data.flag dir = true ∧ P e := by
      rintro P ⟨e, mem, h⟩
      exact ⟨e, mem_append_left _ mem, h⟩
    rw [next, takeLeast]
    split
    · rename_i flag
      have new : x ∈ group ++ [x] := mem_append_right _ mem_cons_self
      refine ⟨⟨?_, ?_, ?_, ?_⟩, flags⟩
      · intro e mem flag'
        rcases mem_append.1 mem with mem | mem
        · obtain ⟨weight, duration, distance⟩ := least.low e mem flag'
          exact ⟨min_le_of_right_le weight, min_le_of_right_le duration, min_le_of_right_le distance⟩
        · obtain rfl := mem_singleton.1 mem
          exact ⟨min_le_left _ _, min_le_left _ _, min_le_left _ _⟩
      · exact min_or (P := fun c => ∃ e ∈ group ++ [x], e.data.flag dir = true ∧ e.data.weight = c) ⟨x, new, flag, rfl⟩ (least.weight.imp_right old)
      · exact min_or (P := fun c => ∃ e ∈ group ++ [x], e.data.flag dir = true ∧ e.data.duration = c) ⟨x, new, flag, rfl⟩ (least.duration.imp_right old)
      · exact min_or (P := fun c => ∃ e ∈ group ++ [x], e.data.flag dir = true ∧ e.data.distance = c) ⟨x, new, flag, rfl⟩ (least.distance.imp_right old)
    · rename_i away
      refine ⟨⟨?_, least.weight.imp_right old, least.duration.imp_right old, least.distance.imp_right old⟩, flags⟩
      intro e mem flag'
      rcases mem_append.1 mem with mem | mem
      · exact least.low e mem flag'
      · rw [mem_singleton.1 mem] at flag'
        exact absurd flag' away

theorem flag_parallelEdge {dir' : Bool} : (parallelEdge id dir' group).flag dir = true ↔ dir' = dir := by
  obtain ⟨-, forward, backward, -⟩ := parallelEdge_spec id dir' group
  cases dir with
  | true => exact Eq.congr_left forward
  | false => exact (Eq.congr_left backward).trans (by simp)

variable (mem : e ∈ mergeParallel u w id group)

include mem

/-- A merged edge weighs in each of its directions what the lightest entry weighs. -/
theorem mergeParallel_weight (flag : e.data.flag dir = true) :
    e.data.weight = (parallelEdge id dir group).weight ∧ e.data.weight ≠ invalidEdgeWeight := by
  rcases mem_mergeParallel.1 mem with ⟨same, valid, rfl⟩ | ⟨-, dir', valid, rfl⟩
  · cases dir with
    | true => exact ⟨rfl, valid⟩
    | false => exact ⟨same, valid⟩
  · obtain rfl := flag_parallelEdge.1 flag
    exact ⟨rfl, valid⟩

theorem mergeParallel_plain :
    e.data.shortcut = false ∧ (e.data.forward = true ∨ e.data.backward = true) := by
  rcases mem_mergeParallel.1 mem with ⟨-, -, rfl⟩ | ⟨-, dir, -, rfl⟩
  · exact ⟨(parallelEdge_spec id true group).2.2.2, .inr rfl⟩
  · obtain ⟨-, forward, backward, plain⟩ := parallelEdge_spec id dir group
    refine ⟨plain, ?_⟩
    cases dir with
    | true => exact .inl forward
    | false => exact .inr backward

omit mem in
/-- There is an edge for each direction that has entries. -/
theorem exists_mergeParallel (u w : Fin n) (valid : (parallelEdge id dir group).weight ≠ invalidEdgeWeight) :
    ∃ e ∈ mergeParallel u w id group, e.data.flag dir = true := by
  by_cases same : (parallelEdge id true group).weight = (parallelEdge id false group).weight
  · have valid' : (parallelEdge id true group).weight ≠ invalidEdgeWeight := by
      cases dir with
      | true => exact valid
      | false => rwa [same]
    refine ⟨_, mem_mergeParallel.2 (.inl ⟨same, valid', rfl⟩), ?_⟩
    cases dir with
    | true => exact (parallelEdge_spec id true group).2.1
    | false => rfl
  · exact ⟨_, mem_mergeParallel.2 (.inr ⟨same, dir, valid, rfl⟩), flag_parallelEdge.2 rfl⟩

/-- Each direction has one edge. -/
theorem mergeParallel_single (mem' : e' ∈ mergeParallel u w id group)
    (flag : e.data.flag dir = true) (flag' : e'.data.flag dir = true) : e' = e := by
  rcases mem_mergeParallel.1 mem with ⟨same, -, rfl⟩ | ⟨other, dir₁, -, rfl⟩
  · rcases mem_mergeParallel.1 mem' with ⟨-, -, rfl⟩ | ⟨other, -⟩
    · rfl
    · exact absurd same other
  · rcases mem_mergeParallel.1 mem' with ⟨same, -⟩ | ⟨-, dir₂, -, rfl⟩
    · exact absurd same other
    · rw [flag_parallelEdge.1 flag, flag_parallelEdge.1 flag']

end Merge

/-! ### The graph and the input edges -/

/-- The input edges of valid weight that can be travelled from `u` to `w`. -/
def inputArcs (input : List (EdgeBasedEdge n)) (u w : Fin n) : List EdgeBasedEdgeData :=
  (input.filter fun a => a.data.weight ≠ invalidEdgeWeight ∧
    (a.source = u ∧ a.target = w ∧ a.data.forward = true ∨ a.target = u ∧ a.source = w ∧ a.data.backward = true)).map (·.data)

def InRange (input : List (EdgeBasedEdge n)) : Prop :=
  ∀ a ∈ input, a.data.weight ≤ invalidEdgeWeight ∧ a.data.duration ≤ maximalEdgeDuration ∧ a.data.distance ≤ maximalEdgeDistance

instance (input : List (EdgeBasedEdge n)) : Decidable (InRange input) :=
  inferInstanceAs (Decidable (∀ a ∈ input, a.data.weight ≤ invalidEdgeWeight ∧ a.data.duration ≤ maximalEdgeDuration ∧
    a.data.distance ≤ maximalEdgeDistance))

section Graph

variable {input : List (EdgeBasedEdge n)} {edges : List (ContractorEdge n)} {u w : Fin n} {dir : Bool} {id : ℕ}
  {e : ContractorEdge n} {d : EdgeBasedEdgeData}

theorem mem_inputArcs : d ∈ inputArcs input u w ↔ ∃ a ∈ input, (a.data.weight ≠ invalidEdgeWeight ∧
    (a.source = u ∧ a.target = w ∧ a.data.forward = true ∨ a.target = u ∧ a.source = w ∧ a.data.backward = true)) ∧ a.data = d := by
  simp only [inputArcs, mem_map, mem_filter, decide_eq_true_eq, and_assoc]

theorem mem_entriesOf {a : EdgeBasedEdge n} : e ∈ entriesOf a ↔ a.data.weight ≠ invalidEdgeWeight ∧
    (e = ⟨a.source, a.target, ⟨max a.data.weight 1, a.data.duration, a.data.distance, a.data.turnId, 1, false, a.data.forward,
        a.data.backward⟩⟩ ∨
      e = ⟨a.target, a.source, ⟨max a.data.weight 1, a.data.duration, a.data.distance, a.data.turnId, 1, false, a.data.backward,
        a.data.forward⟩⟩) := by
  unfold entriesOf
  split <;> simp_all

theorem entries_range (range : InRange input) (mem : e ∈ input.flatMap entriesOf) :
    0 < e.data.weight ∧ e.data.weight < invalidEdgeWeight ∧ e.data.duration ≤ maximalEdgeDuration ∧
      e.data.distance ≤ maximalEdgeDistance := by
  obtain ⟨a, ha, mem⟩ := mem_flatMap.1 mem
  obtain ⟨weight, duration, distance⟩ := range a ha
  obtain ⟨valid, entry⟩ := mem_entriesOf.1 mem
  have bounds : 0 < max a.data.weight 1 ∧ max a.data.weight 1 < invalidEdgeWeight :=
    ⟨lt_max_of_lt_right Int.one_pos, max_lt (lt_of_le_of_ne weight valid) (by decide)⟩
  obtain rfl | rfl := entry
  · exact ⟨bounds.1, bounds.2, duration, distance⟩
  · exact ⟨bounds.1, bounds.2, duration, distance⟩

/-- The entries at `u` flagged in a direction are the input arcs of that direction, with weights of at least `1`. -/
theorem entry_arc (sorted : SortedEntries input edges) (mem : e ∈ edges.filter (runs u w))
    (flag : e.data.flag dir = true) : ∃ d ∈ inputArcs input (orient dir u w).1 (orient dir u w).2, max d.weight 1 = e.data.weight := by
  obtain ⟨inside, ends⟩ := mem_filter.1 mem
  obtain ⟨rfl, rfl⟩ := runs_iff.1 ends
  obtain ⟨a, ha, entry⟩ := mem_flatMap.1 (sorted.perm.mem_iff.1 inside)
  obtain ⟨valid, rfl | rfl⟩ := mem_entriesOf.1 entry
  · refine ⟨a.data, mem_inputArcs.2 ⟨a, ha, ⟨valid, ?_⟩, rfl⟩, rfl⟩
    cases dir with
    | true => exact .inl ⟨rfl, rfl, flag⟩
    | false => exact .inr ⟨rfl, rfl, flag⟩
  · refine ⟨a.data, mem_inputArcs.2 ⟨a, ha, ⟨valid, ?_⟩, rfl⟩, rfl⟩
    cases dir with
    | true => exact .inr ⟨rfl, rfl, flag⟩
    | false => exact .inl ⟨rfl, rfl, flag⟩

theorem arc_entry (sorted : SortedEntries input edges)
    (mem : d ∈ inputArcs input (orient dir u w).1 (orient dir u w).2) :
    ∃ e ∈ edges.filter (runs u w), e.data.flag dir = true ∧ e.data.weight = max d.weight 1 := by
  obtain ⟨a, ha, ⟨valid, ends⟩, rfl⟩ := mem_inputArcs.1 mem
  have listed {e : ContractorEdge n} (entry : e ∈ entriesOf a) (source : e.source = u) (target : e.target = w) :
      e ∈ edges.filter (runs u w) :=
    mem_filter.2 ⟨sorted.perm.mem_iff.2 (mem_flatMap.2 ⟨a, ha, entry⟩), runs_iff.2 ⟨source, target⟩⟩
  rcases ends with ⟨source, target, flag⟩ | ⟨target, source, flag⟩
  · cases dir with
    | true => exact ⟨_, listed (mem_entriesOf.2 ⟨valid, .inl rfl⟩) source target, flag, rfl⟩
    | false => exact ⟨_, listed (mem_entriesOf.2 ⟨valid, .inr rfl⟩) target source, flag, rfl⟩
  · cases dir with
    | true => exact ⟨_, listed (mem_entriesOf.2 ⟨valid, .inr rfl⟩) target source, flag, rfl⟩
    | false => exact ⟨_, listed (mem_entriesOf.2 ⟨valid, .inl rfl⟩) source target, flag, rfl⟩

theorem mem_toContractorGraph (sorted : SortedEntries input edges) {e : DynamicEdge n ContractorEdgeData} :
    e ∈ (toContractorGraph edges).edges u ↔ u ≠ e.target ∧ ∃ first, (edges.filter (runs u e.target)).head? = some first ∧
      ⟨u, e.target, e.data⟩ ∈ mergeParallel u e.target first.data.id (edges.filter (runs u e.target)) := by
  have mem := mem_removeParallel edges.length edges le_rfl sorted.sorted
  constructor
  · intro he
    obtain ⟨x, hx, rfl⟩ := mem_map.1 he
    obtain ⟨inside, source⟩ := mem_filter.1 hx
    obtain rfl : x.source = u := of_decide_eq_true source
    exact (mem x).1 inside
  · intro h
    exact mem_map.2 ⟨⟨u, e.target, e.data⟩, mem_filter.2 ⟨(mem _).2 h, by simp⟩, rfl⟩

section Range

variable (range : InRange input) (sorted : SortedEntries input edges) (id id' : ℕ)

include range sorted

/-- Both ends see the same least weight. -/
theorem parallelEdge_le_mirrored (dir : Bool) (u w : Fin n) :
    (parallelEdge id' (!dir) (edges.filter (runs w u))).weight ≤ (parallelEdge id dir (edges.filter (runs u w))).weight := by
  obtain ⟨least, -⟩ := parallelEdge_spec id dir (edges.filter (runs u w))
  obtain ⟨least', -⟩ := parallelEdge_spec id' (!dir) (edges.filter (runs w u))
  rcases least.weight with invalid | ⟨e, he, flag, weight⟩
  · rw [invalid]
    rcases least'.weight with invalid' | ⟨e', he', -, weight'⟩
    · exact invalid'.le
    · rw [← weight']
      exact (entries_range range (sorted.perm.mem_iff.1 (mem_filter.1 he').1)).2.1.le
  · obtain ⟨d, hd, weight'⟩ := entry_arc sorted he flag
    have back : d ∈ inputArcs input (orient (!dir) w u).1 (orient (!dir) w u).2 := by rwa [orient_not]
    obtain ⟨e', he', flag', weight''⟩ := arc_entry sorted back
    have := (least'.low e' he' flag').1
    omega

theorem parallelEdge_mirrored (dir : Bool) (u w : Fin n) :
    (parallelEdge id' (!dir) (edges.filter (runs w u))).weight = (parallelEdge id dir (edges.filter (runs u w))).weight := by
  apply le_antisymm (parallelEdge_le_mirrored range sorted id id' dir u w)
  have le := parallelEdge_le_mirrored range sorted id' id (!dir) w u
  rwa [Bool.not_not] at le

/-- An edge of the graph weighs what some entry weighs. -/
theorem toContractorGraph_entry {e : DynamicEdge n ContractorEdgeData} (he : e ∈ (toContractorGraph edges).edges u) :
    e.data.shortcut = false ∧ (e.data.forward = true ∨ e.data.backward = true) ∧ 0 < e.data.weight ∧
      e.data.weight < invalidEdgeWeight := by
  obtain ⟨-, first, -, mem⟩ := (mem_toContractorGraph sorted).1 he
  obtain ⟨plain, directed⟩ := mergeParallel_plain mem
  obtain ⟨dir, flag⟩ := ContractorEdgeData.exists_flag directed
  obtain ⟨weight, valid⟩ := mergeParallel_weight mem flag
  obtain ⟨x, hx, -, weight'⟩ := (parallelEdge_spec first.data.id dir (edges.filter (runs u e.target))).1.weight.resolve_left
    (weight ▸ valid)
  obtain ⟨positive, fits, -⟩ := entries_range range (sorted.perm.mem_iff.1 (mem_filter.1 hx).1)
  have same : e.data.weight = x.data.weight := weight.trans weight'.symm
  exact ⟨plain, directed, same ▸ positive, same ▸ fits⟩

/-- The graph of a sorted input is one that the contractor takes. -/
theorem toContractorGraph_mirrored : Mirrored (toContractorGraph edges) where
  directed u e he := (toContractorGraph_entry range sorted he).2.1
  positive u e he := (toContractorGraph_entry range sorted he).2.2.1
  mirrored dir u e he flag := by
    obtain ⟨other, first, -, mem⟩ := (mem_toContractorGraph sorted).1 he
    obtain ⟨weight, valid⟩ := mergeParallel_weight mem flag
    have same := fun id' => parallelEdge_mirrored range sorted first.data.id id' dir u e.target
    -- the entries at the other end
    obtain ⟨x, hx, flag', -⟩ := (parallelEdge_spec 0 (!dir) (edges.filter (runs e.target u))).1.weight.resolve_left
      (by rw [same, ← weight]; exact valid)
    obtain ⟨first', head⟩ := Option.isSome_iff_exists.1 (isSome_head?.2 (ne_nil_of_mem hx))
    obtain ⟨y, hy, flagY⟩ := exists_mergeParallel e.target u
      (show (parallelEdge first'.data.id (!dir) (edges.filter (runs e.target u))).weight ≠ invalidEdgeWeight by
        rw [same, ← weight]; exact valid)
    obtain ⟨source, target⟩ := mergeParallel_ends hy
    have weightY := (mergeParallel_weight hy flagY).1
    refine ⟨⟨u, y.data⟩, (mem_toContractorGraph sorted).2 ⟨other.symm, first', head, ?_⟩, rfl, ?_, flagY⟩
    · rw [← source, ← target] at hy ⊢
      exact hy
    · show y.data.weight = e.data.weight
      rw [weightY, same, ← weight]

end Range

/-- Each direction between two nodes has one edge. -/
theorem toContractorGraph_single (sorted : SortedEntries input edges) : ∀ dir u, ∀ e ∈ (toContractorGraph edges).edges u,
    ∀ e' ∈ (toContractorGraph edges).edges u, e'.target = e.target → e.data.flag dir = true → e'.data.flag dir = true → e' = e := by
  intro dir u e he e' he' target flag flag'
  obtain ⟨target₀, data⟩ := e
  obtain ⟨target', data'⟩ := e'
  obtain rfl : target' = target₀ := target
  obtain ⟨-, first, head, mem⟩ := (mem_toContractorGraph sorted).1 he
  obtain ⟨-, first', head', mem'⟩ := (mem_toContractorGraph sorted).1 he'
  cases head.symm.trans head'
  have same : data' = data := congrArg InputEdge.data (mergeParallel_single mem mem' flag flag')
  rw [same]

/-! ### The ids of the edges -/

/-- An input edge is one of the lightest of a list, by the weights of the input. -/
def Lightest (arcs : List EdgeBasedEdgeData) (d : EdgeBasedEdgeData) : Prop :=
  d ∈ arcs ∧ ∀ d' ∈ arcs, d.weight ≤ d'.weight

/-- Between two nodes the graph has an edge forward exactly if there is something to travel on. It weighs what a lightest
input edge weighs, or `1` if that is less, and has its id, and the other end lists it backward. -/
structure KeepsCheapest (input : List (EdgeBasedEdge n)) (g : ContractorGraph n) : Prop where
  exists_edge : ∀ u w, u ≠ w → inputArcs input u w ≠ [] → ∃ e ∈ g.edges u, e.target = w ∧ e.data.forward = true
  single : ∀ u, ∀ e ∈ g.edges u, ∀ e' ∈ g.edges u, e'.target = e.target → e.data.forward = true → e'.data.forward = true → e' = e
  lightest : ∀ u, ∀ e ∈ g.edges u, e.data.forward = true →
    ∃ d, Lightest (inputArcs input u e.target) d ∧ e.data.weight = max d.weight 1 ∧ d.turnId = e.data.id
  mirrored : ∀ u, ∀ e ∈ g.edges u, e.data.forward = true → g.Listed false e.target u e.data.weight

theorem mergeParallel_id {group : List (ContractorEdge n)} (mem : e ∈ mergeParallel u w id group) : e.data.id = id := by
  have kept (dir : Bool) : (parallelEdge id dir group).id = id := by
    refine foldlRecOn (motive := fun best : ContractorEdgeData => best.id = id) group (takeLeast dir) rfl fun best same edge _ => ?_
    rw [takeLeast]
    split
    · exact same
    · exact same
  rcases mem_mergeParallel.1 mem with ⟨-, -, rfl⟩ | ⟨-, dir, -, rfl⟩
  · exact kept true
  · exact kept dir

/-- The sort may put any entry in front of those with the same ends. -/
theorem exists_sortedEntries (mem : e ∈ input.flatMap entriesOf) :
    ∃ edges, SortedEntries input edges ∧ (edges.filter (runs e.source e.target)).head? = some e := by
  obtain ⟨front, back, split⟩ := append_of_mem mem
  have total : Std.Total (@NotAfter n) := ⟨fun a b => by unfold NotAfter; omega⟩
  have trans : IsTrans _ (@NotAfter n) := ⟨fun a b c => by unfold NotAfter; omega⟩
  refine ⟨(e :: (front ++ back)).insertionSort NotAfter, ⟨?_, pairwise_insertionSort _ _⟩, ?_⟩
  · rw [split]
    exact (perm_insertionSort _ _).trans perm_middle.symm
  · rw [insertionSort_cons, orderedInsert_eq_take_drop, filter_append, filter_eq_nil_iff.2, nil_append,
      filter_cons_of_pos (runs_iff.2 ⟨rfl, rfl⟩), head?_cons]
    intro x before same
    obtain ⟨source, target⟩ := runs_iff.1 same
    have after := mem_takeWhile_imp before
    simp [NotAfter, source, target] at after

/-- **The cheapest traversals** are kept with their ids, however the sort arranges the entries, exactly if every input edge
between two nodes has the id of a lightest one in the direction that can be travelled. -/
theorem toContractorGraph_keepsCheapest_iff (range : InRange input) :
    (∀ edges, SortedEntries input edges → KeepsCheapest input (toContractorGraph edges)) ↔
      ∀ e ∈ input.flatMap entriesOf, e.source ≠ e.target → inputArcs input e.source e.target ≠ [] →
        ∃ d, Lightest (inputArcs input e.source e.target) d ∧ d.turnId = e.data.id := by
  constructor
  · intro keeps e mem other arcs
    obtain ⟨edges, sorted, head⟩ := exists_sortedEntries mem
    obtain ⟨x, hx, target, forward⟩ := (keeps edges sorted).exists_edge _ _ other arcs
    obtain ⟨d, light, -, id⟩ := (keeps edges sorted).lightest _ x hx forward
    obtain ⟨-, first, head', merged⟩ := (mem_toContractorGraph sorted).1 hx
    rw [target] at light head' merged
    cases head.symm.trans head'
    exact ⟨d, light, id.trans (mergeParallel_id merged)⟩
  · intro ids edges sorted
    refine ⟨?_, toContractorGraph_single sorted true, ?_, (toContractorGraph_mirrored range sorted).mirrored true⟩
    · intro u w other arcs
      obtain ⟨d, hd⟩ := exists_mem_of_ne_nil _ arcs
      obtain ⟨x, hx, flag, -⟩ := arc_entry sorted (show d ∈ inputArcs input (orient true u w).1 (orient true u w).2 from hd)
      obtain ⟨first, head⟩ := Option.isSome_iff_exists.1 (isSome_head?.2 (ne_nil_of_mem hx))
      have low := ((parallelEdge_spec first.data.id true (edges.filter (runs u w))).1.low x hx flag).1
      have fits := (entries_range range (sorted.perm.mem_iff.1 (mem_filter.1 hx).1)).2.1
      obtain ⟨y, hy, flagY⟩ := exists_mergeParallel u w (low.trans_lt fits).ne
      refine ⟨⟨w, y.data⟩, (mem_toContractorGraph sorted).2 ⟨other, first, head, ?_⟩, rfl, flagY⟩
      obtain ⟨rfl, rfl⟩ := mergeParallel_ends hy
      exact hy
    · intro u e he forward
      obtain ⟨other, first, head, merged⟩ := (mem_toContractorGraph sorted).1 he
      have flag : e.data.flag true = true := forward
      obtain ⟨weight, valid⟩ : e.data.weight = _ ∧ e.data.weight ≠ _ := mergeParallel_weight merged flag
      have least := (parallelEdge_spec first.data.id true (edges.filter (runs u e.target))).1
      obtain ⟨x, hx, flagX, weightX⟩ := least.weight.resolve_left (weight ▸ valid)
      obtain ⟨d₀, hd₀, weight₀⟩ := entry_arc sorted hx flagX
      obtain ⟨inside, ends⟩ := mem_filter.1 (mem_of_mem_head? head)
      obtain ⟨source, target⟩ := runs_iff.1 ends
      obtain ⟨d, ⟨mem, light⟩, id⟩ := ids first (sorted.perm.mem_iff.1 inside) (source ▸ target ▸ other)
        (source ▸ target ▸ ne_nil_of_mem hd₀)
      rw [source, target] at mem light
      obtain ⟨y, hy, flagY, weightY⟩ :=
        arc_entry sorted (show d ∈ inputArcs input (orient true u e.target).1 (orient true u e.target).2 from mem)
      have low := (least.low y hy flagY).1
      have high := light d₀ hd₀
      exact ⟨d, ⟨mem, light⟩, by omega, id.trans (mergeParallel_id merged).symm⟩

/-- Parallel turns of the same weight, and an edge for both directions that weighs nothing. -/
theorem toContractorGraph_keepsCheapest_parallel :
    let input : List (EdgeBasedEdge 3) := [⟨0, 1, ⟨10, 5, 0, 0, true, false⟩⟩, ⟨0, 1, ⟨11, 5, 0, 0, true, false⟩⟩,
      ⟨1, 2, ⟨12, 0, 0, 0, true, true⟩⟩]
    ∀ edges, SortedEntries input edges → KeepsCheapest input (toContractorGraph edges) := by
  intro input
  have ids : ∀ e ∈ input.flatMap entriesOf, inputArcs input e.source e.target ≠ [] → ∃ d ∈ inputArcs input e.source e.target,
      (∀ d' ∈ inputArcs input e.source e.target, d.weight ≤ d'.weight) ∧ d.turnId = e.data.id := by decide
  refine (toContractorGraph_keepsCheapest_iff (by decide +kernel)).2 fun e mem _ arcs => ?_
  obtain ⟨d, hd, light, id⟩ := ids e mem arcs
  exact ⟨d, ⟨hd, light⟩, id⟩

/-- Of two parallel roads the lighter one gives the weight and the other one the id. -/
theorem toContractorGraph_other_id :
    let input : List (EdgeBasedEdge 2) := [⟨0, 1, ⟨10, 5, 0, 0, true, false⟩⟩, ⟨0, 1, ⟨11, 3, 0, 0, true, false⟩⟩]
    let edges := (input.flatMap entriesOf).insertionSort NotAfter
    SortedEntries input edges ∧ ((toContractorGraph edges).edges 0).map (fun e => (e.target, e.data.weight, e.data.id)) = [(1, 3, 10)] := by
  exact ⟨⟨perm_insertionSort _ _, by decide⟩, by decide⟩

end Graph

end Osrm
