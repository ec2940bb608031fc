import Osrm.Contractor.ContractorGraph

/-!
# Contracting one node

`ContractNode` looks at every pair of an edge into the node and an edge out of it. A
pair that leads back to where it came from becomes a loop when it is lighter than the
node's own weight. Any other pair becomes a shortcut when it is lighter than the key
the local search left at the pair's end. The keys are an argument here (`witness`, one
family of keys for each edge into the node); `Contractor.Search` supplies them.

The shortcuts come in mirrored pairs, and equal ones are merged by joining their
directions. `contractNode_offers` says which shortcuts come out.
-/

namespace Osrm

open Function List

open Lib ContractorGraph

variable {n : ℕ}

/-- `path_weight` of a pair of edges -/
def viaWeight (inEdge outEdge : DynamicEdge n ContractorEdgeData) : ℤ := add32 inEdge.data.weight outEdge.data.weight

/-- The shortcut for a pair of edges, with the directions asked for. -/
def shortcutData (node : Fin n) (inData outData : ContractorEdgeData) (forward backward : Bool) :
    ContractorEdgeData where
  weight := add32 inData.weight outData.weight
  duration := add32 inData.duration outData.duration
  distance := addFloat inData.distance outData.distance
  id := node
  originalEdges := min (2 ^ 29 - 1) (outData.originalEdges + inData.originalEdges)
  shortcut := true
  forward := forward
  backward := backward

/-- A shortcut as its start lists it and as its end lists it. -/
def shortcutPair (node : Fin n) (inEdge outEdge : DynamicEdge n ContractorEdgeData) : List (ContractorEdge n) :=
  [⟨inEdge.target, outEdge.target, shortcutData node inEdge.data outEdge.data true false⟩,
   ⟨outEdge.target, inEdge.target, shortcutData node inEdge.data outEdge.data false true⟩]

/-- What `ContractNode` writes: the node weights and the thread's `inserted_edges`. -/
structure Contraction (n : ℕ) where
  nodeWeights : Fin n → ℤ
  insertedEdges : List (ContractorEdge n)

/-- The edges into `node` from other nodes. -/
def inEdges (g : ContractorGraph n) (node : Fin n) : List (DynamicEdge n ContractorEdgeData) :=
  (g.edges node).filter fun e => e.target ≠ node && e.data.backward

/-- The edges out of `node` to other nodes. -/
def outEdges (g : ContractorGraph n) (node : Fin n) : List (DynamicEdge n ContractorEdgeData) :=
  (g.edges node).filter fun e => e.target ≠ node && e.data.forward

/-- The loop over the out-edges before the search, where it leads back to the source. -/
def insertLoop (node : Fin n) (inEdge : DynamicEdge n ContractorEdgeData) (st : Contraction n)
    (outEdge : DynamicEdge n ContractorEdgeData) : Contraction n :=
  if outEdge.target = inEdge.target ∧ viaWeight inEdge outEdge < st.nodeWeights node then
    ⟨update st.nodeWeights inEdge.target (viaWeight inEdge outEdge),
      st.insertedEdges ++ shortcutPair node inEdge outEdge⟩
  else st

/-- The loop over the out-edges after the search. -/
def insertBridge (node : Fin n) (inEdge : DynamicEdge n ContractorEdgeData) (key : Fin n → ℤ)
    (st : Contraction n) (outEdge : DynamicEdge n ContractorEdgeData) : Contraction n :=
  if viaWeight inEdge outEdge < key outEdge.target then
    { st with insertedEdges := st.insertedEdges ++ shortcutPair node inEdge outEdge }
  else st

/-- The two loops over the out-edges for one in-edge. -/
def contractInEdge (node : Fin n) (outs : List (DynamicEdge n ContractorEdgeData)) (key : Fin n → ℤ)
    (st : Contraction n) (inEdge : DynamicEdge n ContractorEdgeData) : Contraction n :=
  outs.foldl (insertBridge node inEdge key) (outs.foldl (insertLoop node inEdge) st)

/-- Join the directions of `e` to the first equal edge of the list, if there is one. -/
def mergeInto (e : ContractorEdge n) : List (ContractorEdge n) → Option (List (ContractorEdge n))
  | [] => none
  | other :: rest =>
    if other.source = e.source ∧ other.target = e.target ∧ other.data.weight = e.data.weight ∧
        other.data.shortcut = e.data.shortcut then
      some ({ other with
        data.forward := other.data.forward || e.data.forward
        data.backward := other.data.backward || e.data.backward } :: rest)
    else (mergeInto e rest).map (other :: ·)

/-- The closing loop of `ContractNode`: an edge is dropped when a later one takes over its directions. The
first argument is the number of edges. -/
def mergeInserted : ℕ → List (ContractorEdge n) → List (ContractorEdge n)
  | 0, _ => []
  | _ + 1, [] => []
  | k + 1, e :: rest =>
    match mergeInto e rest with
    | some rest' => mergeInserted k rest'
    | none => e :: mergeInserted k rest

/-- `ContractNode<false>` -/
def contractNode (witness : DynamicEdge n ContractorEdgeData → Fin n → ℤ) (g : ContractorGraph n)
    (node : Fin n) (nodeWeights : Fin n → ℤ) : Contraction n :=
  let st := (inEdges g node).foldl (fun st inEdge => contractInEdge node (outEdges g node) (witness inEdge) st inEdge)
    ⟨nodeWeights, []⟩
  { st with insertedEdges := mergeInserted st.insertedEdges.length st.insertedEdges }

/-! ### Which shortcuts come out -/

/-- The list holds a shortcut over `m` at `u` towards (or, with `dir = false`, from) `w`. -/
def Offers (l : List (ContractorEdge n)) (dir : Bool) (m : ℕ) (u w : Fin n) (c : ℤ) : Prop :=
  ∃ e ∈ l, e.source = u ∧ e.target = w ∧ e.data.weight = c ∧ e.data.id = m ∧ e.data.flag dir = true

/-- The pairs that `ContractNode` turns into shortcuts. -/
def Bridged (witness : DynamicEdge n ContractorEdgeData → Fin n → ℤ) (g : ContractorGraph n)
    (node : Fin n) (nodeWeight : ℤ) (u w : Fin n) (c : ℤ) : Prop :=
  ∃ i ∈ inEdges g node, ∃ o ∈ outEdges g node, i.target = u ∧ o.target = w ∧
    viaWeight i o = c ∧ (w = u ∧ c < nodeWeight ∨ c < witness i w)

section Loops

variable {node : Fin n} {inEdge : DynamicEdge n ContractorEdgeData} {e : ContractorEdge n} {g : ContractorGraph n}

theorem mem_inEdges {i : DynamicEdge n ContractorEdgeData} :
    i ∈ inEdges g node ↔ i ∈ g.edges node ∧ i.target ≠ node ∧ i.data.backward = true := by
  simp [inEdges]

theorem mem_outEdges {o : DynamicEdge n ContractorEdgeData} :
    o ∈ outEdges g node ↔ o ∈ g.edges node ∧ o.target ≠ node ∧ o.data.forward = true := by
  simp [outEdges]

/-- The first loop leaves the node's own weight alone, so each pair meets the same bound. -/
theorem insertLoop_spec (other : inEdge.target ≠ node) (outs : List (DynamicEdge n ContractorEdgeData)) :
    ∀ st : Contraction n, (outs.foldl (insertLoop node inEdge) st).nodeWeights node = st.nodeWeights node ∧
      (e ∈ (outs.foldl (insertLoop node inEdge) st).insertedEdges ↔ e ∈ st.insertedEdges ∨
        ∃ o ∈ outs, (o.target = inEdge.target ∧ viaWeight inEdge o < st.nodeWeights node) ∧
          e ∈ shortcutPair node inEdge o) := by
  induction outs with
  | nil => simp
  | cons o rest ih =>
    intro st
    have weights : (insertLoop node inEdge st o).nodeWeights node = st.nodeWeights node := by
      unfold insertLoop
      split
      · simp [update_of_ne other.symm]
      · rfl
    obtain ⟨same, mem⟩ := ih (insertLoop node inEdge st o)
    refine ⟨same.trans weights, ?_⟩
    rw [foldl_cons, mem, weights]
    unfold insertLoop
    split
    · rename_i hit
      simp only [mem_append, mem_cons, exists_eq_or_imp, hit, true_and, or_assoc]
    · rename_i miss
      simp [miss]

variable (node inEdge) in
theorem insertBridge_spec (key : Fin n → ℤ)
    (e : ContractorEdge n) (outs : List (DynamicEdge n ContractorEdgeData)) :
    ∀ st : Contraction n, (outs.foldl (insertBridge node inEdge key) st).nodeWeights = st.nodeWeights ∧
      (e ∈ (outs.foldl (insertBridge node inEdge key) st).insertedEdges ↔ e ∈ st.insertedEdges ∨
        ∃ o ∈ outs, viaWeight inEdge o < key o.target ∧ e ∈ shortcutPair node inEdge o) := by
  induction outs with
  | nil => simp
  | cons o rest ih =>
    intro st
    obtain ⟨same, mem⟩ := ih (insertBridge node inEdge key st o)
    rw [foldl_cons, mem, same]
    unfold insertBridge
    split
    · rename_i hit
      simp only [mem_append, mem_cons, exists_eq_or_imp, hit, true_and, or_assoc]
    · rename_i miss
      simp [miss]

/-- The pairs of one in-edge. -/
theorem contractInEdge_spec (key : Fin n → ℤ) (other : inEdge.target ≠ node)
    (outs : List (DynamicEdge n ContractorEdgeData)) (st : Contraction n) :
    (contractInEdge node outs key st inEdge).nodeWeights node = st.nodeWeights node ∧
      (e ∈ (contractInEdge node outs key st inEdge).insertedEdges ↔ e ∈ st.insertedEdges ∨
        ∃ o ∈ outs, ((o.target = inEdge.target ∧ viaWeight inEdge o < st.nodeWeights node) ∨
          viaWeight inEdge o < key o.target) ∧ e ∈ shortcutPair node inEdge o) := by
  obtain ⟨first, memFirst⟩ := insertLoop_spec (e := e) other outs st
  obtain ⟨second, memSecond⟩ :=
    insertBridge_spec node inEdge key e outs
      (outs.foldl (insertLoop node inEdge) st)
  refine ⟨(congrFun second node).trans first, ?_⟩
  rw [contractInEdge, memSecond, memFirst]
  simp only [or_and_right, and_or_left, exists_or, or_assoc]

end Loops

section Merge

variable {m : ℕ} {l l' : List (ContractorEdge n)} {e : ContractorEdge n} {dir : Bool} {u w : Fin n} {c : ℤ}

/-- The edges of the list are shortcuts over `m`, each with a direction. -/
def ShortcutsOver (m : ℕ) (l : List (ContractorEdge n)) : Prop :=
  ∀ e ∈ l, e.data.shortcut = true ∧ e.data.id = m ∧ (e.data.forward = true ∨ e.data.backward = true)

theorem offers_cons : Offers (e :: l) dir m u w c ↔
    (e.source = u ∧ e.target = w ∧ e.data.weight = c ∧ e.data.id = m ∧ e.data.flag dir = true) ∨
      Offers l dir m u w c := by
  simp [Offers]

theorem mergeInto_spec (through : ShortcutsOver m (e :: l)) (merged : mergeInto e l = some l') :
    l'.length = l.length ∧ ShortcutsOver m l' ∧
      ∀ dir k u w c, Offers l' dir k u w c ↔ Offers (e :: l) dir k u w c := by
  induction l generalizing l' with
  | nil => cases merged
  | cons other rest ih =>
    have here := through e (by simp)
    have next := through other (by simp)
    unfold mergeInto at merged
    split_ifs at merged with equal
    · obtain ⟨source, target, weight, -⟩ := equal
      rw [Option.some.injEq] at merged
      subst merged
      refine ⟨by simp, ?_, ?_⟩
      · intro x hx
        rcases mem_cons.1 hx with rfl | old
        · refine ⟨next.1, next.2.1, ?_⟩
          rcases next.2.2 with h | h <;> simp [h]
        · exact through x (by simp [old])
      · intro dir k u w c
        simp only [offers_cons, ← source, ← target, ← weight, here.2.1, next.2.1]
        cases dir <;> simp only [ContractorEdgeData.flag, Bool.or_eq_true, and_or_left]
        · rw [or_assoc, or_left_comm]
        · rw [or_assoc, or_left_comm]
    · obtain ⟨rest', inner, rfl⟩ := Option.map_eq_some_iff.1 merged
      obtain ⟨length, shortcuts, offers⟩ := ih (fun x hx => through x (by
        rcases mem_cons.1 hx with rfl | old
        · simp
        · simp [old])) inner
      refine ⟨by simp [length], ?_, ?_⟩
      · intro x hx
        rcases mem_cons.1 hx with rfl | old
        · exact next
        · exact shortcuts x old
      · intro dir k u w c
        simp only [offers_cons] at offers ⊢
        rw [offers]
        exact or_left_comm

theorem mergeInserted_spec (k : ℕ) : ∀ l : List (ContractorEdge n), l.length ≤ k → ShortcutsOver m l →
    ShortcutsOver m (mergeInserted k l) ∧
      ∀ dir i u w c, Offers (mergeInserted k l) dir i u w c ↔ Offers l dir i u w c := by
  induction k with
  | zero =>
    intro l short through
    rw [length_eq_zero_iff.1 (Nat.le_zero.1 short)]
    exact ⟨by simp [mergeInserted, ShortcutsOver], fun _ _ _ _ _ => Iff.rfl⟩
  | succ k ih =>
    intro l short through
    cases l with
    | nil => exact ⟨by simp [mergeInserted, ShortcutsOver], fun _ _ _ _ _ => Iff.rfl⟩
    | cons e rest =>
      have short' : rest.length ≤ k := by simpa using short
      unfold mergeInserted
      cases merged : mergeInto e rest with
      | some rest' =>
        obtain ⟨length, shortcuts, offers⟩ := mergeInto_spec through merged
        obtain ⟨through', offers'⟩ := ih rest' (by omega) shortcuts
        exact ⟨through', fun dir i u w c => (offers' dir i u w c).trans (offers dir i u w c)⟩
      | none =>
        obtain ⟨through', offers'⟩ := ih rest short' fun x hx => through x (mem_cons_of_mem _ hx)
        refine ⟨?_, ?_⟩
        · intro x hx
          rcases mem_cons.1 hx with rfl | old
          · exact through x (by simp)
          · exact through' x old
        · intro dir i u w c
          simp only [offers_cons, offers']

end Merge

section Node

variable {g : ContractorGraph n} {node : Fin n}

variable (witness : DynamicEdge n ContractorEdgeData → Fin n → ℤ) (g : ContractorGraph n)

include witness

/-- The loop over the in-edges. -/
theorem contractInEdges_spec (e : ContractorEdge n)
    (outs ins : List (DynamicEdge n ContractorEdgeData)) (others : ∀ i ∈ ins, i.target ≠ node) :
    ∀ st : Contraction n, e ∈ (ins.foldl (fun st i => contractInEdge node outs (witness i) st i) st).insertedEdges ↔
      e ∈ st.insertedEdges ∨ ∃ i ∈ ins, ∃ o ∈ outs,
        ((o.target = i.target ∧ viaWeight i o < st.nodeWeights node) ∨
          viaWeight i o < witness i o.target) ∧ e ∈ shortcutPair node i o := by
  induction ins with
  | nil => simp
  | cons i rest ih =>
    intro st
    obtain ⟨weights, mem⟩ := contractInEdge_spec (e := e) (witness i) (others i (by simp)) outs st
    rw [foldl_cons, ih fun i hi => others i (mem_cons_of_mem _ hi)]
    rw [mem, weights]
    simp only [mem_cons, exists_eq_or_imp, or_assoc]

omit witness in
theorem mem_shortcutPair {i o : DynamicEdge n ContractorEdgeData} {e : ContractorEdge n} {dir : Bool}
    (flag : e.data.flag dir = true) : e ∈ shortcutPair node i o →
      (e.source, e.target) = orient dir i.target o.target ∧ e.data.weight = viaWeight i o := by
  simp only [shortcutPair, mem_cons, not_mem_nil, or_false]
  rintro (rfl | rfl) <;> cases dir <;> simp_all [ContractorEdgeData.flag, shortcutData, viaWeight, orient]

omit witness in
theorem exists_shortcutPair (node : Fin n) (i o : DynamicEdge n ContractorEdgeData) (dir : Bool) :
    ∃ e ∈ shortcutPair node i o, (e.source, e.target) = orient dir i.target o.target ∧
      e.data.weight = viaWeight i o ∧ e.data.flag dir = true ∧ e.data.id = node := by
  cases dir
  · exact ⟨_, mem_cons_of_mem _ (mem_singleton_self _), rfl, rfl, rfl, rfl⟩
  · exact ⟨_, mem_cons_self .., rfl, rfl, rfl, rfl⟩

/-- **The shortcuts of one node**: every bridged pair, listed at both ends, and nothing else. -/
theorem contractNode_offers (node : Fin n) (nodeWeights : Fin n → ℤ) :
    ShortcutsOver node (contractNode witness g node nodeWeights).insertedEdges ∧
      ∀ (dir : Bool) (k : ℕ) (u w : Fin n) (c : ℤ),
        Offers (contractNode witness g node nodeWeights).insertedEdges dir k
            (orient dir u w).1 (orient dir u w).2 c ↔
          k = node ∧ Bridged witness g node (nodeWeights node) u w c := by
  have mem : ∀ e, _ := fun e => contractInEdges_spec witness e (outEdges g node)
    (inEdges g node) (fun i hi => (mem_inEdges.1 hi).2.1) ⟨nodeWeights, []⟩
  have through : ShortcutsOver node ((inEdges g node).foldl
      (fun st i => contractInEdge node (outEdges g node) (witness i) st i) ⟨nodeWeights, []⟩).insertedEdges := by
    intro e he
    rcases (mem e).1 he with impossible | ⟨i, _, o, _, _, pair⟩
    · cases impossible
    · simp only [shortcutPair, mem_cons, not_mem_nil, or_false] at pair
      rcases pair with rfl | rfl <;> simp [shortcutData]
  obtain ⟨through', offers⟩ := mergeInserted_spec _ _ le_rfl through
  refine ⟨through', fun dir k u w c => (offers dir k _ _ c).trans ?_⟩
  constructor
  · rintro ⟨e, he, source, target, weight, id, flag⟩
    refine ⟨by rw [← id, (through e he).2.1], ?_⟩
    rcases (mem e).1 he with impossible | ⟨i, hi, o, ho, cond, pair⟩
    · cases impossible
    · obtain ⟨ends, sum⟩ := mem_shortcutPair flag pair
      have ends' : i.target = u ∧ o.target = w := by
        cases dir <;> simp_all [orient]
      obtain ⟨rfl, rfl⟩ := ends'
      refine ⟨i, hi, o, ho, rfl, rfl, by rw [← weight, sum], ?_⟩
      rw [← weight, sum]
      exact cond
  · rintro ⟨rfl, i, hi, o, ho, rfl, rfl, rfl, cond⟩
    obtain ⟨e, pair, ends, weight, flag, id⟩ := exists_shortcutPair node i o dir
    refine ⟨e, (mem e).2 (.inr ⟨i, hi, o, ho, cond, pair⟩), ?_, ?_, weight, id, flag⟩
    · rw [← ends]
    · rw [← ends]

end Node

end Osrm
