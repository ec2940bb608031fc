import Osrm.Contractor.ContractNode
import Mathlib.Data.Fintype.EquivFin

/-!
# Contracting a graph in rounds

`contractGraph` repeats the following round. It picks nodes that `IsNodeIndependent`
accepts, contracts all of them against the same graph, deletes the edges that lead to
them, and inserts the shortcuts. Once, and at the end, it also renumbers the nodes.

The threads share out the nodes as they like and sort their shortcuts with an unstable
sort, so a round may insert the shortcuts in any order (`Round.order`). Priorities,
hashes and node weights are arbitrary in each round. Sums of weights wrap at 32 bits;
the rounds of `Step` are those in which none does (`SumsFit`).
-/

namespace Osrm

open Function List DynamicGraph

open Lib ContractorGraph

variable {n : ℕ} (g : ContractorGraph n)

/-- `Bias` on original node ids; hashes are 16 bits wide. -/
def bias (hash : ℕ → ℕ) (a b : ℕ) : Bool :=
  if hash a ≠ hash b then hash a < hash b else a < b

/-- `std::numeric_limits<float>::epsilon()` -/
def floatEpsilon : ℚ := 1 / 2 ^ 23

/-- `IsNodeIndependent` returns false because of `target`. -/
def yields (hash : ℕ → ℕ) (priorities : Fin n → ℚ) (newToOld : Equiv.Perm (Fin n)) (node target : Fin n) : Bool :=
  priorities node > priorities target ||
    (|priorities node - priorities target| < floatEpsilon && bias hash (newToOld node) (newToOld target))

/-- The other nodes that a node's edges lead to, without duplicates. The source sorts them; nothing depends
on their order. -/
def neighbours (node : Fin n) : List (Fin n) :=
  (((g.edges node).map (·.target)).filter (· ≠ node)).dedup

def isNodeIndependent (hash : ℕ → ℕ) (priorities : Fin n → ℚ) (newToOld : Equiv.Perm (Fin n))
    (g : ContractorGraph n) (node : Fin n) : Bool :=
  ((g.edges node).all fun e => e.target = node || !yields hash priorities newToOld node e.target) &&
    (neighbours g node).all fun u =>
      (g.edges u).all fun e => e.target = node || !yields hash priorities newToOld node e.target

def deleteIncomingEdges (node : Fin n) : ContractorGraph n :=
  (neighbours g node).foldl (fun g u => g.deleteEdgesTo u node) g

/-- Insert one shortcut. Where the first edge between its ends is a shortcut with the same directions, the
lighter of the two stays. -/
def insertShortcut (slot : Bool × ContractorEdge n) : ContractorGraph n :=
  let edge := slot.2
  match g.findEdge edge.source edge.target with
  | some current =>
    if current.data.shortcut && edge.data.forward == current.data.forward &&
        edge.data.backward == current.data.backward then
      if edge.data.weight < current.data.weight then g.setFoundData edge.source edge.target edge.data else g
    else g.insertEdge slot.1 edge.source edge.target edge.data
  | none => g.insertEdge slot.1 edge.source edge.target edge.data

/-- Contract the nodes one after the other against the same graph. -/
def contractNodes (witness : Fin n → DynamicEdge n ContractorEdgeData → Fin n → ℤ)
    (g : ContractorGraph n) (nodes : List (Fin n)) (nodeWeights : Fin n → ℤ) : Contraction n :=
  nodes.foldl (fun st node =>
    let r := contractNode (witness node) g node st.nodeWeights
    ⟨r.nodeWeights, st.insertedEdges ++ r.insertedEdges⟩) ⟨nodeWeights, []⟩

/-- What `contractGraph` carries from round to round. -/
structure ContractorState (n : ℕ) where
  graph : ContractorGraph n
  isCore : Fin n → Bool
  newToOld : Equiv.Perm (Fin n)

/-- Everything a round may choose. -/
structure Round (n : ℕ) where
  hash : ℕ → ℕ
  priorities : Fin n → ℚ
  nodeWeights : Fin n → ℤ
  /-- The independent nodes, in the order in which they are contracted. -/
  nodes : List (Fin n)
  /-- For each node and each edge into it, the keys the local search leaves. -/
  witness : Fin n → DynamicEdge n ContractorEdgeData → Fin n → ℤ
  /-- The shortcuts in the order of insertion, each with the slot it goes to. -/
  order : List (Bool × ContractorEdge n)

/-- The local search may find anything, as long as a finite key is the weight of a path around the node. -/
structure FindsWitnesses (node : Fin n)
    (witness : DynamicEdge n ContractorEdgeData → Fin n → ℤ) : Prop where
  le : ∀ i ∈ inEdges g node, ∀ o ∈ outEdges g node, witness i o.target ≤ invalidEdgeWeight
  path : ∀ i ∈ inEdges g node, ∀ o ∈ outEdges g node, witness i o.target < invalidEdgeWeight →
    Walk (fun x y c => g.Forward x y c ∧ y ≠ node) i.target o.target (witness i o.target)

/-- No sum that is formed while `node` is contracted wraps: a pair of edges over it, and a key of the local
search, at most such a pair, with one more edge. -/
def SumsFit (node : Fin n) : Prop :=
  ∀ i ∈ inEdges g node, ∀ o ∈ outEdges g node, ∀ u, ∀ e ∈ g.edges u,
    i.data.weight + o.data.weight + e.data.weight ≤ invalidEdgeWeight

instance (node : Fin n) : Decidable (SumsFit g node) :=
  inferInstanceAs (Decidable (∀ i ∈ inEdges g node, ∀ o ∈ outEdges g node, ∀ u, ∀ e ∈ g.edges u,
    i.data.weight + o.data.weight + e.data.weight ≤ invalidEdgeWeight))

variable {g} in
/-- Then a pair of edges weighs what its edges weigh together. -/
theorem SumsFit.viaWeight_eq (positive : ∀ u, ∀ e ∈ g.edges u, 0 < e.data.weight) {node : Fin n} (sums : SumsFit g node)
    {i o : DynamicEdge n ContractorEdgeData} (hi : i ∈ inEdges g node) (ho : o ∈ outEdges g node) :
    viaWeight i o = i.data.weight + o.data.weight := by
  have listed := (mem_inEdges.1 hi).1
  have := positive node i listed
  have := positive node o (mem_outEdges.1 ho).1
  have := sums i hi o ho node i listed
  exact add32_eq (by omega) (by omega)

/-- The choices that a round can make in a state whose weights are small enough for its sums. -/
structure Round.Valid (r : Round n) (s : ContractorState n) : Prop where
  distinct : r.nodes.Nodup
  core : ∀ m ∈ r.nodes, s.isCore m = true
  independent : ∀ m ∈ r.nodes, isNodeIndependent r.hash r.priorities s.newToOld s.graph m = true
  fits : ∀ u, r.nodeWeights u ≤ invalidEdgeWeight
  sums : ∀ m ∈ r.nodes, SumsFit s.graph m
  found : ∀ m ∈ r.nodes, FindsWitnesses s.graph m (r.witness m)
  inserted : (r.order.map (·.2)).Perm (contractNodes r.witness s.graph r.nodes r.nodeWeights).insertedEdges

namespace ContractorState

def contract (s : ContractorState n) (r : Round n) : ContractorState n where
  graph := r.order.foldl insertShortcut (r.nodes.foldl deleteIncomingEdges s.graph)
  isCore u := s.isCore u && u ∉ r.nodes
  newToOld := s.newToOld

/-- `RenumberData`, with the permutation as an argument. -/
def renumber (s : ContractorState n) (oldToNew : Equiv.Perm (Fin n)) : ContractorState n where
  graph := renumberGraph s.graph oldToNew
  isCore v := s.isCore (oldToNew.symm v)
  newToOld := oldToNew.symm.trans s.newToOld

/-- One round, or one renumbering. -/
inductive Step : ContractorState n → ContractorState n → Prop
  | round {s : ContractorState n} (r : Round n) : r.Valid s → Step s (s.contract r)
  | renumber {s : ContractorState n} (oldToNew : Equiv.Perm (Fin n)) : Step s (s.renumber oldToNew)

/-- The states of `contractGraph` on the graph `g`. -/
def Reachable (g : ContractorGraph n) (isCore : Fin n → Bool) : ContractorState n → Prop :=
  Relation.ReflTransGen Step ⟨g, isCore, Equiv.refl _⟩

end ContractorState

/-! ### Independence -/

section Independence

variable {hash : ℕ → ℕ} {priorities : Fin n → ℚ} {newToOld : Equiv.Perm (Fin n)} {g : ContractorGraph n}
  {u m m' : Fin n}

@[simp] theorem mem_neighbours : u ∈ neighbours g m ↔ (∃ e ∈ g.edges m, e.target = u) ∧ u ≠ m := by
  simp [neighbours]

theorem bias_total (hash : ℕ → ℕ) {a b : ℕ} (other : a ≠ b) : bias hash a b = true ∨ bias hash b a = true := by
  unfold bias
  by_cases same : hash a = hash b
  · simp only [same, ne_eq, not_true_eq_false, if_false, decide_eq_true_eq]
    omega
  · simp only [same, Ne.symm same, ne_eq, not_false_eq_true, if_true, decide_eq_true_eq]
    omega

variable (hash priorities newToOld) in
/-- Of two nodes one yields to the other. -/
theorem yields_total (other : m ≠ m') :
    yields hash priorities newToOld m m' = true ∨ yields hash priorities newToOld m' m = true := by
  simp only [yields, Bool.or_eq_true, Bool.and_eq_true, decide_eq_true_eq]
  rcases lt_trichotomy (priorities m) (priorities m') with lt | eq | gt
  · exact .inr (.inl lt)
  · have original : (newToOld m : ℕ) ≠ newToOld m' := fun same =>
      other (newToOld.injective (Fin.ext same))
    have tie : |(0 : ℚ)| < floatEpsilon := by norm_num [floatEpsilon]
    rw [eq, sub_self]
    rcases bias_total hash original with h | h
    · exact .inl (.inr ⟨tie, h⟩)
    · exact .inr (.inr ⟨tie, h⟩)
  · exact .inl (.inl gt)

/-- A node is up to two edges away from another. -/
def Near (g : ContractorGraph n) (m w : Fin n) : Prop :=
  (∃ e ∈ g.edges m, e.target = w) ∨ ∃ u ∈ neighbours g m, ∃ e ∈ g.edges u, e.target = w

theorem independent_iff : isNodeIndependent hash priorities newToOld g m = true ↔
    ∀ w, w ≠ m → Near g m w → yields hash priorities newToOld m w = false := by
  simp only [isNodeIndependent, Bool.and_eq_true, all_eq_true, Bool.or_eq_true, decide_eq_true_eq, Bool.not_eq_true']
  constructor
  · rintro accepted _ other (⟨e, he, rfl⟩ | ⟨u, hu, e, he, rfl⟩)
    · exact (accepted.1 e he).resolve_left other
    · exact (accepted.2 u hu e he).resolve_left other
  · intro free
    refine ⟨fun e he => ?_, fun u hu e he => ?_⟩
    · exact or_iff_not_imp_left.2 fun other => free _ other (.inl ⟨e, he, rfl⟩)
    · exact or_iff_not_imp_left.2 fun other => free _ other (.inr ⟨u, hu, e, he, rfl⟩)

end Independence

/-! ### Progress -/

section Progress

variable (hash : ℕ → ℕ) (p : Fin n → ℚ) (ids : Equiv.Perm (Fin n))

/-- The nodes `l` can still be contracted: what is near one of them is another one, or a core node of a far larger
priority. -/
def Remaining (g : ContractorGraph n) (l : List (Fin n)) : Prop :=
  ∀ m ∈ l, ∀ w, Near g m w → w ∈ l ∨ p m + floatEpsilon ≤ p w

/-- The order in which nodes are to be contracted: by priority, and by the hash where priorities are equal. -/
def Before (u w : Fin n) : Prop := p u < p w ∨ p u = p w ∧ bias hash (ids w) (ids u) = true

/-- The hash does not decide against the lower of two priorities. -/
def Steady (u w : Fin n) : Prop := p u < p w → p w - p u < floatEpsilon → bias hash (ids u) (ids w) = false

/-- All remaining nodes within two edges of each other are steady. -/
def SteadyNear (g : ContractorGraph n) (l : List (Fin n)) : Prop := ∀ u ∈ l, ∀ w ∈ l, Near g u w → Steady hash p ids u w

variable {hash p ids}

theorem yields_iff (u w : Fin n) : yields hash p ids u w = true ↔ Before hash p ids w u ∨ ¬ Steady hash p ids u w := by
  simp only [yields, Bool.or_eq_true, Bool.and_eq_true, decide_eq_true_eq, Before, Steady, Classical.not_imp, Bool.not_eq_false]
  rcases lt_trichotomy (p u) (p w) with lower | same | higher
  · rw [abs_sub_comm, abs_of_pos (sub_pos.2 lower)]
    simp [lower, lower.not_gt, lower.ne']
  · simp [same, floatEpsilon]
  · simp [higher]

/-- `Before` is a strict order, so some node is first. -/
theorem exists_first {l : List (Fin n)} (some : l ≠ []) : ∃ m ∈ l, ∀ w ∈ l, ¬ Before hash p ids w m := by
  have irrefl : Std.Irrefl (Before hash p ids) := ⟨fun u => by simp [Before, bias]⟩
  have trans : IsTrans _ (Before hash p ids) := ⟨fun u v w => by
    simp only [Before, bias]
    grind⟩
  exact (Finite.wellFounded_of_trans_of_irrefl (Before hash p ids)).has_min {m | m ∈ l} (exists_mem_of_ne_nil l some)

/-- Some remaining node is accepted: the first one. -/
theorem SteadyNear.progress {g : ContractorGraph n} {l : List (Fin n)} (steady : SteadyNear hash p ids g l) (some : l ≠ [])
    (remaining : Remaining p g l) : ∃ m ∈ l, isNodeIndependent hash p ids g m = true := by
  obtain ⟨m, mem, first⟩ := @exists_first n hash p ids l some
  refine ⟨m, mem, independent_iff.2 fun w _ near => ?_⟩
  rw [Bool.eq_false_iff, Ne, yields_iff, not_or, not_not]
  rcases remaining m mem w near with inside | far
  · exact ⟨first w inside, steady m mem w inside near⟩
  · have positive : 0 < floatEpsilon := by norm_num [floatEpsilon]
    refine ⟨?_, fun _ close => by linarith⟩
    rintro (lower | ⟨same, -⟩) <;> linarith

/-- Neither of two near nodes that are not steady is accepted. -/
theorem Steady.of_independent {g : ContractorGraph n} {u w m : Fin n} (there : Near g u w) (back : Near g w u)
    (accepted : isNodeIndependent hash p ids g m = true) (mem : m ∈ [u, w]) : Steady hash p ids u w := by
  by_contra shaky
  have lower : p u < p w := (Classical.not_imp.1 shaky).1
  have other : w ≠ u := fun same => lower.ne (congrArg p same.symm)
  rw [independent_iff] at accepted
  rcases mem_pair.1 mem with rfl | rfl
  · exact Bool.eq_false_iff.1 (accepted w other there) ((yields_iff m w).2 (.inr shaky))
  · exact Bool.eq_false_iff.1 (accepted u other.symm back) ((yields_iff m u).2 (.inl (.inl lower)))

/-- Two nodes with an edge between them. -/
def pair (u w : Fin n) : ContractorGraph n :=
  ⟨fun x => if x = u then [⟨w, 1, 1, 1, 0, 1, false, true, true⟩] else if x = w then [⟨u, 1, 1, 1, 0, 1, false, true, true⟩] else []⟩

/-- **Rounds make progress** exactly if one of the nodes that come first around themselves is steady. It is enough that
remaining nodes within two edges of each other are steady, which is needed where two nodes remain, and rounds in which
they are end. -/
theorem rounds_progress_iff (hash : ℕ → ℕ) :
    (∀ (p : Fin n → ℚ) (ids : Equiv.Perm (Fin n)) (g : ContractorGraph n) (l : List (Fin n)),
      ((∃ m ∈ l, isNodeIndependent hash p ids g m = true) ↔
        ∃ m ∈ l, ∀ w, w ≠ m → Near g m w → ¬ Before hash p ids w m ∧ Steady hash p ids m w) ∧
      (l ≠ [] → Remaining p g l → SteadyNear hash p ids g l → ∃ m ∈ l, isNodeIndependent hash p ids g m = true) ∧
      ∀ u w, Near g u w → Near g w u → Remaining p g [u, w] →
        ((∃ m ∈ [u, w], isNodeIndependent hash p ids g m = true) ↔ Steady hash p ids u w ∧ Steady hash p ids w u)) ∧
    ∀ (graph : ℕ → ContractorGraph n) (q : ℕ → Fin n → ℚ) (f : ℕ → Equiv.Perm (Fin n)) (remaining : ℕ → List (Fin n)),
      (∀ i, SteadyNear hash (q i) (f i) (graph i) (remaining i) ∧ Remaining (q i) (graph i) (remaining i) ∧
        (remaining (i + 1)).length =
          ((remaining i).filter fun m => !isNodeIndependent hash (q i) (f i) (graph i) m).length) →
      ∃ i ≤ (remaining 0).length, remaining i = [] := by
  refine ⟨fun p ids g l => ⟨?_, fun some remaining steady => steady.progress some remaining, ?_⟩, ?_⟩
  · simp only [independent_iff, Bool.eq_false_iff, Ne, yields_iff, not_or, not_not]
  · intro u w there back remaining
    refine ⟨fun ⟨m, mem, accepted⟩ => ⟨.of_independent there back accepted mem, .of_independent back there accepted ?_⟩, ?_⟩
    · exact mem_pair.2 (mem_pair.1 mem).symm
    · rintro ⟨up, down⟩
      refine SteadyNear.progress (fun x hx y hy _ => ?_) (cons_ne_nil _ _) remaining
      rcases mem_pair.1 hx with rfl | rfl <;> rcases mem_pair.1 hy with rfl | rfl
      · exact fun lower => absurd lower (lt_irrefl _)
      · exact up
      · exact down
      · exact fun lower => absurd lower (lt_irrefl _)
  · intro graph q f remaining rounds
    suffices count : ∀ k i, (remaining i).length ≤ k → ∃ j ≤ i + k, remaining j = [] by simpa using count _ 0 le_rfl
    intro k
    induction k with
    | zero => exact fun i none => ⟨i, le_rfl, length_eq_zero_iff.1 (Nat.le_zero.1 none)⟩
    | succ k ih =>
      intro i bound
      by_cases done : remaining i = []
      · exact ⟨i, by omega, done⟩
      · obtain ⟨steady, near, next⟩ := rounds i
        obtain ⟨m, mem, accepted⟩ := steady.progress done near
        have fewer : (remaining (i + 1)).length < (remaining i).length := by
          rw [next, length_filter_lt_length_iff_exists]
          exact ⟨m, mem, by simp [accepted]⟩
        obtain ⟨j, le, done⟩ := ih (i + 1) (by omega)
        exact ⟨j, by omega, done⟩

/-- The lower of two close priorities loses by the hash, the higher one by comparison. -/
theorem no_node_accepted :
    let p : Fin 2 → ℚ := fun v => if v = 0 then 0 else 1 / 2 ^ 24
    Remaining p (pair 0 1) [0, 1] ∧ ∀ m, isNodeIndependent id p (Equiv.refl _) (pair 0 1) m = false := by
  exact ⟨fun _ _ w _ => .inl (by simp; omega), by decide +kernel⟩

end Progress

/-! ### Deleting and inserting -/

section Edges

variable {g : ContractorGraph n} {u m : Fin n} {e : DynamicEdge n ContractorEdgeData}

theorem mem_deleteEdgesToAll (m : Fin n) (l : List (Fin n)) : ∀ g : ContractorGraph n,
    e ∈ (l.foldl (fun g u => g.deleteEdgesTo u m) g).edges u ↔ e ∈ g.edges u ∧ (u ∈ l → e.target ≠ m) := by
  induction l with
  | nil => simp
  | cons x rest ih =>
    intro g
    rw [foldl_cons, ih, mem_deleteEdgesTo, mem_cons]
    tauto

theorem mem_deleteIncomingEdges : e ∈ (deleteIncomingEdges g m).edges u ↔
    e ∈ g.edges u ∧ (u ∈ neighbours g m → e.target ≠ m) :=
  mem_deleteEdgesToAll m (neighbours g m) g

/-- The chosen nodes list none of each other, so each deletion sees the neighbours it would see first. -/
theorem mem_deletedEdges (nodes : List (Fin n)) : ∀ g : ContractorGraph n,
    (∀ m ∈ nodes, ∀ u ∈ neighbours g m, u ∉ nodes) →
    ∀ u e, e ∈ (nodes.foldl deleteIncomingEdges g).edges u ↔
      e ∈ g.edges u ∧ (e.target ∈ nodes → u ∉ neighbours g e.target) := by
  induction nodes with
  | nil => simp
  | cons m rest ih =>
    intro g apart u e
    have same : ∀ m' ∈ m :: rest, ∀ e, e ∈ (deleteIncomingEdges g m).edges m' ↔ e ∈ g.edges m' := by
      intro m' hm' e
      rw [mem_deleteIncomingEdges]
      tauto
    have near : ∀ m' ∈ m :: rest, ∀ u, u ∈ neighbours (deleteIncomingEdges g m) m' ↔ u ∈ neighbours g m' := by
      intro m' hm' u
      simp only [mem_neighbours, same m' hm']
    have rest' : ∀ m' ∈ rest, ∀ u ∈ neighbours (deleteIncomingEdges g m) m', u ∉ rest := by
      intro m' hm' u hu
      have := apart m' (by simp [hm']) u ((near m' (by simp [hm']) u).1 hu)
      exact fun mem => this (by simp [mem])
    rw [foldl_cons, ih _ rest', mem_deleteIncomingEdges]
    constructor
    · rintro ⟨⟨he, first⟩, others⟩
      refine ⟨he, fun target => ?_⟩
      rcases mem_cons.1 target with eq | mem
      · rw [eq]
        exact fun hu => first hu eq
      · rw [← near e.target target]
        exact others mem
    · rintro ⟨he, none⟩
      refine ⟨⟨he, fun hu eq => none (by simp [eq]) (eq ▸ hu)⟩, fun mem => ?_⟩
      rw [near e.target (by simp [mem])]
      exact none (by simp [mem])

/-- What inserting the edges `l` does to a graph. -/
structure Inserted (g g' : ContractorGraph n) (l : List (ContractorEdge n)) : Prop where
  origin : ∀ u, ∀ e ∈ g'.edges u, e ∈ g.edges u ∨ ∃ x ∈ l, x.source = u ∧ e = ⟨x.target, x.data⟩
  kept : ∀ u, ∀ e ∈ g.edges u, ∃ e' ∈ g'.edges u, AsGood e e'
  covered : ∀ x ∈ l, ∃ e' ∈ g'.edges x.source, AsGood ⟨x.target, x.data⟩ e'
  other : ∀ u, (∀ x ∈ l, x.source ≠ u) → g'.edges u = g.edges u

theorem Inserted.insertEdge (g : ContractorGraph n) (before : Bool) (x : ContractorEdge n) :
    Inserted g (g.insertEdge before x.source x.target x.data) [x] where
  origin u e he := by
    rcases mem_insertEdge.1 he with old | ⟨here, new⟩
    · exact .inl old
    · exact .inr ⟨x, by simp, here.symm, new⟩
  kept u e he := ⟨e, mem_insertEdge.2 (.inl he), .refl e⟩
  covered y hy := by
    obtain rfl := mem_singleton.1 hy
    exact ⟨_, mem_insertEdge.2 (.inr ⟨rfl, rfl⟩), .refl _⟩
  other u away := insertEdge_other fun here => away x (by simp) here.symm

theorem insertShortcut_inserted (g : ContractorGraph n) (slot : Bool × ContractorEdge n) :
    Inserted g (insertShortcut g slot) [slot.2] := by
  obtain ⟨before, x⟩ := slot
  unfold insertShortcut
  simp only
  cases found : g.findEdge x.source x.target with
  | none => exact .insertEdge g before x
  | some current =>
    obtain ⟨listed, target⟩ := findEdge_mem found
    simp only
    split
    · rename_i duplicate
      simp only [Bool.and_eq_true, beq_iff_eq] at duplicate
      obtain ⟨⟨-, forward⟩, backward⟩ := duplicate
      split
      · rename_i lighter
        obtain ⟨new, kept, origin⟩ := setFoundData_spec found x.data
        have better : AsGood current ⟨x.target, x.data⟩ := ⟨target.symm, forward, backward, lighter.le⟩
        refine ⟨?_, ?_, ?_, ?_⟩
        · intro u e he
          by_cases here : u = x.source
          · subst here
            rcases origin e he with rfl | old
            · exact .inr ⟨x, by simp, rfl, rfl⟩
            · exact .inl old
          · rw [setFoundData_other here] at he
            exact .inl he
        · intro u e he
          by_cases here : u = x.source
          · subst here
            by_cases replaced : e = current
            · exact ⟨_, new, replaced ▸ better⟩
            · exact ⟨e, kept e he replaced, .refl e⟩
          · rw [setFoundData_other here]
            exact ⟨e, he, .refl e⟩
        · intro y hy
          obtain rfl := mem_singleton.1 hy
          exact ⟨_, new, .refl _⟩
        · intro u away
          exact setFoundData_other fun here => away x (by simp) here.symm
      · rename_i heavier
        refine ⟨fun u e he => .inl he, fun u e he => ⟨e, he, .refl e⟩, ?_, fun u _ => rfl⟩
        intro y hy
        obtain rfl := mem_singleton.1 hy
        exact ⟨current, listed, target, forward.symm, backward.symm, not_lt.1 heavier⟩
    · exact .insertEdge g before x

theorem insertAll_inserted (order : List (Bool × ContractorEdge n)) : ∀ g : ContractorGraph n,
    Inserted g (order.foldl insertShortcut g) (order.map (·.2)) := by
  induction order with
  | nil =>
    intro g
    exact ⟨fun u e he => .inl he, fun u e he => ⟨e, he, .refl e⟩, by simp, fun u _ => rfl⟩
  | cons slot rest ih =>
    intro g
    have first := insertShortcut_inserted g slot
    have others := ih (insertShortcut g slot)
    refine ⟨?_, ?_, ?_, ?_⟩
    · intro u e he
      rcases others.origin u e he with old | ⟨x, hx, new⟩
      · rcases first.origin u e old with old | ⟨x, hx, new⟩
        · exact .inl old
        · exact .inr ⟨x, by simp [mem_singleton.1 hx], new⟩
      · exact .inr ⟨x, mem_cons_of_mem _ hx, new⟩
    · intro u e he
      obtain ⟨e₁, he₁, good₁⟩ := first.kept u e he
      obtain ⟨e₂, he₂, good₂⟩ := others.kept u e₁ he₁
      exact ⟨e₂, he₂, good₁.trans good₂⟩
    · intro x hx
      rcases mem_cons.1 hx with rfl | hx
      · obtain ⟨e₁, he₁, good₁⟩ := first.covered slot.2 (by simp)
        obtain ⟨e₂, he₂, good₂⟩ := others.kept _ e₁ he₁
        exact ⟨e₂, he₂, good₁.trans good₂⟩
      · exact others.covered x hx
    · intro u away
      rw [foldl_cons, others.other u fun x hx => away x (mem_cons_of_mem _ hx)]
      exact first.other u fun x hx => away x (by simp [mem_singleton.1 hx])

end Edges

/-! ### The shortcuts of a round -/

section Shortcuts

variable {r : Round n} {s : ContractorState n} {nodeWeights : Fin n → ℤ} {x : ContractorEdge n} {M : ℤ}

/-- Contracting a node only lowers node weights. -/
theorem contractNode_fits {g : ContractorGraph n} {key : DynamicEdge n ContractorEdgeData → Fin n → ℤ} {m : Fin n}
    (fits : ∀ u, nodeWeights u ≤ M) (u : Fin n) :
    (contractNode key g m nodeWeights).nodeWeights u ≤ M := by
  have kept : ∀ st : Contraction n, (∀ u, st.nodeWeights u ≤ M) → ∀ i o u, (insertLoop m i st o).nodeWeights u ≤ M := by
    intro st fits i o u
    unfold insertLoop
    split_ifs with hit
    · by_cases here : u = i.target
      · subst here
        simpa using hit.2.le.trans (fits m)
      · simpa [here] using fits u
    · exact fits u
  refine foldlRecOn (motive := fun st : Contraction n => ∀ u, st.nodeWeights u ≤ M) (inEdges g m) _ fits (fun st fits i _ u => ?_) u
  rw [contractInEdge, (insertBridge_spec m i (key i) ⟨m, m, i.data⟩ (outEdges g m) _).1]
  exact foldlRecOn (motive := fun st : Contraction n => ∀ u, st.nodeWeights u ≤ M) (outEdges g m) _ fits (fun st fits o _ => kept st fits i o) u

variable (witness : Fin n → DynamicEdge n ContractorEdgeData → Fin n → ℤ)

/-- The nodes of a round are contracted one by one, each under the weights of its turn. -/
theorem mem_contractNodes (g : ContractorGraph n)
    (nodes : List (Fin n)) (distinct : nodes.Nodup) :
    ∀ st : Contraction n, (∀ u, st.nodeWeights u ≤ M) →
    ∃ weights : Fin n → Fin n → ℤ, (∀ m ∈ nodes, ∀ u, weights m u ≤ M) ∧ ∀ x,
      x ∈ (nodes.foldl (fun st node =>
          let r := contractNode (witness node) g node st.nodeWeights
          ⟨r.nodeWeights, st.insertedEdges ++ r.insertedEdges⟩) st).insertedEdges ↔
        x ∈ st.insertedEdges ∨ ∃ m ∈ nodes, x ∈ (contractNode (witness m) g m (weights m)).insertedEdges := by
  induction nodes with
  | nil => exact fun st _ => ⟨fun _ _ => 0, by simp, by simp⟩
  | cons m rest ih =>
    intro st fits
    obtain ⟨fresh, distinct'⟩ := nodup_cons.1 distinct
    obtain ⟨weights, fits', mem⟩ := ih distinct'
      ⟨(contractNode (witness m) g m st.nodeWeights).nodeWeights,
        st.insertedEdges ++ (contractNode (witness m) g m st.nodeWeights).insertedEdges⟩ (contractNode_fits fits)
    have others : ∀ m' ∈ rest, update weights m st.nodeWeights m' = weights m' := by
      intro m' hm'
      refine update_of_ne ?_ _ _
      rintro rfl
      exact fresh hm'
    refine ⟨update weights m st.nodeWeights, ?_, ?_⟩
    · intro m' hm' u
      rcases mem_cons.1 hm' with rfl | hm'
      · simpa using fits u
      · rw [others m' hm']
        exact fits' m' hm' u
    · intro x
      rw [foldl_cons, mem, mem_append, or_assoc]
      simp only [mem_cons, exists_eq_or_imp, update_self]
      refine or_congr_right (or_congr_right ?_)
      constructor
      · rintro ⟨m', hm', hx⟩
        exact ⟨m', hm', by rwa [others m' hm']⟩
      · rintro ⟨m', hm', hx⟩
        exact ⟨m', hm', by rwa [others m' hm'] at hx⟩

/-- **The shortcuts of a round**: the bridged pairs of its nodes, each listed at both ends. -/
theorem contractNodes_offers (g : ContractorGraph n)
    {nodes : List (Fin n)} (distinct : nodes.Nodup) (fits : ∀ u, nodeWeights u ≤ M) :
    (∀ x ∈ (contractNodes witness g nodes nodeWeights).insertedEdges,
      x.data.shortcut = true ∧ (x.data.forward = true ∨ x.data.backward = true)) ∧
    ∃ weight : Fin n → ℤ, (∀ m ∈ nodes, weight m ≤ M) ∧
      ∀ (dir : Bool) (k : ℕ) (u w : Fin n) (c : ℤ),
        Offers (contractNodes witness g nodes nodeWeights).insertedEdges dir k
            (orient dir u w).1 (orient dir u w).2 c ↔
          ∃ m ∈ nodes, k = m ∧ Bridged (witness m) g m (weight m) u w c := by
  obtain ⟨weights, fits', mem⟩ := mem_contractNodes witness g nodes distinct ⟨nodeWeights, []⟩ fits
  have mem' : ∀ x, x ∈ (contractNodes witness g nodes nodeWeights).insertedEdges ↔
      ∃ m ∈ nodes, x ∈ (contractNode (witness m) g m (weights m)).insertedEdges := by
    intro x
    simpa [contractNodes] using mem x
  refine ⟨?_, fun m => weights m m, fun m hm => fits' m hm m, ?_⟩
  · intro x hx
    obtain ⟨m, _, hx⟩ := (mem' x).1 hx
    have through := (contractNode_offers (witness m) g m (weights m)).1 x hx
    exact ⟨through.1, through.2.2⟩
  · intro dir k u w c
    constructor
    · rintro ⟨x, hx, rest⟩
      obtain ⟨m, hm, hx⟩ := (mem' x).1 hx
      exact ⟨m, hm, ((contractNode_offers (witness m) g m (weights m)).2 dir k u w c).1 ⟨x, hx, rest⟩⟩
    · rintro ⟨m, hm, bridged⟩
      obtain ⟨x, hx, rest⟩ := ((contractNode_offers (witness m) g m (weights m)).2 dir k u w c).2 bridged
      exact ⟨x, (mem' x).2 ⟨m, hm, hx⟩, rest⟩

/-- The shortcuts a round inserts, with the node weights they were compared with. -/
structure Round.Shortcuts (r : Round n) (s : ContractorState n) (weight : Fin n → ℤ) : Prop where
  marked : ∀ x ∈ r.order.map (·.2), x.data.shortcut = true ∧ (x.data.forward = true ∨ x.data.backward = true)
  fits : ∀ m ∈ r.nodes, weight m ≤ invalidEdgeWeight
  offers : ∀ (dir : Bool) (k : ℕ) (u w : Fin n) (c : ℤ),
    Offers (r.order.map (·.2)) dir k (orient dir u w).1 (orient dir u w).2 c ↔
      ∃ m ∈ r.nodes, k = m ∧ Bridged (r.witness m) s.graph m (weight m) u w c

theorem Round.Valid.shortcuts (valid : r.Valid s) :
    ∃ weight, r.Shortcuts s weight := by
  obtain ⟨marked, weight, fits, offers⟩ :=
    contractNodes_offers r.witness s.graph valid.distinct valid.fits
  have mem : ∀ x, x ∈ r.order.map (·.2) ↔ _ := fun x => valid.inserted.mem_iff
  refine ⟨weight, fun x hx => marked x ((mem x).1 hx), fits, fun dir k u w c => ?_⟩
  rw [← offers dir k u w c]
  simp only [Offers, mem]

/-- An inserted edge bridges a pair in each of its directions. -/
theorem Round.Shortcuts.bridged {weight : Fin n → ℤ} (h : r.Shortcuts s weight) (hx : x ∈ r.order.map (·.2))
    {dir : Bool} (flag : x.data.flag dir = true) :
    ∃ m ∈ r.nodes, x.data.id = m ∧ Bridged (r.witness m) s.graph m (weight m)
      (orient dir x.source x.target).1 (orient dir x.source x.target).2 x.data.weight := by
  have offers := h.offers dir x.data.id (orient dir x.source x.target).1 (orient dir x.source x.target).2 x.data.weight
  rw [orient_orient] at offers
  exact offers.1 ⟨x, hx, rfl, rfl, rfl, rfl, flag⟩

end Shortcuts

end Osrm
