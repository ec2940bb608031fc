import Osrm.Contractor.Shortcuts
import Osrm.Engine.Ch.Search

/-!
# Unpacking a path of the contracted graph

`unpackPath` keeps a stack of node pairs. For each pair it looks up the lightest edge, at
the first node among the edges flagged forward and, failing that, at the second among those
flagged backward. A shortcut is replaced by its two halves; any other edge is reported.

The halves of a shortcut meet in a node that was contracted before both of its ends, so
the ranks of `Layered` bound the depth. The weight is kept at each replacement, because the
lightest edge between two nodes weighs as much as the lightest halves over its middle node.
-/

namespace Osrm

open Function List

open Lib ContractorGraph ContractorState

variable {n : ℕ}

namespace Ch

variable (q : QueryGraph n)

def findSmallestEdge (u v : Fin n) (filter : QueryEdgeData → Bool) :
    Option (DynamicEdge n QueryEdgeData) :=
  ((q.edges u).foldl (fun smallest edge =>
    if edge.target = v ∧ edge.data.weight < smallest.2 ∧ filter edge.data = true then (some edge, edge.data.weight)
    else smallest) (none, invalidEdgeWeight)).1

/-- The edge that `unpackPath` looks up for a pair of nodes. -/
def smallerEdge (edge : Fin n × Fin n) : Option (DynamicEdge n QueryEdgeData) :=
  match findSmallestEdge q edge.1 edge.2 (·.forward) with
  | some e => some e
  | none => findSmallestEdge q edge.2 edge.1 (·.backward)

/-- A call of the callback: the pair of nodes and the edge between them. -/
abbrev Call (n : ℕ) := (Fin n × Fin n) × DynamicEdge n QueryEdgeData

/-- The loop of `unpackPath` on its stack, top first. It fails where the source would use an invalid edge
or node, and where the first argument, a bound on the iterations, runs out. -/
def unpackLoop (q : QueryGraph n) : ℕ → List (Fin n × Fin n) → Option (List (Call n))
  | _, [] => some []
  | 0, _ :: _ => none
  | fuel + 1, edge :: stack =>
    match smallerEdge q edge with
    | none => none
    | some e =>
      if e.data.shortcut then
        if h : e.data.turnId < n then
          unpackLoop q fuel ((edge.1, ⟨e.data.turnId, h⟩) :: (⟨e.data.turnId, h⟩, edge.2) :: stack)
        else none
      else (unpackLoop q fuel stack).map ((edge, e) :: ·)

/-- `unpackPath`: the calls it makes for a packed path. -/
def unpackPath (fuel : ℕ) (packedPath : List (Fin n)) : Option (List (Call n)) :=
  unpackLoop q fuel (packedPath.zip packedPath.tail)

/-- The pairs lead from `x` to `y`, each from where the one before it ends. -/
def Contiguous : Fin n → List (Fin n × Fin n) → Fin n → Prop
  | x, [], y => x = y
  | x, pair :: rest, y => pair.1 = x ∧ Contiguous pair.2 rest y

/-- The weights of the edges from `x` to `y`, listed at either end. -/
def Joins (edge : Fin n × Fin n) : Set ℤ :=
  {c | q.Listed true edge.1 edge.2 c ∨ q.Listed false edge.2 edge.1 c}

theorem Contiguous.append {x y z : Fin n} {l l' : List (Fin n × Fin n)} (h : Contiguous x l y) (h' : Contiguous y l' z) :
    Contiguous x (l ++ l') z := by
  induction l generalizing x with
  | nil =>
    obtain rfl : x = y := h
    exact h'
  | cons pair rest ih => exact ⟨h.1, ih h.2⟩

section Lookup

variable {q : QueryGraph n} {u v : Fin n}

/-- The loop of `findSmallestEdge`. -/
theorem findSmallestEdge_loop (v : Fin n) (filter : QueryEdgeData → Bool) (l : List (DynamicEdge n QueryEdgeData))
    (start last : Option (DynamicEdge n QueryEdgeData) × ℤ) (ends : last = l.foldl (fun smallest edge =>
        if edge.target = v ∧ edge.data.weight < smallest.2 ∧ filter edge.data = true then (some edge, edge.data.weight)
        else smallest) start) :
      last.2 ≤ start.2 ∧ (∀ e ∈ l, e.target = v → filter e.data = true → last.2 ≤ e.data.weight) ∧
        (last = start ∨ ∃ e ∈ l, e.target = v ∧ filter e.data = true ∧ last = (some e, e.data.weight)) := by
  induction l using reverseRecOn generalizing last with
  | nil => exact ⟨ends ▸ le_rfl, by simp, .inl ends⟩
  | append_singleton l edge ih =>
    rw [foldl_concat] at ends
    obtain ⟨le, least, origin⟩ := ih _ rfl
    simp only [forall_mem_append, forall_mem_singleton]
    split at ends
    · rename_i hit
      subst ends
      have lower := hit.2.1.le
      exact ⟨lower.trans le, ⟨fun e he target passes => lower.trans (least e he target passes), fun _ _ => le_rfl⟩,
        .inr ⟨edge, by simp, hit.1, hit.2.2, rfl⟩⟩
    · rename_i miss
      subst ends
      refine ⟨le, ⟨least, fun target passes => ?_⟩, ?_⟩
      · by_contra lighter
        exact miss ⟨target, by omega, passes⟩
      · exact origin.imp_right fun ⟨e, he, found⟩ => ⟨e, mem_append_left _ he, found⟩

/-- `findSmallestEdge` finds the lightest edge, where there is one below `invalidEdgeWeight`. -/
theorem findSmallestEdge_spec (q : QueryGraph n) (u v : Fin n) (filter : QueryEdgeData → Bool) :
    (findSmallestEdge q u v filter = none ∧
      ∀ e ∈ q.edges u, e.target = v → filter e.data = true → invalidEdgeWeight ≤ e.data.weight) ∨
    ∃ e ∈ q.edges u, e.target = v ∧ filter e.data = true ∧ findSmallestEdge q u v filter = some e ∧
      ∀ e' ∈ q.edges u, e'.target = v → filter e'.data = true → e.data.weight ≤ e'.data.weight := by
  obtain ⟨-, least, origin⟩ := findSmallestEdge_loop v filter (q.edges u) (none, invalidEdgeWeight) _ rfl
  unfold findSmallestEdge
  rcases origin with same | ⟨e, he, target, passes, found⟩
  · rw [same] at least ⊢
    exact .inl ⟨rfl, least⟩
  · rw [found] at least ⊢
    exact .inr ⟨e, he, target, passes, rfl, least⟩

end Lookup

section Unpack

variable {g₀ : ContractorGraph n} {s : ContractorState n} {q : QueryGraph n} {rank : Fin n → ℕ} {now : ℕ} {x y m : Fin n}
  {c : ℤ} {e : DynamicEdge n QueryEdgeData} {edge : Fin n × Fin n} {calls : List (Call n)} {c' : ℤ}

theorem joins_iff (query : q.Of s.graph) : c ∈ Joins q (x, y) ↔ s.graph.Joined x y c :=
  or_congr query.listed query.listed

variable (s rank now) in
/-- The round in which a node stops changing. -/
def stage (u : Fin n) : ℕ := if s.isCore u then now else rank u

variable (g₀ s rank x y) in
/-- An edge between two nodes is an arc of the input graph, or two halves over a node contracted before both. -/
def Stands (data : QueryEdgeData) : Prop :=
  (data.shortcut = false → s.original g₀ x y data.weight) ∧
    (data.shortcut = true → ∃ m : Fin n, data.turnId = m ∧ s.isCore m = false ∧ (s.isCore x = false → rank m < rank x) ∧
      (s.isCore y = false → rank m < rank y) ∧ s.Halves m x y data.weight)

/-- The lookup returns an edge of the pair, as one of its ends lists it. -/
theorem smallerEdge_listed (found : smallerEdge q (x, y) = some e) :
    ∃ dir, e ∈ q.edges (orient dir x y).1 ∧ e.target = (orient dir x y).2 ∧ e.data.flag dir = true := by
  unfold smallerEdge at found
  rcases findSmallestEdge_spec q x y (·.forward) with ⟨none, -⟩ | ⟨e', he, target, flag, here, -⟩
  · simp only [none] at found
    rcases findSmallestEdge_spec q y x (·.backward) with ⟨none', -⟩ | ⟨e', he, target, flag, here, -⟩
    · rw [none'] at found
      cases found
    · rw [here, Option.some.injEq] at found
      subst found
      exact ⟨false, he, target, flag⟩
  · simp only [here, Option.some.injEq] at found
    subst found
    exact ⟨true, he, target, flag⟩

/-- The edge of the contracted graph that the lookup finds. -/
theorem smallerEdge_graph (query : q.Of s.graph) (found : smallerEdge q (x, y) = some e) :
    ∃ dir, ∃ e₀ ∈ s.graph.edges (orient dir x y).1, e₀.target = (orient dir x y).2 ∧ e₀.data.flag dir = true ∧
      e = ⟨e₀.target, toQueryEdgeData e₀.data⟩ := by
  obtain ⟨dir, listed, target, flag⟩ := smallerEdge_listed found
  obtain ⟨e₀, he₀, rfl⟩ := query.mem.1 listed
  refine ⟨dir, e₀, he₀, target, ?_, rfl⟩
  cases dir <;> exact flag

theorem joined_of_smallerEdge (query : q.Of s.graph) (found : smallerEdge q (x, y) = some e) :
    s.graph.Joined x y e.data.weight := by
  obtain ⟨dir, he, target, flag⟩ := smallerEdge_listed found
  apply (joins_iff query).1
  cases dir with
  | false => exact .inr ⟨e, he, target, rfl, flag⟩
  | true => exact .inl ⟨e, he, target, rfl, flag⟩

/-- The calls for a pair of nodes: its lightest edge, or the calls for the two halves of that edge. -/
inductive Unpacked (q : QueryGraph n) : Fin n × Fin n → List (Call n) → Prop
  | plain {edge : Fin n × Fin n} {e : DynamicEdge n QueryEdgeData} : smallerEdge q edge = some e → e.data.shortcut = false →
      Unpacked q edge [(edge, e)]
  | halves {edge : Fin n × Fin n} {e : DynamicEdge n QueryEdgeData} {m : Fin n} {first second : List (Call n)} :
      smallerEdge q edge = some e → e.data.shortcut = true → e.data.turnId = m →
      Unpacked q (edge.1, m) first → Unpacked q (m, edge.2) second → Unpacked q edge (first ++ second)

/-- Whatever lies below a pair on the stack is unpacked after it. -/
theorem Unpacked.run (unpacked : Unpacked q edge calls) :
    ∃ fuel, ∀ extra stack, unpackLoop q (extra + fuel) (edge :: stack) = (unpackLoop q extra stack).map (calls ++ ·) := by
  induction unpacked with
  | plain found marked =>
    refine ⟨1, fun extra stack => ?_⟩
    simp [unpackLoop, found, marked]
  | @halves edge e m first second found marked id _ _ ih₁ ih₂ =>
    obtain ⟨fuel₁, run₁⟩ := ih₁
    obtain ⟨fuel₂, run₂⟩ := ih₂
    refine ⟨fuel₂ + fuel₁ + 1, fun extra stack => ?_⟩
    have lt : e.data.turnId < n := by
      rw [id]
      exact m.isLt
    have middle : (⟨e.data.turnId, lt⟩ : Fin n) = m := Fin.ext id
    rw [← add_assoc, ← add_assoc]
    simp only [unpackLoop, found, marked, lt, middle]
    rw [run₁, run₂]
    simp [comp_def]

/-- What the calls for a pair of nodes amount to. -/
structure Unpacks (q : QueryGraph n) (A : Arcs (Fin n)) (edge : Fin n × Fin n) (c : ℤ) (calls : List (Call n)) : Prop where
  contiguous : Contiguous edge.1 (calls.map (·.1)) edge.2
  found : ∀ call ∈ calls, smallerEdge q call.1 = some call.2
  original : ∀ call ∈ calls, call.2.data.shortcut = false ∧ A call.1.1 call.1.2 call.2.data.weight
  weight : (calls.map (·.2.data.weight)).sum = c

theorem Unpacks.append {A : Arcs (Fin n)} {d : ℤ} {first second : List (Call n)} (h : Unpacks q A (x, m) c first)
    (h' : Unpacks q A (m, y) d second) : Unpacks q A (x, y) (c + d) (first ++ second) where
  contiguous := by
    rw [map_append]
    exact h.contiguous.append h'.contiguous
  found := forall_mem_append.2 ⟨h.found, h'.found⟩
  original := forall_mem_append.2 ⟨h.original, h'.original⟩
  weight := by rw [map_append, sum_append, h.weight, h'.weight]

section Layers

variable (inv : Contracted g₀ s) (layered : Layered g₀ s rank now)

include layered

theorem stage_lt (frozen : s.isCore m = false)
    (later : s.isCore x = false → rank m < rank x) : stage s rank now m < stage s rank now x := by
  unfold stage
  rw [frozen]
  cases core : s.isCore x with
  | true => simpa using layered.ranked m frozen
  | false => simpa using later core

include inv

/-- Where the first node lists the second one, it lists the lightest edge. -/
theorem forward_first (here : s.graph.Listed true x y c) (there : s.graph.Listed false y x c') : ∃ c'' ≤ c', s.graph.Listed true x y c'' := by
  by_cases same : x = y
  · subst same
    exact layered.loops false x c' there
  · cases core : s.isCore y with
    | true => exact inv.mirrored false y x c' core there
    | false =>
      obtain ⟨e, he, target, -, -⟩ := here
      obtain ⟨e', he', target', -, -⟩ := there
      cases core' : s.isCore x with
      | true =>
        have := inv.targets x core' e he
        rw [target, core] at this
        cases this
      | false => exact absurd target' (layered.oneSided x y same core' core e he target e' he')

/-- Only the node contracted first lists the other one. -/
theorem not_listed (frozen : s.isCore m = false)
    (later : s.isCore x = false → rank m < rank x) {dir : Bool} (here : s.graph.Listed dir m x c) {dir' : Bool} :
    ¬ s.graph.Listed dir' x m c' := by
  rintro ⟨e, he, target, -, -⟩
  obtain ⟨e', he', target', -, -⟩ := here
  cases core : s.isCore x with
  | true =>
    have := inv.targets x core e he
    rw [target, frozen] at this
    cases this
  | false =>
    have below := later core
    have other : m ≠ x := by
      rintro rfl
      omega
    exact layered.oneSided m x other frozen core e' he' target' e he target

variable (query : q.Of s.graph)

include query

/-- What the lightest edge between two nodes is. -/
theorem smallerEdge_spec (joined : s.graph.Joined x y c) :
    ∃ e, smallerEdge q (x, y) = some e ∧ IsLeast (Joins q (x, y)) e.data.weight ∧ Stands g₀ s rank x y e.data := by
  -- what an edge listed in direction `dir` at `u` stands for
  have meaning : ∀ dir u w, ∀ e ∈ q.edges u, e.target = w → e.data.flag dir = true → orient dir u w = (x, y) →
      Stands g₀ s rank x y e.data := by
    intro dir u w e he target flag ends
    obtain ⟨e₀, he₀, rfl⟩ := query.mem.1 he
    have flag₀ : e₀.data.flag dir = true := by cases dir <;> exact flag
    obtain rfl : e₀.target = w := target
    refine ⟨fun isPlain => ?_, fun isShortcut => ?_⟩
    · have arc := layered.plain dir u e₀ he₀ isPlain flag₀
      rw [ends] at arc
      exact arc
    · obtain ⟨m, id, frozen, below, below', halves⟩ := layered.shortcut dir u e₀ he₀ isShortcut flag₀
      rw [ends] at halves
      refine ⟨m, id, frozen, ?_, ?_, halves⟩
      · cases dir <;> cases ends <;> assumption
      · cases dir <;> cases ends <;> assumption
  have light : ∀ u, ∀ e ∈ q.edges u, ¬ invalidEdgeWeight ≤ e.data.weight := by
    intro u e he
    obtain ⟨e₀, he₀, rfl⟩ := query.mem.1 he
    exact not_le.2 (layered.light u e₀ he₀)
  unfold smallerEdge
  rcases findSmallestEdge_spec q x y (·.forward) with ⟨none, empty⟩ | ⟨e, he, target, flag, found, least⟩
  · have away : ∀ c, ¬ q.Listed true x y c := by
      rintro c ⟨e, he, target, -, flag⟩
      exact light x e he (empty e he target flag)
    rcases findSmallestEdge_spec q y x (·.backward) with ⟨-, empty'⟩ | ⟨e, he, target, flag, found, least⟩
    · rcases (joins_iff query).2 joined with listed | ⟨e, he, target, -, flag⟩
      · exact absurd listed (away c)
      · exact absurd (empty' e he target flag) (light y e he)
    · simp only [none, found]
      refine ⟨e, rfl, ⟨.inr ⟨e, he, target, rfl, flag⟩, ?_⟩, meaning false y x e he target flag rfl⟩
      rintro c' (listed | ⟨e', he', target', rfl, flag'⟩)
      · exact absurd listed (away c')
      · exact least e' he' target' flag'
  · simp only [found]
    refine ⟨e, rfl, ⟨.inl ⟨e, he, target, rfl, flag⟩, ?_⟩, meaning true x y e he target flag rfl⟩
    have low : ∀ c', q.Listed true x y c' → e.data.weight ≤ c' := by
      rintro c' ⟨e', he', target', rfl, flag'⟩
      exact least e' he' target' flag'
    rintro c' (listed | listed)
    · exact low c' listed
    · obtain ⟨c'', le, listed'⟩ :=
        forward_first inv layered (query.listed.1 ⟨e, he, target, rfl, flag⟩) (query.listed.1 listed)
      exact (low c'' (query.listed.2 listed')).trans le

theorem smallerEdge_stands (found : smallerEdge q edge = some e) :
    IsLeast (Joins q edge) e.data.weight ∧ Stands g₀ s rank edge.1 edge.2 e.data := by
  obtain ⟨e', found', spec⟩ := smallerEdge_spec inv layered query (joined_of_smallerEdge query found)
  cases found.symm.trans found'
  exact spec

/-- The halves of a lightest edge are looked up at its middle node, which alone lists them. -/
theorem halves_found (frozen : s.isCore m = false) (later : s.isCore x = false → rank m < rank x) (later' : s.isCore y = false → rank m < rank y)
    (halves : s.Halves m x y c) (least : ∀ c', s.graph.Joined x y c' → c ≤ c') :
    ∃ e₁ e₂, smallerEdge q (x, m) = some e₁ ∧ smallerEdge q (m, y) = some e₂ ∧ c = e₁.data.weight + e₂.data.weight ∧
      (e₁ ∈ q.edges m ∧ e₁.target = x ∧ e₁.data.flag false = true) ∧ (e₂ ∈ q.edges m ∧ e₂.target = y ∧ e₂.data.flag true = true) := by
  have ⟨d₁, d₂, in₁, in₂, _, _⟩ := halves
  obtain ⟨e₁, found₁, least₁, -, -⟩ := smallerEdge_spec inv layered query (.inr in₁ : s.graph.Joined x m d₁)
  obtain ⟨e₂, found₂, least₂, -, -⟩ := smallerEdge_spec inv layered query (.inl in₂ : s.graph.Joined m y d₂)
  have listed₁ : e₁ ∈ q.edges m ∧ e₁.target = x ∧ e₁.data.flag false = true := by
    obtain ⟨dir, here⟩ := smallerEdge_listed found₁
    cases dir with
    | false => exact here
    | true => exact absurd (query.listed.1 ⟨e₁, here.1, here.2.1, rfl, here.2.2⟩) (not_listed inv layered frozen later in₁)
  have listed₂ : e₂ ∈ q.edges m ∧ e₂.target = y ∧ e₂.data.flag true = true := by
    obtain ⟨dir, here⟩ := smallerEdge_listed found₂
    cases dir with
    | false => exact absurd (query.listed.1 ⟨e₂, here.1, here.2.1, rfl, here.2.2⟩) (not_listed inv layered frozen later' in₂)
    | true => exact here
  refine ⟨e₁, e₂, found₁, found₂, ?_, listed₁, listed₂⟩
  apply halves_least halves least
  · refine ⟨query.listed.1 ⟨e₁, listed₁.1, listed₁.2.1, rfl, listed₁.2.2⟩, fun c' listed => ?_⟩
    exact least₁.2 ((joins_iff query).2 (.inr listed))
  · refine ⟨query.listed.1 ⟨e₂, listed₂.1, listed₂.2.1, rfl, listed₂.2.2⟩, fun c' listed => ?_⟩
    exact least₂.2 ((joins_iff query).2 (.inl listed))

/-- Every pair of joined nodes is unpacked, by induction on the stage of the earlier end. -/
theorem exists_unpacked (k : ℕ) :
    ∀ x y c, min (stage s rank now x) (stage s rank now y) < k → s.graph.Joined x y c → ∃ calls, Unpacked q (x, y) calls := by
  induction k with
  | zero =>
    intro x y c below
    omega
  | succ k ih =>
    intro x y c below joined
    obtain ⟨e, found, -, -, isShortcut⟩ := smallerEdge_spec inv layered query joined
    cases marked : e.data.shortcut with
    | false => exact ⟨_, .plain found marked⟩
    | true =>
      obtain ⟨m, id, frozen, later, later', d₁, d₂, in₁, in₂, -⟩ := isShortcut marked
      have before := stage_lt layered frozen later
      have before' := stage_lt layered frozen later'
      obtain ⟨calls₁, unpacked₁⟩ := ih x m d₁ (by omega) (.inr in₁)
      obtain ⟨calls₂, unpacked₂⟩ := ih m y d₂ (by omega) (.inl in₂)
      exact ⟨_, .halves found marked id unpacked₁ unpacked₂⟩

/-- The calls for a pair lead along arcs of the input graph that weigh what its lightest edge weighs. -/
theorem Unpacked.unpacks (unpacked : Unpacked q edge calls) :
    ∀ e, smallerEdge q edge = some e → Unpacks q (s.original g₀) edge e.data.weight calls := by
  induction unpacked with
  | @plain edge e found marked =>
    intro e' found'
    cases found.symm.trans found'
    obtain ⟨-, isPlain, -⟩ := smallerEdge_stands inv layered query found
    refine ⟨⟨rfl, rfl⟩, fun call mem => ?_, fun call mem => ?_, by simp⟩
    · obtain rfl := mem_singleton.1 mem
      exact found
    · obtain rfl := mem_singleton.1 mem
      exact ⟨marked, isPlain marked⟩
  | @halves edge e m first second found marked id _ _ ih₁ ih₂ =>
    intro e' found'
    cases found.symm.trans found'
    obtain ⟨least, -, isShortcut⟩ := smallerEdge_stands inv layered query found
    obtain ⟨m', id', frozen, later, later', halves⟩ := isShortcut marked
    obtain rfl : m = m' := Fin.ext (id.symm.trans id')
    obtain ⟨e₁, e₂, found₁, found₂, sum, -, -⟩ := halves_found inv layered query frozen later later' halves
      fun c' joined => least.2 ((joins_iff query).2 joined)
    have unpacks₁ := ih₁ e₁ found₁
    have unpacks₂ := ih₂ e₂ found₂
    rw [sum]
    exact unpacks₁.append unpacks₂

/-- **Unpacking one edge.** -/
theorem unpack_edge (joined : s.graph.Joined x y c) :
    ∃ calls least, Unpacked q (x, y) calls ∧ IsLeast (Joins q (x, y)) least ∧ Unpacks q (s.original g₀) (x, y) least calls := by
  obtain ⟨calls, unpacked⟩ := exists_unpacked inv layered query _ x y c (Nat.lt_succ_self _) joined
  obtain ⟨e, found, least, -, -⟩ := smallerEdge_spec inv layered query joined
  exact ⟨calls, e.data.weight, unpacked, least, unpacked.unpacks inv layered query e found⟩

/-- Unpacking edge after edge of a packed path. -/
theorem unpack_pairs (rest : List (Fin n)) :
    ∀ first, (∀ pair ∈ (first :: rest).zip rest, (Joins q pair).Nonempty) →
      ∃ fuel calls leasts, Forall₂ (fun pair c => IsLeast (Joins q pair) c) ((first :: rest).zip rest) leasts ∧
        Unpacks q (s.original g₀) (first, (first :: rest).getLast (by simp)) leasts.sum calls ∧
        ∀ extra, unpackPath q (extra + fuel) (first :: rest) = some calls := by
  induction rest with
  | nil => exact fun first _ => ⟨0, [], [], .nil, ⟨rfl, by simp, by simp, rfl⟩, fun extra => by simp [unpackPath, unpackLoop]⟩
  | cons second rest ih =>
    intro first joined
    obtain ⟨c, joins⟩ := joined (first, second) (by simp)
    obtain ⟨calls₁, least, unpacked, isLeast, unpacks₁⟩ := unpack_edge inv layered query ((joins_iff query).1 joins)
    obtain ⟨fuel₁, run₁⟩ := unpacked.run
    obtain ⟨fuel₂, calls₂, leasts, areLeast, unpacks₂, run₂⟩ :=
      ih second fun pair hpair => joined pair (mem_cons_of_mem _ hpair)
    refine ⟨fuel₂ + fuel₁, calls₁ ++ calls₂, least :: leasts, .cons isLeast areLeast, ?_, ?_⟩
    · exact unpacks₁.append unpacks₂
    · intro extra
      have rest₂ := run₂ extra
      unfold unpackPath at rest₂ ⊢
      simp only [tail_cons, zip_cons_cons] at rest₂ ⊢
      rw [← add_assoc, run₁, rest₂, Option.map_some]

end Layers

end Unpack

end Ch

section Exact

variable {g₀ : ContractorGraph n} {isCore : Fin n → Bool} {s : ContractorState n} {q : QueryGraph n}

/-- **Unpacking is exact**: for the query graph of any state of `contractGraph` and any packed path, `unpackPath`
terminates, and its calls lead from the first node to the last over arcs of the input graph that weigh together what
the lightest edges of the packed path weigh. -/
theorem unpackPath_exact (mirrored : Mirrored g₀)
    (within : ∀ u, ∀ e ∈ g₀.edges u, isCore u = true ∧ isCore e.target = true)
    (plain : ∀ u, ∀ e ∈ g₀.edges u, e.data.shortcut = false ∧ e.data.weight < invalidEdgeWeight)
    (run : Searched g₀ isCore s) (query : q.Of s.graph) (first : Fin n) (rest : List (Fin n))
    (joined : ∀ pair ∈ (first :: rest).zip rest, (Ch.Joins q pair).Nonempty) :
    ∃ fuel calls leasts, (∀ extra, Ch.unpackPath q (extra + fuel) (first :: rest) = some calls) ∧
      Ch.Contiguous first (calls.map (·.1)) ((first :: rest).getLast (by simp)) ∧
      (∀ call ∈ calls, call.2.data.shortcut = false ∧ s.original g₀ call.1.1 call.1.2 call.2.data.weight) ∧
      Forall₂ (fun pair c => IsLeast (Ch.Joins q pair) c) ((first :: rest).zip rest) leasts ∧
      (calls.map (·.2.data.weight)).sum = leasts.sum := by
  obtain ⟨inv, rank, now, layered⟩ := run.layered mirrored within plain
  obtain ⟨fuel, calls, leasts, areLeast, unpacks, run⟩ := Ch.unpack_pairs inv layered query rest first joined
  exact ⟨fuel, calls, leasts, run, unpacks.contiguous, unpacks.original, areLeast, unpacks.weight⟩

theorem lineDone_searched : Searched lineGraph (fun _ => true) lineDone :=
  .tail (.tail (.single (.round _ lineMiddle_valid rfl)) (.round _ lineRound_valid_first rfl))
    (.round _ lineRound_valid_last rfl)

theorem unpackPath_exact_line : ∃ fuel calls leasts, (∀ extra, Ch.unpackPath lineQuery (extra + fuel) [0, 2] = some calls) ∧
    Ch.Contiguous 0 (calls.map (·.1)) 2 ∧
    (∀ call ∈ calls, call.2.data.shortcut = false ∧ lineDone.original lineGraph call.1.1 call.1.2 call.2.data.weight) ∧
    Forall₂ (fun pair c => IsLeast (Ch.Joins lineQuery pair) c) [(0, 2)] leasts ∧
    (calls.map (·.2.data.weight)).sum = leasts.sum :=
  unpackPath_exact ⟨by decide, by decide, by decide⟩ (by decide) (by decide) lineDone_searched (fun _ => .refl _) 0 [2]
    (by
      intro pair hpair
      obtain rfl : pair = (0, 2) := mem_singleton.1 hpair
      refine ⟨5, .inl ?_⟩
      unfold QueryGraph.Listed
      decide)

end Exact

end Osrm
