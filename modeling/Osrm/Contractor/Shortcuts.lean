import Osrm.Contractor.Distances

/-!
# Shortcuts and their halves

A shortcut records the node it bridges. Its two halves are listed at that node, where
they are frozen, for the node was contracted before either end of the shortcut. Parallel
edges make this subtle: a shortcut is built from one pair of edges, but what is listed at
the middle node later on is the lightest pair. The local search is deterministic, and with
a smaller weight limit it only finds fewer witnesses (`searchWitness_mono`); so whenever
some pair over a node becomes a shortcut, every lighter pair with the same ends does too,
and the lightest edge between the ends weighs as much as the lightest pair of halves.

`Layered` is the invariant. It orders the contracted nodes by the round of their
contraction (`rank`).
-/

namespace Osrm

open Lib ContractorGraph

variable {n : ℕ}

/-- An arc from `x` to `y`, listed at either end. -/
def ContractorGraph.Joined (g : ContractorGraph n) (x y : Fin n) (c : ℤ) : Prop :=
  g.Listed true x y c ∨ g.Listed false y x c

namespace ContractorState

/-- A step of `contractGraph` in which the local search itself looks for the witnesses. -/
inductive SearchedStep : ContractorState n → ContractorState n → Prop
  | round {s : ContractorState n} (r : Round n) : r.Valid s → r.witness = searchWitness s.graph →
      SearchedStep s (s.contract r)
  | renumber {s : ContractorState n} (oldToNew : Equiv.Perm (Fin n)) : SearchedStep s (s.renumber oldToNew)

/-- The states of `contractGraph` with its local search. -/
def Searched (g : ContractorGraph n) (isCore : Fin n → Bool) : ContractorState n → Prop :=
  Relation.ReflTransGen SearchedStep ⟨g, isCore, Equiv.refl _⟩

/-- `c` is the weight of two halves over `m`, and pairs of halves that are no heavier are matched by an arc. -/
def Halves (s : ContractorState n) (m x y : Fin n) (c : ℤ) : Prop :=
  ∃ c₁ c₂, s.graph.Listed false m x c₁ ∧ s.graph.Listed true m y c₂ ∧ c = c₁ + c₂ ∧
    ∀ c₁' c₂', s.graph.Listed false m x c₁' → s.graph.Listed true m y c₂' → c₁' ≤ c₁ → c₂' ≤ c₂ →
      ∃ c' ≤ c₁' + c₂', s.graph.Joined x y c'

/-- The order in which the nodes were contracted, and what it says about the edges. -/
structure Layered (g₀ : ContractorGraph n) (s : ContractorState n) (rank : Fin n → ℕ) (now : ℕ) : Prop where
  ranked : ∀ u, s.isCore u = false → rank u < now
  /-- Of two contracted nodes only one lists the other. -/
  oneSided : ∀ u w, u ≠ w → s.isCore u = false → s.isCore w = false → ∀ e ∈ s.graph.edges u, e.target = w →
    ∀ e' ∈ s.graph.edges w, e'.target ≠ u
  loops : ∀ dir u c, s.graph.Listed dir u u c → ∃ c' ≤ c, s.graph.Listed (!dir) u u c'
  light : ∀ u, ∀ e ∈ s.graph.edges u, e.data.weight < invalidEdgeWeight
  plain : ∀ dir u, ∀ e ∈ s.graph.edges u, e.data.shortcut = false → e.data.flag dir = true →
    s.original g₀ (orient dir u e.target).1 (orient dir u e.target).2 e.data.weight
  kept : ∀ u, ∀ e ∈ s.graph.edges u, e.data.shortcut = false → ⟨s.newToOld e.target, e.data⟩ ∈ g₀.edges (s.newToOld u)
  shortcut : ∀ dir u, ∀ e ∈ s.graph.edges u, e.data.shortcut = true → e.data.flag dir = true →
    ∃ m : Fin n, e.data.id = m ∧ s.isCore m = false ∧ (s.isCore u = false → rank m < rank u) ∧
      (s.isCore e.target = false → rank m < rank e.target) ∧
      s.Halves m (orient dir u e.target).1 (orient dir u e.target).2 e.data.weight

section Round

variable {g₀ : ContractorGraph n} {s : ContractorState n} {r : Round n} {x y m : Fin n} {c : ℤ}

/-- The lightest edge over a middle node weighs as much as the lightest halves. -/
theorem halves_least (halves : s.Halves m x y c) (least : ∀ c', s.graph.Joined x y c' → c ≤ c') {c₁ c₂ : ℤ}
    (first : IsLeast {c | s.graph.Listed false m x c} c₁) (second : IsLeast {c | s.graph.Listed true m y c} c₂) :
    c = c₁ + c₂ := by
  obtain ⟨d₁, d₂, in₁, in₂, rfl, lighter⟩ := halves
  have le₁ := first.2 in₁
  have le₂ := second.2 in₂
  obtain ⟨c', le, joined⟩ := lighter c₁ c₂ first.1 second.1 le₁ le₂
  have := least c' joined
  omega

section Due

variable {weight : Fin n → ℤ} (due : Due g₀ s r weight)

include due

/-- An arc survives a round at one of its ends, or gets lighter. -/
theorem Due.joined (joined : s.graph.Joined x y c) : ∃ c' ≤ c, (s.contract r).graph.Joined x y c' := by
  -- the arc as one of its ends `u` lists it
  have survive : ∀ dir u w, s.graph.Listed dir u w c →
      ∃ c' ≤ c, (s.contract r).graph.Listed dir u w c' ∨ (s.contract r).graph.Listed (!dir) w u c' := by
    intro dir u w listed
    cases core : (s.contract r).isCore u with
    | false => exact ⟨c, le_rfl, .inl ((due.frozen_listed core).2 listed)⟩
    | true =>
      by_cases hw : w ∈ r.nodes
      · obtain ⟨c', le, back⟩ := due.inv.mirrored dir u w c (contract_core.1 core).1 listed
        exact ⟨c', le, .inr ((due.frozen_listed (contract_node hw)).2 back)⟩
      · obtain ⟨c', le, kept⟩ := due.kept_listed core hw listed
        exact ⟨c', le, .inl kept⟩
  rcases joined with listed | listed
  · exact survive true x y listed
  · obtain ⟨c', le, found⟩ := survive false y x listed
    exact ⟨c', le, found.symm⟩

/-- Halves over a contracted node stay, since they are frozen there. -/
theorem Due.halves (frozen : s.isCore m = false) (halves : s.Halves m x y c) : (s.contract r).Halves m x y c := by
  have same : ∀ {dir w c}, (s.contract r).graph.Listed dir m w c ↔ s.graph.Listed dir m w c :=
    due.frozen_listed (contract_old frozen)
  obtain ⟨c₁, c₂, first, second, sum, lighter⟩ := halves
  refine ⟨c₁, c₂, same.2 first, same.2 second, sum, ?_⟩
  intro c₁' c₂' first' second' le₁ le₂
  obtain ⟨c', le, joined⟩ := lighter c₁' c₂' (same.1 first') (same.1 second') le₁ le₂
  obtain ⟨c'', le', joined'⟩ := due.joined joined
  exact ⟨c'', le'.trans le, joined'⟩

/-- A new shortcut has its halves at its middle node. -/
theorem Due.halves_bridged (searched : r.witness = searchWitness s.graph) (hm : m ∈ r.nodes)
    (bridged : Bridged (r.witness m) s.graph m (weight m) x y c) : (s.contract r).Halves m x y c := by
  have same : ∀ {dir w c}, (s.contract r).graph.Listed dir m w c ↔ s.graph.Listed dir m w c :=
    due.frozen_listed (contract_node hm)
  obtain ⟨i, hi, o, ho, rfl, rfl, rfl, cond⟩ := bridged
  have sum := due.viaWeight_eq hm hi ho
  obtain ⟨hi', iOther, iFlag⟩ := mem_inEdges.1 hi
  obtain ⟨ho', oOther, oFlag⟩ := mem_outEdges.1 ho
  refine ⟨i.data.weight, o.data.weight, same.2 ⟨i, hi', rfl, rfl, iFlag⟩, same.2 ⟨o, ho', rfl, rfl, oFlag⟩, sum, ?_⟩
  intro c₁' c₂' first second le₁ le₂
  obtain ⟨i', hi₁, iTarget, rfl, iFlag'⟩ := same.1 first
  obtain ⟨o', ho₁, oTarget, rfl, oFlag'⟩ := same.1 second
  have hi₂ := mem_inEdges.2 ⟨hi₁, iTarget ▸ iOther, iFlag'⟩
  have ho₂ := mem_outEdges.2 ⟨ho₁, oTarget ▸ oOther, oFlag'⟩
  have sum' := due.viaWeight_eq hm hi₂ ho₂
  -- the lighter pair meets the same node weight, or a key that is no smaller
  have bridged' : Bridged (r.witness m) s.graph m (weight m) i.target o.target (i'.data.weight + o'.data.weight) := by
    refine ⟨i', hi₂, o', ho₂, iTarget, oTarget, sum', ?_⟩
    rcases cond with ⟨back, below⟩ | below
    · exact .inl ⟨back, by omega⟩
    · have mono := searchWitness_mono due.inv.positive (due.valid.sums m hm) hi₂ hi iTarget le₁ ho
      rw [searched] at below ⊢
      exact .inr (by omega)
  obtain ⟨c', le, listed⟩ := due.bridged_listed hm bridged' true
  exact ⟨c', le, .inl listed⟩

end Due

/-- The step lemma for a round: its nodes get the next rank. -/
theorem Layered.contract (inv : Contracted g₀ s) (valid : r.Valid s) (searched : r.witness = searchWitness s.graph)
    {rank : Fin n → ℕ} {now : ℕ} (layered : Layered g₀ s rank now) :
    Layered g₀ (s.contract r) (fun u => if u ∈ r.nodes then now else rank u) (now + 1) := by
  obtain ⟨weight, due⟩ := inv.due valid
  have frozen : ∀ {u : Fin n}, (s.contract r).isCore u = false → u ∈ r.nodes ∨ u ∉ r.nodes ∧ s.isCore u = false := by
    intro u h
    by_cases hu : u ∈ r.nodes
    · exact .inl hu
    · exact .inr ⟨hu, by simpa [ContractorState.contract, hu] using h⟩
  have old : ∀ {m : Fin n}, s.isCore m = false → m ∉ r.nodes := by
    intro m h hm
    rw [valid.core m hm] at h
    cases h
  have unmarked : ∀ {u e}, e ∈ (s.contract r).graph.edges u → e.data.shortcut = false → e ∈ s.graph.edges u := by
    intro u e he isPlain
    rcases contract_edge he with old | ⟨x, hx, rfl, rfl⟩
    · exact (due.mem_deleted.1 old).1
    · rw [(due.shortcuts.marked x hx).1] at isPlain
      cases isPlain
  refine ⟨?_, ?_, ?_, ?_, ?_, ?_, ?_⟩
  · intro u h
    rcases frozen h with hu | ⟨hu, h⟩
    · simp [hu]
    · have := layered.ranked u h
      simp only [hu, if_false]
      omega
  · intro u w other hu hw e he target e' he' back
    rw [due.frozen hu] at he
    rw [due.frozen hw] at he'
    -- what was in the core before the round lists only the core
    have core : ∀ {a b : Fin n} {x : DynamicEdge n ContractorEdgeData}, a ∈ r.nodes → a ≠ b → x ∈ s.graph.edges a →
        x.target = b → (s.contract r).isCore b = false → False := by
      rintro a b x ha ab hx rfl hb
      rw [due.neighbour_core ha (mem_neighbours.2 ⟨⟨x, hx, rfl⟩, ab.symm⟩)] at hb
      cases hb
    rcases frozen hu with mem | ⟨-, hu'⟩
    · exact core mem other he target hw
    · rcases frozen hw with mem | ⟨-, hw'⟩
      · exact core mem other.symm he' back hu
      · exact layered.oneSided u w other hu' hw' e he target e' he' back
  · intro dir u c listed
    cases h : (s.contract r).isCore u with
    | true => exact (inv.contract valid).mirrored dir u u c h listed
    | false =>
      obtain ⟨c', le, back⟩ := layered.loops dir u c ((due.frozen_listed h).1 listed)
      exact ⟨c', le, (due.frozen_listed h).2 back⟩
  · intro u e he
    rcases contract_edge he with old | ⟨x, hx, rfl, rfl⟩
    · exact layered.light u e (due.mem_deleted.1 old).1
    · exact (due.inserted hx).2.2.2
  · intro dir u e he isPlain flag
    exact layered.plain dir u e (unmarked he isPlain) isPlain flag
  · intro u e he isPlain
    exact layered.kept u e (unmarked he isPlain) isPlain
  · intro dir u e he isShortcut flag
    rcases contract_edge he with listed | ⟨x, hx, rfl, rfl⟩
    · obtain ⟨m, id, hm, below, below', halves⟩ := layered.shortcut dir u e (due.mem_deleted.1 listed).1 isShortcut flag
      have early := layered.ranked m hm
      have later : ∀ v : Fin n, (s.isCore v = false → rank m < rank v) → (s.contract r).isCore v = false →
          rank m < if v ∈ r.nodes then now else rank v := by
        intro v h hv
        rcases frozen hv with mem | ⟨mem, hv⟩
        · simpa [mem] using early
        · simpa [mem] using h hv
      refine ⟨m, id, contract_old hm, ?_, ?_, due.halves hm halves⟩
      · simpa [old hm] using later u below
      · simpa [old hm] using later e.target below'
    · obtain ⟨m, hm, id, bridged⟩ := due.shortcuts.bridged hx flag
      -- both ends of a new shortcut remain
      obtain ⟨source, target, -⟩ := due.inserted hx
      refine ⟨m, id, contract_node hm, ?_, ?_, due.halves_bridged searched hm bridged⟩
      · intro h
        rw [source] at h
        cases h
      · intro h
        rw [target] at h
        cases h

end Round

section Run

variable {g₀ : ContractorGraph n} {isCore : Fin n → Bool} {s s' : ContractorState n} {rank : Fin n → ℕ} {now : ℕ}
  (f : Equiv.Perm (Fin n))

theorem joined_renumber {x y : Fin n} {c : ℤ} :
    (s.renumber f).graph.Joined (f x) (f y) c ↔ s.graph.Joined x y c :=
  or_congr listed_renumberGraph listed_renumberGraph

theorem halves_renumber {m x y : Fin n} {c : ℤ} (halves : s.Halves m x y c) :
    (s.renumber f).Halves (f m) (f x) (f y) c := by
  obtain ⟨c₁, c₂, first, second, sum, lighter⟩ := halves
  refine ⟨c₁, c₂, listed_renumberGraph.2 first, listed_renumberGraph.2 second, sum, ?_⟩
  intro c₁' c₂' first' second' le₁ le₂
  obtain ⟨c', le, joined⟩ :=
    lighter c₁' c₂' (listed_renumberGraph.1 first') (listed_renumberGraph.1 second') le₁ le₂
  exact ⟨c', le, (joined_renumber f).2 joined⟩

/-- The step lemma for a renumbering: ranks move with their nodes. -/
theorem Layered.renumber (layered : Layered g₀ s rank now) (f : Equiv.Perm (Fin n)) :
    Layered g₀ (s.renumber f) (fun v => rank (f.symm v)) now := by
  have listed : ∀ {dir u w c}, (s.renumber f).graph.Listed dir (f u) (f w) c ↔ s.graph.Listed dir u w c :=
    listed_renumberGraph
  have number : ∀ u, (s.renumber f).newToOld (f u) = s.newToOld u := by simp [ContractorState.renumber]
  refine ⟨?_, ?_, ?_, ?_, ?_, ?_, ?_⟩
  · intro u h
    exact layered.ranked (f.symm u) h
  · intro u' w' other hu hw e he target e' he' back
    obtain ⟨u, e₀, he₀, rfl, rfl⟩ := edge_renumber he
    obtain ⟨w, e₁, he₁, rfl, rfl⟩ := edge_renumber he'
    rw [renumber_core] at hu hw
    exact layered.oneSided u w (fun same => other (by rw [same])) hu hw e₀ he₀ (f.injective target) e₁ he₁
      (f.injective back)
  · intro dir u' c loop
    obtain ⟨u, rfl⟩ := f.surjective u'
    obtain ⟨c', le, back⟩ := layered.loops dir u c (listed.1 loop)
    exact ⟨c', le, listed.2 back⟩
  · intro u' e he
    obtain ⟨u, e₀, he₀, rfl, rfl⟩ := edge_renumber he
    simpa using layered.light u e₀ he₀
  · intro dir u' e he isPlain flag
    obtain ⟨u, e₀, he₀, rfl, rfl⟩ := edge_renumber he
    have arc := layered.plain dir u e₀ he₀ (by simpa using isPlain) (by simpa using flag)
    simp only [renumberEdge_weight]
    cases dir <;> exact (renumber_original f).2 arc
  · intro u' e he isPlain
    obtain ⟨u, e₀, he₀, rfl, rfl⟩ := edge_renumber he
    have isPlain : e₀.data.shortcut = false := by simpa using isPlain
    have listed := layered.kept u e₀ he₀ isPlain
    simpa [renumberEdge, isPlain, number] using listed
  · intro dir u' e he isShortcut flag
    obtain ⟨u, e₀, he₀, rfl, rfl⟩ := edge_renumber he
    have marked : e₀.data.shortcut = true := by simpa using isShortcut
    obtain ⟨m, id, hm, below, below', halves⟩ := layered.shortcut dir u e₀ he₀ marked (by simpa using flag)
    refine ⟨f m, ?_, (renumber_core f).trans hm, ?_, ?_, ?_⟩
    · simp [renumberEdge, marked, id]
    · rw [renumber_core]
      simpa using below
    · simpa [renumberEdge, ContractorState.renumber] using below'
    · have moved := halves_renumber f halves
      simp only [renumberEdge_weight]
      cases dir <;> exact moved

section

variable (mirrored : Mirrored g₀) (within : ∀ u, ∀ e ∈ g₀.edges u, isCore u = true ∧ isCore e.target = true)
  (plain : ∀ u, ∀ e ∈ g₀.edges u, e.data.shortcut = false ∧ e.data.weight < invalidEdgeWeight)

include mirrored within plain

/-- The input graph: nothing is contracted, and no edge is a shortcut. -/
theorem Layered.initial :
    Layered g₀ ⟨g₀, isCore, Equiv.refl _⟩ (fun _ => 0) 1 where
  ranked _ _ := Nat.zero_lt_one
  oneSided u w _ hu _ e he _ := by
    have core := (within u e he).1
    simp only at hu
    rw [hu] at core
    cases core
  loops dir u c listed := ⟨c, le_rfl, mirrored.listed listed⟩
  light u e he := (plain u e he).2
  plain dir u e he _ flag := by
    cases dir
    · exact mirrored.mirrored false u e he flag
    · exact ⟨e, he, rfl, rfl, flag⟩
  kept u e he _ := he
  shortcut dir u e he isShortcut _ := by
    rw [(plain u e he).1] at isShortcut
    cases isShortcut

/-- The run lemma: in every state the contracted nodes are layered. -/
theorem Searched.layered
    (run : Searched g₀ isCore s) : Contracted g₀ s ∧ ∃ rank now, Layered g₀ s rank now := by
  induction run with
  | refl => exact ⟨.initial mirrored within, _, _, .initial mirrored within plain⟩
  | tail _ step ih =>
    obtain ⟨inv, rank, now, layered⟩ := ih
    cases step with
    | round r valid searched => exact ⟨inv.contract valid, _, _, layered.contract inv valid searched⟩
    | renumber f => exact ⟨inv.renumber f, _, _, layered.renumber f⟩

end

end Run

end ContractorState

end Osrm
