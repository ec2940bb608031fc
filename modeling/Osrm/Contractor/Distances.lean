import Osrm.Lib.Elimination
import Osrm.Contractor.Search
import Mathlib.Data.Fin.VecNotation

/-!
# Contraction keeps distances

Each round eliminates an independent set of nodes in the sense of `Lib.Elimination`:
`IsNodeIndependent` keeps two accepted nodes from being adjacent or having a common
neighbour, and a pair of edges is left without a shortcut only where the local search
found a path around the node. The invariant of `contractGraph` (`Contracted`) collects
what all rounds together preserve; in particular the edges frozen at contracted nodes
form the two slopes of a hierarchy over the remaining graph.
-/

namespace Osrm

open Lib ContractorGraph

variable {n : ℕ}

/-- The input of `contractGraph`: positive weights, and each edge listed at both ends. -/
structure Mirrored (g : ContractorGraph n) : Prop where
  directed : ∀ u, ∀ e ∈ g.edges u, e.data.forward = true ∨ e.data.backward = true
  positive : ∀ u, ∀ e ∈ g.edges u, 0 < e.data.weight
  mirrored : ∀ dir u, ∀ e ∈ g.edges u, e.data.flag dir = true → g.Listed (!dir) e.target u e.data.weight

theorem Mirrored.listed {g : ContractorGraph n} (mirrored : Mirrored g) {dir : Bool} {u w : Fin n} {c : ℤ}
    (listed : g.Listed dir u w c) : g.Listed (!dir) w u c := by
  obtain ⟨e, he, rfl, rfl, flag⟩ := listed
  exact mirrored.mirrored dir u e he flag

namespace ContractorState

variable (s : ContractorState n)

/-- The arcs of the input graph, between the present numbers of its nodes. -/
def original (g₀ : ContractorGraph n) (s : ContractorState n) : Arcs (Fin n) := fun u w c =>
  g₀.Forward (s.newToOld u) (s.newToOld w) c

/-- The arcs between nodes that are not yet contracted. -/
def remaining : Arcs (Fin n) := fun u w c =>
  s.isCore u = true ∧ s.isCore w = true ∧ s.graph.Forward u w c

/-- The arcs frozen at their contracted start. -/
def up : Arcs (Fin n) := fun u w c => s.isCore u = false ∧ s.graph.Forward u w c

/-- The arcs frozen at their contracted end. -/
def down : Arcs (Fin n) := fun u w c => s.isCore w = false ∧ s.graph.Backward w u c

def links : Arcs (Fin n) := fun u w c => u ≠ w ∧ s.remaining u w c

/-- **The invariant of `contractGraph`.** -/
structure Contracted (g₀ : ContractorGraph n) (s : ContractorState n) : Prop where
  targets : ∀ u, s.isCore u = true → ∀ e ∈ s.graph.edges u, s.isCore e.target = true
  directed : ∀ u, ∀ e ∈ s.graph.edges u, e.data.forward = true ∨ e.data.backward = true
  positive : ∀ u, ∀ e ∈ s.graph.edges u, 0 < e.data.weight
  mirrored : ∀ dir u w c, s.isCore u = true → s.graph.Listed dir u w c → ∃ c' ≤ c, s.graph.Listed (!dir) w u c'
  sound : ∀ dir u w c, s.graph.Listed dir u w c →
    Walk (s.original g₀) (orient dir u w).1 (orient dir u w).2 c
  hierarchy : Hierarchy (s.original g₀) s.up s.links s.down invalidEdgeWeight

section Round

variable {g₀ : ContractorGraph n} {s : ContractorState n} {r : Round n} {u w m m' : Fin n} {c : ℤ} {dir : Bool}
  {e : DynamicEdge n ContractorEdgeData}

theorem Contracted.listed_positive (inv : Contracted g₀ s) : Positive (s.graph.Listed dir) := by
  rintro u w c ⟨e, he, rfl, rfl, -⟩
  exact inv.positive u e he

/-- An edge at a remaining node makes the node a neighbour of its target. -/
theorem Contracted.neighbour (inv : Contracted g₀ s) (core : s.isCore u = true) (he : e ∈ s.graph.edges u)
    (other : u ≠ e.target) : u ∈ neighbours s.graph e.target := by
  obtain ⟨dir, flag⟩ := ContractorEdgeData.exists_flag (inv.directed u e he)
  obtain ⟨_, _, e', he', target, -, -⟩ := inv.mirrored dir u e.target _ core ⟨e, he, rfl, rfl, flag⟩
  exact mem_neighbours.2 ⟨⟨e', he', target⟩, other⟩

theorem contract_core : (s.contract r).isCore u = true ↔ s.isCore u = true ∧ u ∉ r.nodes := by
  simp [contract]

theorem contract_node (hm : m ∈ r.nodes) : (s.contract r).isCore m = false := by
  simp [contract, hm]

theorem contract_old (frozen : s.isCore m = false) : (s.contract r).isCore m = false := by
  simp [contract, frozen]

theorem links_of (inv : Contracted g₀ s) (core : s.isCore u = true) (other : u ≠ w) (arc : s.graph.Forward u w c) :
    s.links u w c := by
  obtain ⟨e, he, rfl, rfl, flag⟩ := arc
  exact ⟨other, core, inv.targets u core e he, e, he, rfl, rfl, flag⟩

/-- A path around `m` from a remaining node only uses remaining arcs. -/
theorem witness_links (inv : Contracted g₀ s) (core : s.isCore u = true) {d : ℤ}
    (path : Walk (fun x y c => s.graph.Forward x y c ∧ y ≠ m) u w d) :
    ∃ d' ≤ d, Walk (fun x y c => s.links x y c ∧ y ≠ m) u w d' := by
  have step : ∀ x y c, s.graph.Forward x y c ∧ y ≠ m → s.isCore x = true → s.isCore y = true := by
    rintro x y c ⟨⟨e, he, rfl, -, -⟩, -⟩ core
    exact inv.targets x core e he
  obtain ⟨d', le, loopless⟩ := (path.within step core).2.loopless
    fun x y c arc => inv.listed_positive x y c arc.2.1
  exact ⟨d', le, loopless.mono fun x y c arc => ⟨links_of inv arc.2.1 arc.1 arc.2.2.1, arc.2.2.2⟩⟩

variable (g₀ s r) in
/-- A round that is due in a state of the run, with the node weights its loops are compared with. -/
structure Due (weight : Fin n → ℤ) : Prop where
  inv : Contracted g₀ s
  valid : r.Valid s
  shortcuts : r.Shortcuts s weight

theorem Contracted.due (inv : Contracted g₀ s) (valid : r.Valid s) : ∃ weight, Due g₀ s r weight :=
  valid.shortcuts.imp fun _ => .mk inv valid

variable {weight : Fin n → ℤ} (due : Due g₀ s r weight)

include due

/-- No two nodes of a round are adjacent. -/
theorem Due.apart (hm : m ∈ r.nodes) (near : u ∈ neighbours s.graph m) : u ∉ r.nodes := by
  intro hu
  obtain ⟨⟨e, he, rfl⟩, other⟩ := mem_neighbours.1 near
  have back := due.inv.neighbour (due.valid.core m hm) he other.symm
  have one := independent_iff.1 (due.valid.independent m hm) _ other (.inl ⟨e, he, rfl⟩)
  have two := independent_iff.1 (due.valid.independent e.target hu) _ other.symm (.inl (mem_neighbours.1 back).1)
  rcases yields_total r.hash r.priorities s.newToOld other with h | h
  · rw [two] at h; cases h
  · rw [one] at h; cases h

/-- No two nodes of a round have a common neighbour. -/
theorem Due.single (hm : m ∈ r.nodes) (hm' : m' ∈ r.nodes) (near : u ∈ neighbours s.graph m)
    (near' : u ∈ neighbours s.graph m') : m = m' := by
  by_contra other
  have reach : ∀ {x : Fin n}, x ∈ r.nodes → u ∈ neighbours s.graph x → ∃ e ∈ s.graph.edges u, e.target = x := by
    intro x hx near
    obtain ⟨⟨e, he, rfl⟩, other⟩ := mem_neighbours.1 near
    exact (mem_neighbours.1 (due.inv.neighbour (due.valid.core x hx) he other.symm)).1
  have one := independent_iff.1 (due.valid.independent m hm) _ (Ne.symm other) (.inr ⟨u, near, reach hm' near'⟩)
  have two := independent_iff.1 (due.valid.independent m' hm') _ other (.inr ⟨u, near', reach hm near⟩)
  rcases yields_total r.hash r.priorities s.newToOld other with h | h
  · rw [one] at h; cases h
  · rw [two] at h; cases h

/-- The neighbours of a node of the round remain. -/
theorem Due.neighbour_core (hm : m ∈ r.nodes) (near : u ∈ neighbours s.graph m) : (s.contract r).isCore u = true := by
  obtain ⟨⟨e, he, rfl⟩, -⟩ := mem_neighbours.1 near
  exact contract_core.2 ⟨due.inv.targets m (due.valid.core m hm) e he, due.apart hm near⟩

theorem Due.mem_deleted : e ∈ (r.nodes.foldl deleteIncomingEdges s.graph).edges u ↔
    e ∈ s.graph.edges u ∧ (e.target ∈ r.nodes → u ∉ neighbours s.graph e.target) :=
  mem_deletedEdges r.nodes s.graph (fun _ hm _ near => due.apart hm near) u e

/-- At a remaining node, the edges to the nodes of the round disappear. -/
theorem Due.mem_deleted_core (core : (s.contract r).isCore u = true) :
    e ∈ (r.nodes.foldl deleteIncomingEdges s.graph).edges u ↔ e ∈ s.graph.edges u ∧ e.target ∉ r.nodes := by
  obtain ⟨core, outside⟩ := contract_core.1 core
  rw [due.mem_deleted]
  refine and_congr_right fun he => ⟨fun h mem => ?_, fun h mem => absurd mem h⟩
  refine h mem (due.inv.neighbour core he ?_)
  rintro rfl
  exact outside mem

theorem Due.viaWeight_eq (hm : m ∈ r.nodes) {i o : DynamicEdge n ContractorEdgeData} (hi : i ∈ inEdges s.graph m)
    (ho : o ∈ outEdges s.graph m) : viaWeight i o = i.data.weight + o.data.weight :=
  (due.valid.sums m hm).viaWeight_eq due.inv.positive hi ho

/-- What a bridged pair says about its ends. -/
theorem Due.bridged_ends (hm : m ∈ r.nodes) {limit : ℤ} (bridged : Bridged (r.witness m) s.graph m limit u w c) :
    u ∈ neighbours s.graph m ∧ w ∈ neighbours s.graph m ∧ (s.contract r).isCore u = true ∧
      (s.contract r).isCore w = true ∧ 0 < c ∧ Walk (s.original g₀) u w c := by
  obtain ⟨i, hi, o, ho, rfl, rfl, rfl, -⟩ := bridged
  rw [due.viaWeight_eq hm hi ho]
  obtain ⟨hi, iOther, iFlag⟩ := mem_inEdges.1 hi
  obtain ⟨ho, oOther, oFlag⟩ := mem_outEdges.1 ho
  have iNear := mem_neighbours.2 ⟨⟨i, hi, rfl⟩, iOther⟩
  have oNear := mem_neighbours.2 ⟨⟨o, ho, rfl⟩, oOther⟩
  refine ⟨iNear, oNear, due.neighbour_core hm iNear, due.neighbour_core hm oNear, ?_, ?_⟩
  · have := due.inv.positive m i hi
    have := due.inv.positive m o ho
    omega
  · have into := due.inv.sound false m i.target _ ⟨i, hi, rfl, rfl, iFlag⟩
    have out := due.inv.sound true m o.target _ ⟨o, ho, rfl, rfl, oFlag⟩
    exact into.append out

/-- Bridged pairs are lighter than `invalidEdgeWeight`. -/
theorem Due.bridged_light (hm : m ∈ r.nodes) (bridged : Bridged (r.witness m) s.graph m (weight m) u w c) :
    c < invalidEdgeWeight := by
  obtain ⟨i, hi, o, ho, -, rfl, -, cond⟩ := bridged
  rcases cond with ⟨-, below⟩ | below
  · exact below.trans_le (due.shortcuts.fits m hm)
  · exact below.trans_le ((due.valid.found m hm).le i hi o ho)

/-- A new edge joins remaining nodes and has a valid weight. -/
theorem Due.inserted {x : ContractorEdge n} (hx : x ∈ r.order.map (·.2)) : (s.contract r).isCore x.source = true ∧
    (s.contract r).isCore x.target = true ∧ 0 < x.data.weight ∧ x.data.weight < invalidEdgeWeight := by
  obtain ⟨dir, flag⟩ := ContractorEdgeData.exists_flag (due.shortcuts.marked x hx).2
  obtain ⟨m, hm, -, bridged⟩ := due.shortcuts.bridged hx flag
  obtain ⟨-, -, first, second, pos, -⟩ := due.bridged_ends hm bridged
  have light := due.bridged_light hm bridged
  cases dir
  · exact ⟨second, first, pos, light⟩
  · exact ⟨first, second, pos, light⟩

omit due in
/-- What an edge listed after the round comes from. -/
theorem contract_edge (he : e ∈ (s.contract r).graph.edges u) : e ∈ (r.nodes.foldl deleteIncomingEdges s.graph).edges u ∨
    ∃ x ∈ r.order.map (·.2), x.source = u ∧ e = ⟨x.target, x.data⟩ :=
  (insertAll_inserted r.order _).origin u e he

/-- A bridged pair is listed after the round, at either end. -/
theorem Due.bridged_listed (hm : m ∈ r.nodes) (bridged : Bridged (r.witness m) s.graph m (weight m) u w c) (dir : Bool) :
    ∃ c' ≤ c, (s.contract r).graph.Listed dir (orient dir u w).1 (orient dir u w).2 c' := by
  obtain ⟨x, hx, source, target, rfl, -, flag⟩ := (due.shortcuts.offers dir m u w c).2 ⟨m, hm, rfl, bridged⟩
  obtain ⟨e, he, good⟩ := (insertAll_inserted r.order (r.nodes.foldl deleteIncomingEdges s.graph)).covered x hx
  rw [← source, ← target]
  exact good.listed (g := (s.contract r).graph) he flag

/-- The edges at contracted nodes are frozen. -/
theorem Due.frozen (frozen : (s.contract r).isCore u = false) :
    e ∈ (s.contract r).graph.edges u ↔ e ∈ s.graph.edges u := by
  have out := ne_true_of_eq_false frozen
  have away : ∀ x ∈ r.order.map (·.2), x.source ≠ u := by
    rintro x hx rfl
    exact out (due.inserted hx).1
  have same := (insertAll_inserted r.order (r.nodes.foldl deleteIncomingEdges s.graph)).other u away
  simp only [contract, same, due.mem_deleted]
  exact ⟨fun h => h.1, fun he => ⟨he, fun mem near => out (due.neighbour_core mem near)⟩⟩

theorem Due.frozen_listed (frozen : (s.contract r).isCore u = false) :
    (s.contract r).graph.Listed dir u w c ↔ s.graph.Listed dir u w c := by
  simp only [Listed, due.frozen frozen]

/-- Arcs of the old graph between nodes outside the round are still there. -/
theorem Due.kept_listed (core : (s.contract r).isCore u = true) (outside : w ∉ r.nodes)
    (listed : s.graph.Listed dir u w c) : ∃ c' ≤ c, (s.contract r).graph.Listed dir u w c' := by
  obtain ⟨e, he, rfl, rfl, flag⟩ := listed
  have kept := (due.mem_deleted_core core).2 ⟨he, outside⟩
  obtain ⟨e', he', good⟩ := (insertAll_inserted r.order (r.nodes.foldl deleteIncomingEdges s.graph)).kept u e kept
  exact good.listed (g := (s.contract r).graph) he' flag

/-- **A round eliminates its nodes.** -/
theorem Due.elimination : Elimination s.links (s.contract r).links {m | m ∈ r.nodes} invalidEdgeWeight where
  pos u w c arc := due.inv.listed_positive u w c arc.2.2.2
  apart u v c arc hu := by
    obtain ⟨other, core, -, e, he, rfl, -, -⟩ := arc
    exact due.apart hu (mem_neighbours.2 ⟨⟨e, he, rfl⟩, other.symm⟩)
  single u v v' c c' arc arc' hv hv' := by
    obtain ⟨other, core, -, e, he, rfl, -, -⟩ := arc
    obtain ⟨other', -, -, e', he', rfl, -, -⟩ := arc'
    exact due.single hv hv' (due.inv.neighbour core he other) (due.inv.neighbour core he' other')
  keep u w c arc hu hw := by
    have core := contract_core.2 ⟨arc.2.1, hu⟩
    obtain ⟨c', le, listed⟩ := due.kept_listed core hw arc.2.2.2
    exact ⟨c', le, arc.1, core, contract_core.2 ⟨arc.2.2.1, hw⟩, listed⟩
  bridge u v w c c' hv into out other light := by
    obtain ⟨c₁, le, i, hi, rfl, rfl, iFlag⟩ := due.inv.mirrored true u v c into.2.1 into.2.2.2
    obtain ⟨vw, -, -, o, ho, rfl, rfl, oFlag⟩ := out
    have hi' := mem_inEdges.2 ⟨hi, into.1, iFlag⟩
    have ho' := mem_outEdges.2 ⟨ho, vw.symm, oFlag⟩
    have sum := due.viaWeight_eq hv hi' ho'
    by_cases inserted : viaWeight i o < r.witness v i o.target
    · left
      have bridged : Bridged (r.witness v) s.graph v (weight v) i.target o.target (viaWeight i o) :=
        ⟨i, hi', o, ho', rfl, rfl, rfl, .inr inserted⟩
      obtain ⟨-, -, first, second, -, -⟩ := due.bridged_ends hv bridged
      obtain ⟨e, he, listed⟩ := due.bridged_listed hv bridged true
      exact ⟨e, by omega, other, first, second, listed⟩
    · right
      have path := (due.valid.found v hv).path i hi' o ho' (by omega)
      obtain ⟨d, hd, walk⟩ := witness_links due.inv into.2.1 path
      exact ⟨d, by omega, walk⟩

/-- A round keeps the slopes of the hierarchy and adds the arcs of its nodes to them. -/
theorem Due.hierarchy : Hierarchy ((s.contract r).original g₀) (s.contract r).up (s.contract r).links (s.contract r).down
    invalidEdgeWeight := by
  refine due.inv.hierarchy.eliminate due.elimination (fun u w c arc => due.inv.listed_positive u w c arc.2)
    (fun u w c arc => due.inv.listed_positive w u c arc.2) ?_ ?_ ?_ ?_
  · rintro u w c ⟨frozen, arc⟩
    exact ⟨contract_old frozen, (due.frozen_listed (contract_old frozen)).2 arc⟩
  · intro u w c hu arc
    exact ⟨c, le_rfl, contract_node hu, (due.frozen_listed (contract_node hu)).2 arc.2.2.2⟩
  · rintro u w c ⟨frozen, arc⟩
    exact ⟨contract_old frozen, (due.frozen_listed (contract_old frozen)).2 arc⟩
  · intro u w c hw arc
    obtain ⟨c', le, back⟩ := due.inv.mirrored true u w c arc.2.1 arc.2.2.2
    exact ⟨c', le, contract_node hw, (due.frozen_listed (contract_node hw)).2 back⟩

omit due in
/-- The step lemma for a round. -/
theorem Contracted.contract (inv : Contracted g₀ s) (valid : r.Valid s) : Contracted g₀ (s.contract r) := by
  obtain ⟨weight, due⟩ := inv.due valid
  refine ⟨?_, ?_, ?_, ?_, ?_, due.hierarchy⟩
  · intro u core e he
    rcases contract_edge he with old | ⟨x, hx, rfl, rfl⟩
    · obtain ⟨old, outside⟩ := (due.mem_deleted_core core).1 old
      exact contract_core.2 ⟨inv.targets u (contract_core.1 core).1 e old, outside⟩
    · exact (due.inserted hx).2.1
  · intro u e he
    rcases contract_edge he with old | ⟨x, hx, rfl, rfl⟩
    · exact inv.directed u e (due.mem_deleted.1 old).1
    · exact (due.shortcuts.marked x hx).2
  · intro u e he
    rcases contract_edge he with old | ⟨x, hx, rfl, rfl⟩
    · exact inv.positive u e (due.mem_deleted.1 old).1
    · exact (due.inserted hx).2.2.1
  · rintro dir u w c core ⟨e, he, rfl, rfl, flag⟩
    rcases contract_edge he with old | ⟨x, hx, rfl, rfl⟩
    · obtain ⟨old, target⟩ := (due.mem_deleted_core core).1 old
      obtain ⟨core, outside⟩ := contract_core.1 core
      obtain ⟨c', le, back⟩ := inv.mirrored dir u e.target _ core ⟨e, old, rfl, rfl, flag⟩
      obtain ⟨c'', le', back'⟩ := due.kept_listed (contract_core.2 ⟨inv.targets u core e old, target⟩) outside back
      exact ⟨c'', le'.trans le, back'⟩
    · obtain ⟨m, hm, -, bridged⟩ := due.shortcuts.bridged hx flag
      have back := due.bridged_listed hm bridged (!dir)
      cases dir <;> exact back
  · rintro dir u w c ⟨e, he, rfl, rfl, flag⟩
    rcases contract_edge he with old | ⟨x, hx, rfl, rfl⟩
    · exact inv.sound dir u e.target _ ⟨e, (due.mem_deleted.1 old).1, rfl, rfl, flag⟩
    · obtain ⟨m, hm, -, bridged⟩ := due.shortcuts.bridged hx flag
      obtain ⟨-, -, -, -, -, walk⟩ := due.bridged_ends hm bridged
      exact walk

end Round

section Run

variable {g₀ : ContractorGraph n} {isCore : Fin n → Bool} {s s' : ContractorState n} {d : ℤ} {u v : Fin n}
  (f : Equiv.Perm (Fin n))

theorem renumber_original {w : Fin n} {c : ℤ} :
    (s.renumber f).original g₀ (f u) (f w) c ↔ s.original g₀ u w c := by
  simp [original, renumber]

theorem renumber_core : (s.renumber f).isCore (f u) = s.isCore u := by
  simp [renumber]

/-- An edge of the renumbered graph, under its old numbers. -/
theorem edge_renumber {f : Equiv.Perm (Fin n)} {u' : Fin n} {e : DynamicEdge n ContractorEdgeData}
    (he : e ∈ (s.renumber f).graph.edges u') :
    ∃ u, ∃ e₀ ∈ s.graph.edges u, f u = u' ∧ renumberEdge f { e₀ with target := f e₀.target } = e := by
  obtain ⟨u, rfl⟩ := f.surjective u'
  obtain ⟨e₀, he₀, same⟩ := mem_renumberGraph.1 he
  exact ⟨u, e₀, he₀, rfl, same⟩

/-- The step lemma for a renumbering: everything holds under the new numbers. -/
theorem Contracted.renumber (inv : Contracted g₀ s) (f : Equiv.Perm (Fin n)) : Contracted g₀ (s.renumber f) := by
  have listed : ∀ {dir u w c}, (s.renumber f).graph.Listed dir (f u) (f w) c ↔ s.graph.Listed dir u w c :=
    listed_renumberGraph
  refine ⟨?_, ?_, ?_, ?_, ?_, ?_⟩
  · intro u' core e he
    obtain ⟨u, e₀, he₀, rfl, rfl⟩ := edge_renumber he
    rw [renumber_core] at core
    exact (renumber_core f).trans (inv.targets u core e₀ he₀)
  · intro u' e he
    obtain ⟨u, e₀, he₀, rfl, rfl⟩ := edge_renumber he
    simpa using inv.directed u e₀ he₀
  · intro u' e he
    obtain ⟨u, e₀, he₀, rfl, rfl⟩ := edge_renumber he
    simpa using inv.positive u e₀ he₀
  · intro dir u' w' c core arc
    obtain ⟨u, rfl⟩ := f.surjective u'
    obtain ⟨w, rfl⟩ := f.surjective w'
    rw [renumber_core] at core
    obtain ⟨c', le, back⟩ := inv.mirrored dir u w c core (listed.1 arc)
    exact ⟨c', le, listed.2 back⟩
  · intro dir u' w' c arc
    obtain ⟨u, rfl⟩ := f.surjective u'
    obtain ⟨w, rfl⟩ := f.surjective w'
    have walk := (inv.sound dir u w c (listed.1 arc)).map (B := (s.renumber f).original g₀) (f := f)
      fun _ _ _ arc => (renumber_original f).2 arc
    cases dir <;> exact walk
  · refine inv.hierarchy.rename f ?_ ?_ ?_ ?_
    · exact fun u w c => (renumber_original f).1
    · rintro u w c ⟨frozen, arc⟩
      exact ⟨(renumber_core f).trans frozen, listed.2 arc⟩
    · rintro u w c ⟨other, core, core', arc⟩
      exact ⟨fun same => other (f.injective same), (renumber_core f).trans core, (renumber_core f).trans core',
        listed.2 arc⟩
    · rintro u w c ⟨frozen, arc⟩
      exact ⟨(renumber_core f).trans frozen, listed.2 arc⟩

theorem Contracted.step (inv : Contracted g₀ s) (step : Step s s') : Contracted g₀ s' := by
  cases step with
  | round r valid => exact inv.contract valid
  | renumber f => exact inv.renumber f

section Input

variable (mirrored : Mirrored g₀) (within : ∀ u, ∀ e ∈ g₀.edges u, isCore u = true ∧ isCore e.target = true)

include mirrored within

/-- The input graph satisfies the invariant. Nodes that are contracted from the start have no edges. -/
theorem Contracted.initial :
    Contracted g₀ ⟨g₀, isCore, Equiv.refl _⟩ where
  targets u _ e he := (within u e he).2
  directed := mirrored.directed
  positive := mirrored.positive
  mirrored dir u w c _ listed := ⟨c, le_rfl, mirrored.listed listed⟩
  sound dir u w c listed := by
    cases dir
    · exact .single (mirrored.listed listed)
    · exact .single listed
  hierarchy := by
    intro u w d walk _
    obtain ⟨d', le, loopless⟩ := walk.loopless (by
      rintro x y c ⟨e, he, -, rfl, -⟩
      exact mirrored.positive _ e he)
    refine ⟨u, w, 0, d', 0, .nil u, ?_, .nil w, by omega⟩
    refine loopless.mono ?_
    rintro x y c ⟨other, e, he, rfl, rfl, flag⟩
    exact ⟨other, (within x e he).1, (within x e he).2, e, he, rfl, rfl, flag⟩

/-- The run lemma: every state of `contractGraph` satisfies the invariant. -/
theorem Reachable.contracted (run : Reachable g₀ isCore s) :
    Contracted g₀ s := by
  induction run with
  | refl => exact .initial mirrored within
  | tail _ step ih => exact ih.step step

end Input

/-- Between remaining nodes the slopes are empty. -/
theorem Contracted.remaining_complete (inv : Contracted g₀ s) (hu : s.isCore u = true)
    (hv : s.isCore v = true) (walk : Walk (s.original g₀) u v d) (light : d < invalidEdgeWeight) :
    ∃ d' ≤ d, Walk s.remaining u v d' := by
  obtain ⟨x, y, a, b, c, up, mid, down, le⟩ := inv.hierarchy u v d walk light
  have flat : u = x ∧ a = 0 := by
    cases up with
    | nil => exact ⟨rfl, rfl⟩
    | cons arc _ => rw [arc.1] at hu; cases hu
  have flat' : v = y ∧ c = 0 := by
    cases down.reverse with
    | nil => exact ⟨rfl, rfl⟩
    | cons arc _ => rw [arc.1] at hv; cases hv
  obtain ⟨rfl, rfl⟩ := flat
  obtain ⟨rfl, rfl⟩ := flat'
  exact ⟨b, by omega, mid.mono fun x y c arc => arc.2⟩

end Run

end ContractorState

open ContractorState

/-- **Contraction keeps distances.** In every state of `contractGraph`, two nodes that are not yet contracted
are as far apart in the remaining graph as in the input graph. -/
theorem contractGraph_distances {g₀ : ContractorGraph n} {isCore : Fin n → Bool} {s : ContractorState n}
    (mirrored : Mirrored g₀) (within : ∀ u, ∀ e ∈ g₀.edges u, isCore u = true ∧ isCore e.target = true)
    (run : Reachable g₀ isCore s) {u v : Fin n} (hu : s.isCore u = true) (hv : s.isCore v = true) (d : ℤ) :
    IsDist s.remaining u v d ↔ IsDist g₀.Forward (s.newToOld u) (s.newToOld v) d := by
  have inv := Reachable.contracted mirrored within run
  refine isMinWeight_congr (fun x walk _ => ⟨x, ?_, le_rfl⟩) (fun x walk light => ?_)
  · exact (walk.bind fun x y c arc => inv.sound true x y c arc.2.2).map fun _ _ _ arc => arc
  · have walk' : Walk (s.original g₀) u v x := by
      have back := walk.map (B := s.original g₀) (f := s.newToOld.symm) fun a b c arc => by
        simpa [original] using arc
      simpa using back
    obtain ⟨d', le, found⟩ := inv.remaining_complete hu hv walk' light
    exact ⟨d', found, le⟩

/-- A one-way street `0 → 1 → 2`. -/
def lineGraph : ContractorGraph 3 :=
  ⟨![[⟨1, ⟨2, 2, 0, 7, 1, false, true, false⟩⟩],
     [⟨0, ⟨2, 2, 0, 7, 1, false, false, true⟩⟩, ⟨2, ⟨3, 3, 0, 8, 1, false, true, false⟩⟩],
     [⟨1, ⟨3, 3, 0, 8, 1, false, false, true⟩⟩]]⟩

/-- The state in which `contractGraph` starts on it. -/
def lineStart : ContractorState 3 := ⟨lineGraph, fun _ => true, Equiv.refl _⟩

/-- A round that contracts one node, with the local search. -/
def lineRound (s : ContractorState 3) (node : Fin 3) (order : List (Bool × ContractorEdge 3)) : Round 3 where
  hash := id
  priorities u := if u = node then 0 else 1
  nodeWeights _ := invalidEdgeWeight
  nodes := [node]
  witness := searchWitness s.graph
  order := order

/-- The round that contracts its middle node, with the two shortcuts in the order they are inserted. -/
def lineMiddle : Round 3 := lineRound lineStart 1
  [(false, ⟨0, 2, ⟨5, 5, 0, 1, 2, true, true, false⟩⟩), (false, ⟨2, 0, ⟨5, 5, 0, 1, 2, true, false, true⟩⟩)]

/-- The one-way street without its middle node: one shortcut, listed at both ends. -/
def lineContracted : ContractorState 3 := lineStart.contract lineMiddle

theorem lineMiddle_valid : lineMiddle.Valid lineStart :=
  have sums : ∀ m ∈ lineMiddle.nodes, SumsFit lineGraph m := by decide
  ⟨by decide, by decide, by decide +kernel, fun _ => le_rfl, sums, fun m hm => searchWitness_finds (by decide) (sums m hm),
    by decide +kernel⟩

theorem lineContracted_reachable : Reachable lineGraph (fun _ => true) lineContracted := .single (.round _ lineMiddle_valid)

theorem contractGraph_distances_line :
    IsDist lineContracted.remaining 0 2 5 ↔ IsDist lineGraph.Forward 0 2 5 :=
  contractGraph_distances ⟨by decide, by decide, by decide⟩ (by decide) lineContracted_reachable
    (by decide) (by decide) 5

end Osrm
