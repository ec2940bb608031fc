import Osrm.Partitioner.DinicPaths

/-!
# Rounds and the cut

Every path of a round makes the flow larger by one, and a round whose levels reach a sink finds at
least one. No flow is larger than the number of edges, so the rounds come to an end. Then every edge
out of the nodes with a level carries a unit, and their cut is as small as the flow is large.
-/

namespace Osrm.Partitioner.DinicMaxFlow

open List Finset

open Lib UnitFlow

variable {n : ℕ} {view : BisectionGraphView n} {sources sinks : List (Fin n)} {flow : FlowEdges n} {levels : LevelGraph n}
  {sink : Fin n}

theorem augmentFlow_eq : ∀ (flow : FlowEdges n) (path : List (Fin n)), augmentFlow flow path = pushAll flow path
  | flow, [] => by rw [augmentFlow, pushAll]
  | flow, [_] => by rw [augmentFlow, pushAll]
  | flow, source :: target :: path => by
    rw [augmentFlow, augmentFlow_eq _ (target :: path)]
    rfl

/-! ### The flow -/

variable (view sources sinks) in
/-- The flow of a state goes from the sources to the sinks. -/
abbrev Flows (flow : FlowEdges n) : Prop := IsFlow (Adjacent view) (· ∈ sources) (· ∈ sinks) flow

variable (sources) in
abbrev flowValue [DecidablePred (· ∈ sources)] (flow : FlowEdges n) : ℤ := value (· ∈ sources) flow

theorem card_cutEdges_le (X : Finset (Fin n)) : (cutEdges (Adjacent view) X).card ≤ numberOfEdges view := by
  have covered : cutEdges (Adjacent view) X ⊆ univ.biUnion fun u => (view.edges u).toFinset.image fun v => (u, v) := by
    intro e mem
    refine mem_biUnion.2 ⟨e.1, mem_univ _, mem_image.2 ⟨e.2, ?_, rfl⟩⟩
    exact mem_toFinset.2 (mem_filter.1 mem).2
  calc (cutEdges (Adjacent view) X).card ≤ _ := card_le_card covered
    _ ≤ ∑ u, ((view.edges u).toFinset.image fun v => (u, v)).card := card_biUnion_le
    _ ≤ numberOfEdges view := Finset.sum_le_sum fun u _ => Finset.card_image_le.trans (toFinset_card_le _)

/-- No flow is larger than the number of edges. -/
theorem flowValue_le (flows : Flows view sources sinks flow) (disjoint : ∀ u ∈ sources, u ∉ sinks) :
    flowValue sources flow ≤ numberOfEdges view := by
  have separates : Separates (· ∈ sources) (· ∈ sinks) sources.toFinset :=
    ⟨fun _ source => mem_toFinset.2 source, fun u here mem => disjoint u (mem_toFinset.1 mem) here⟩
  exact (value_le flows separates).trans (by exact_mod_cast card_cutEdges_le _)

theorem flows_empty : Flows view sources sinks (fun _ => ∅) := by
  refine ⟨fun u v mem => absurd mem (notMem_empty v), fun u v mem => absurd mem (notMem_empty v), fun u _ _ => ?_⟩
  simp [excess, net]

/-- A path that was found is augmented. -/
theorem Found.augment {path : List (Fin n)} (found : Found view sources flow sink levels path) (some : path ≠ [])
    (flows : Flows view sources sinks flow) (finish : sink ∈ sinks) (disjoint : ∀ u ∈ sources, u ∉ sinks) :
    Flows view sources sinks (augmentFlow flow path) ∧ flowValue sources (augmentFlow flow path) = flowValue sources flow + 1 ∧
      levels sink ≠ invalidLevel := by
  rcases found.path with none | ⟨source, rest, rfl, start, augmenting, last, valid⟩
  · exact absurd none some
  · have sent := augmenting.sent flows.edge flows.oneWay
    obtain ⟨flows', more⟩ := flows.send sent start (Option.some_inj.1 last ▸ finish) disjoint
    rw [augmentFlow_eq]
    exact ⟨flows', more, valid⟩

/-! ### The paths of a round -/

variable (view sources sinks) in
/-- What the searches of a round do to the flow, the levels and the counter. -/
structure Augmented (before after : Blocking n) : Prop
    extends Bounded sources after.levels where
  flows : Flows view sources sinks after.flow
  gained : flowValue sources after.flow + before.flowIncrease = flowValue sources before.flow + after.flowIncrease
  more : before.flowIncrease ≤ after.flowIncrease

section Round

variable {state middle after : Blocking n}

theorem Augmented.trans (first : Augmented view sources sinks state middle) (second : Augmented view sources sinks middle after) :
    Augmented view sources sinks state after := by
  refine ⟨second.toBounded, second.flows, ?_, first.more.trans second.more⟩
  have one := first.gained
  have two := second.gained
  omega

/-- The paths from one sink: at least one where the levels are those of the breadth-first search. -/
theorem augmentPaths_eq (finish : sink ∈ sinks) (disjoint : ∀ u ∈ sources, u ∉ sinks) :
    ∀ (fuel : ℕ) (state : Blocking n), Flows view sources sinks state.flow → Bounded sources state.levels →
      state.levels sink ≠ invalidLevel → (numberOfEdges view : ℤ) < flowValue sources state.flow + fuel →
      ∃ after, augmentPaths view sources sink fuel state = some after ∧ Augmented view sources sinks state after ∧
        (Layered view sources sinks state.flow state.levels → state.flowIncrease < after.flowIncrease)
  | 0, state, flows, _, _, enough => by
    have bound := flowValue_le flows disjoint
    omega
  | fuel + 1, state, flows, bounded, valid, enough => by
    obtain ⟨levels, path, search, found, progress⟩ :=
      getAugmentingPath_eq sinks bounded (fun source => disjoint sink source finish) valid
    rw [augmentPaths, search, Option.bind_eq_bind, Option.bind_some]
    dsimp only
    split
    · next empty =>
      rw [List.isEmpty_iff] at empty
      exact ⟨_, rfl, ⟨found.toBounded, flows, rfl, le_rfl⟩, fun layered => absurd empty (progress layered)⟩
    · next some =>
      obtain ⟨flows', more, valid'⟩ := found.augment (fun empty => some (isEmpty_iff.2 empty)) flows finish disjoint
      have one : Augmented view sources sinks state ⟨augmentFlow state.flow path, levels, state.flowIncrease + 1⟩ := by
        refine ⟨found.toBounded, flows', ?_, Nat.le_succ _⟩
        push_cast
        omega
      obtain ⟨after, run, augmented, -⟩ := augmentPaths_eq finish disjoint fuel
        ⟨augmentFlow state.flow path, levels, state.flowIncrease + 1⟩ flows' found.toBounded valid' (by rw [more]; omega)
      exact ⟨after, run, one.trans augmented, fun _ => augmented.more⟩

/-- The sinks of a round, one after the other. -/
theorem augmentAllPaths_foldlM (disjoint : ∀ u ∈ sources, u ∉ sinks) : ∀ (list : List (Fin n)) (state : Blocking n),
    (∀ v ∈ list, v ∈ sinks) → Flows view sources sinks state.flow → Bounded sources state.levels →
      0 ≤ flowValue sources state.flow →
      ∃ after, list.foldlM (augmentAllPaths view sources) state = some after ∧ Augmented view sources sinks state after ∧
        (Layered view sources sinks state.flow state.levels → (∃ v ∈ list, state.levels v ≠ invalidLevel) →
          state.flowIncrease < after.flowIncrease)
  | [], state, _, flows, bounded, _ => by
    refine ⟨state, rfl, ⟨bounded, flows, rfl, le_rfl⟩, fun _ reached => ?_⟩
    obtain ⟨v, mem, -⟩ := reached
    exact absurd mem not_mem_nil
  | v :: list, state, inside, flows, bounded, nonneg => by
    have rest : ∀ v ∈ list, v ∈ sinks := fun v mem => inside v (mem_cons_of_mem _ mem)
    rw [foldlM_cons, augmentAllPaths]
    split
    · next invalid =>
      obtain ⟨after, run, augmented, progress⟩ := augmentAllPaths_foldlM disjoint list state rest flows bounded nonneg
      refine ⟨after, run, augmented, fun layered reached => progress layered ?_⟩
      obtain ⟨u, mem, valid⟩ := reached
      rcases mem_cons.1 mem with rfl | mem
      · exact absurd invalid valid
      · exact ⟨u, mem, valid⟩
    · next valid =>
      obtain ⟨middle, first, one, progress⟩ :=
        augmentPaths_eq (inside v mem_cons_self) disjoint (numberOfEdges view + 1) state flows bounded valid (by omega)
      have gained := one.gained
      have more := one.more
      obtain ⟨after, run, two, -⟩ := augmentAllPaths_foldlM disjoint list middle rest one.flows one.toBounded (by omega)
      rw [first]
      exact ⟨after, run, one.trans two, fun layered _ => (progress layered).trans_le two.more⟩

/-- A round whose levels reach a sink makes the flow larger, by its counter. -/
theorem blockingFlow_eq (disjoint : ∀ u ∈ sources, u ∉ sinks) (flows : Flows view sources sinks flow)
    (nonneg : 0 ≤ flowValue sources flow) (layered : Layered view sources sinks flow levels)
    (reached : ∃ v ∈ border view sinks, levels v ≠ invalidLevel) :
    ∃ after, blockingFlow view flow levels sources (border view sinks) = some after ∧ Flows view sources sinks after.flow ∧
      flowValue sources after.flow = flowValue sources flow + after.flowIncrease ∧ 0 < after.flowIncrease := by
  obtain ⟨after, run, augmented, progress⟩ := augmentAllPaths_foldlM disjoint (border view sinks) ⟨flow, levels, 0⟩
    (fun v mem => (mem_border.1 mem).1) flows layered.bounded nonneg
  have gained : flowValue sources after.flow + (0 : ℕ) = flowValue sources flow + after.flowIncrease := augmented.gained
  exact ⟨after, run, augmented.flows, by omega, progress layered reached⟩

end Round

/-! ### The cut -/

def sourceSide (cut : MinCut n) : Finset (Fin n) := univ.filter fun node => cut.flags node

variable (view sources sinks) in
/-- A cut as it is meant: it separates the sources from the sinks and counts its nodes and edges, and no set of nodes that
separates them has fewer edges. -/
structure IsMinCut (cut : MinCut n) : Prop where
  separates : Separates (· ∈ sources) (· ∈ sinks) (sourceSide cut)
  nodes : cut.numNodesSource = (sourceSide cut).card
  edges : cut.numEdges = (cutEdges (Adjacent view) (sourceSide cut)).card
  least : ∀ X, Separates (· ∈ sources) (· ∈ sinks) X → cut.numEdges ≤ (cutEdges (Adjacent view) X).card

section Cut

variable (sources levels) in
/-- The levels that the cut is read from. -/
def cutLevels : LevelGraph n := fun node => if sources.contains node then 0 else levels node

theorem mem_sourceSide_makeCut {flowValue : ℕ} {node : Fin n} :
    node ∈ sourceSide (makeCut (cutLevels sources levels) flowValue) ↔ node ∈ sources ∨ levels node ≠ invalidLevel := by
  have zero : (0 : ℕ) ≠ invalidLevel := by decide
  by_cases source : node ∈ sources
  · simp [sourceSide, makeCut, cutLevels, source, zero]
  · simp [sourceSide, makeCut, cutLevels, source]

variable (searching : Searching view sources sinks flow levels []) (disjoint : ∀ u ∈ sources, u ∉ sinks)
  (apart : ∀ v ∈ border view sinks, levels v = invalidLevel) (flowValue : ℕ)

include searching disjoint apart

/-- A sink with a level would have been found from outside the sinks, so it would be on their border. -/
theorem Searching.separates :
    Separates (· ∈ sources) (· ∈ sinks) (sourceSide (makeCut (cutLevels sources levels) flowValue)) := by
  refine ⟨fun u source => mem_sourceSide_makeCut.2 (.inl source), fun u sink mem => ?_⟩
  have notSource : u ∉ sources := fun source => disjoint u source sink
  rcases mem_sourceSide_makeCut.1 mem with source | valid
  · exact notSource source
  · obtain ⟨parent, outside, edge, -, -⟩ := searching.parent u notSource valid
    exact valid (apart u (mem_border.2 ⟨sink, parent, view.symmetric parent u edge, outside⟩))

/-- Every edge out of the nodes with a level carries a unit. -/
theorem Searching.full : ∀ u ∈ sourceSide (makeCut (cutLevels sources levels) flowValue),
    ∀ v ∉ sourceSide (makeCut (cutLevels sources levels) flowValue), Adjacent view u v → v ∈ flow u := by
  intro u inside v outside edge
  have notSink : u ∉ sinks := fun sink => (searching.separates disjoint apart flowValue).sink u sink inside
  rw [mem_sourceSide_makeCut] at inside outside
  push Not at outside
  obtain ⟨notSource, invalid⟩ := outside
  by_contra free
  have onBorder (source : u ∈ sources) : u ∈ border view sources := mem_border.2 ⟨source, v, edge, notSource⟩
  have valid : levels u ≠ invalidLevel := by
    rcases inside with source | valid
    · rw [searching.start u (onBorder source)]
      decide
    · exact valid
  exact searching.closed u valid not_mem_nil notSink onBorder v edge free invalid

theorem Searching.isMinCut {flowValue : ℕ} (flows : Flows view sources sinks flow)
    (same : DinicMaxFlow.flowValue sources flow = flowValue) :
    IsMinCut view sources sinks (makeCut (cutLevels sources levels) flowValue) := by
  have separates := searching.separates disjoint apart flowValue
  have whole := value_eq_card flows separates (searching.full disjoint apart flowValue) view.symmetric
  refine ⟨separates, ?_, ?_, fun X other => ?_⟩
  · rw [makeCut, sourceSide, countP_eq_length_filter]
    simp [Finset.card, Fin.univ_def]
  · have count : (flowValue : ℤ) = _ := same.symm.trans whole
    exact_mod_cast count
  · have count : (flowValue : ℤ) ≤ _ := same.symm.le.trans (value_le flows other)
    exact_mod_cast count

end Cut

/-! ### The rounds -/

theorem rounds_eq (disjoint : ∀ u ∈ sources, u ∉ sinks) : ∀ (fuel : ℕ) (flow : FlowEdges n) (flowValue : ℕ),
    Flows view sources sinks flow → DinicMaxFlow.flowValue sources flow = flowValue → numberOfEdges view < flowValue + fuel →
      ∃ cut, rounds view sources sinks fuel flow flowValue = some cut ∧ IsMinCut view sources sinks cut
  | 0, flow, flowValue, flows, same, enough => by
    have bound := flowValue_le flows disjoint
    omega
  | fuel + 1, flow, flowValue, flows, same, enough => by
    obtain ⟨levels, search, searching⟩ := computeLevelGraph_eq view sources sinks flow
    rw [rounds, search, Option.bind_eq_bind, Option.bind_some]
    split
    · next reached =>
      obtain ⟨v, onBorder, valid⟩ := any_eq_true.1 reached
      obtain ⟨after, run, flows', gained, more⟩ :=
        blockingFlow_eq disjoint flows (by omega) searching.toLayered ⟨v, onBorder, of_decide_eq_true valid⟩
      rw [run]
      apply rounds_eq disjoint fuel after.flow _ flows'
      · rw [gained, same, Nat.cast_add]
      · omega
    · next separated =>
      have apart : ∀ v ∈ border view sinks, levels v = invalidLevel := fun v mem => by
        by_contra valid
        exact separated (any_eq_true.2 ⟨v, mem, decide_eq_true valid⟩)
      exact ⟨_, rfl, searching.isMinCut disjoint apart flows same⟩

/-- **Minimum cut**: between disjoint sets of sources and sinks the rounds come to an end, and the cut is a smallest one. -/
theorem minCut_isMinCut (view : BisectionGraphView n) (sources sinks : List (Fin n)) (disjoint : ∀ u ∈ sources, u ∉ sinks) :
    ∃ cut, minCut view sources sinks = some cut ∧ IsMinCut view sources sinks cut := by
  apply rounds_eq disjoint _ _ 0 flows_empty (by simp [value, excess, net])
  omega

theorem square_symmetric (u v : Fin 4) (edge : v ∈ (finRange 4).filter fun v => u.val % 2 ≠ v.val % 2) :
    u ∈ (finRange 4).filter fun u => v.val % 2 ≠ u.val % 2 := by
  rw [mem_filter, decide_eq_true_iff] at edge ⊢
  exact ⟨mem_finRange u, edge.2.symm⟩

theorem square_small : 4 < 2 ^ 32 := by decide

/-- Four nodes on a circle. -/
def square : BisectionGraphView 4 where
  edges u := (finRange 4).filter fun v => u.val % 2 ≠ v.val % 2
  symmetric := square_symmetric
  small := square_small

theorem minCut_isMinCut_square : (minCut square [0] [2]).map (·.numEdges) = some 2 ∧
    ∃ cut, minCut square [0] [2] = some cut ∧ IsMinCut square [0] [2] cut :=
  ⟨by decide, minCut_isMinCut square [0] [2] (by decide)⟩

end Osrm.Partitioner.DinicMaxFlow
