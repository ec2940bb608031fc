import Osrm.Partitioner.DinicMaxFlow

/-!
# The levels of a round

The breadth-first search gives each node a level once, when it is found from a node of the level
below. When the queue is empty, every edge without flow that leaves a node with a level leads to a
node with a level, and every such node outside the sources has one of the level below next to it.
-/

namespace Osrm.Partitioner.DinicMaxFlow

open Function List

variable {n : ℕ} {view : BisectionGraphView n} {sources sinks : List (Fin n)} {flow : FlowEdges n}

theorem mem_border {set : List (Fin n)} {node : Fin n} :
    node ∈ border view set ↔ node ∈ set ∧ ∃ target ∈ view.edges node, target ∉ set := by
  simp [border, hasNeighborNotIn]

/-! ### Levels with nodes of the level below -/

variable (view sources sinks flow) in
/-- Level 0 belongs to sources, and each other node with a level has one of the level below next to it, which is not a sink. -/
structure Layered (levels : LevelGraph n) :
    Prop where
  source : ∀ s ∈ sources, levels s = 0 ∨ levels s = invalidLevel
  only : ∀ v, levels v = 0 → v ∈ sources
  parent : ∀ v, v ∉ sources → levels v ≠ invalidLevel →
    ∃ u, u ∉ sinks ∧ v ∈ view.edges u ∧ v ∉ flow u ∧ levels u + 1 = levels v
  le : ∀ v, levels v ≤ invalidLevel

section Layered

variable {levels : LevelGraph n} (layered : Layered view sources sinks flow levels)

include layered

/-- Every level below that of a node is that of some node. -/
theorem Layered.exists_level : ∀ {k : ℕ} {v : Fin n}, levels v ≠ invalidLevel → k ≤ levels v → ∃ u, levels u = k := by
  intro k v
  induction level : levels v using Nat.strong_induction_on generalizing v with
  | _ l ih =>
    intro valid below
    rcases below.eq_or_lt with same | lower
    · exact ⟨v, level.trans same.symm⟩
    · have notSource : v ∉ sources := fun mem => by
        rcases layered.source v mem with zero | invalid <;> omega
      obtain ⟨u, -, -, -, parent⟩ := layered.parent v notSource (level ▸ valid)
      have bounded := layered.le v
      exact ih (levels u) (by omega) rfl (by omega) (by omega)

/-- There are fewer levels than nodes with a level. -/
theorem Layered.level_lt {v : Fin n} (valid : levels v ≠ invalidLevel) :
    levels v < (Finset.univ.filter fun u => ¬levels u = invalidLevel).card := by
  have bounded := layered.le v
  have each (k : Fin (levels v + 1)) : ∃ u, levels u = k := layered.exists_level valid (Nat.lt_succ_iff.1 k.isLt)
  choose node place using each
  have inside (k : Fin (levels v + 1)) : node k ∈ Finset.univ.filter fun u => ¬levels u = invalidLevel := by
    rw [Finset.mem_filter, place]
    exact ⟨Finset.mem_univ _, by omega⟩
  have distinct : Injective node := fun a b same => Fin.ext (by rw [← place a, ← place b, same])
  have count := Finset.card_le_card_of_injOn (s := Finset.univ) node (fun k _ => inside k) distinct.injOn
  rw [Finset.card_univ, Fintype.card_fin] at count
  exact count

end Layered

variable {levels : LevelGraph n} {level : ℕ}

/-- The number of nodes without a level. -/
def unvisited (levels : LevelGraph n) : ℕ := (Finset.univ.filter fun v => levels v = invalidLevel).card

/-- As long as a node has no level there is room for one more. -/
theorem Layered.room (layered : Layered view sources sinks flow levels) {u v : Fin n} (valid : levels u ≠ invalidLevel)
    (left : levels v = invalidLevel) : levels u + 1 < invalidLevel := by
  have low := layered.level_lt valid
  have some : 0 < (Finset.univ.filter fun v => levels v = invalidLevel).card :=
    Finset.card_pos.2 ⟨v, Finset.mem_filter.2 ⟨Finset.mem_univ v, left⟩⟩
  have all := Finset.card_filter_add_card_filter_not (s := Finset.univ) fun v => levels v = invalidLevel
  rw [Finset.card_univ, Fintype.card_fin] at all
  have small := view.small
  simp only [invalidLevel] at *
  omega

/-! ### One node -/

/-- What relaxing some edges of a node does: their targets without level get the next one and go into the queue. -/
structure Relaxed (flow : FlowEdges n) (node : Fin n) (level : ℕ) (targets : List (Fin n)) (before after : LevelGraph n)
    (pushed : List (Fin n)) : Prop where
  kept : ∀ v, before v ≠ invalidLevel → after v = before v
  found : ∀ v, v ∈ pushed → before v = invalidLevel ∧ after v = level ∧ v ∈ targets ∧ v ∉ flow node
  other : ∀ v, before v = invalidLevel → v ∉ pushed → after v = invalidLevel
  all : ∀ v ∈ targets, v ∉ flow node → after v ≠ invalidLevel
  count : pushed.length + unvisited after = unvisited before

theorem unvisited_update {levels : LevelGraph n} {v : Fin n} (left : levels v = invalidLevel)
    (valid : level ≠ invalidLevel) : unvisited (update levels v level) + 1 = unvisited levels := by
  have rest : (Finset.univ.filter fun u => update levels v level u = invalidLevel) =
      (Finset.univ.filter fun u => levels u = invalidLevel).erase v := by
    ext u
    by_cases here : u = v
    · simp [here, valid]
    · simp [here]
  rw [unvisited, rest]
  exact Finset.card_erase_add_one (Finset.mem_filter.2 ⟨Finset.mem_univ v, left⟩)

section Relax

variable {node target : Fin n} {level : ℕ} {before : LevelGraph n} {targets pushed : List (Fin n)}

/-- A target without level gets one. -/
theorem Relaxed.push (relaxed : Relaxed flow node level targets before levels pushed)
    (free : target ∉ flow node) (fresh : before target = invalidLevel) (notPushed : target ∉ pushed) (valid : level ≠ invalidLevel) :
    Relaxed flow node level (targets ++ [target]) before (update levels target level) (pushed ++ [target]) := by
  refine ⟨fun v valid => ?_, fun v mem => ?_, fun v left notPushed => ?_, fun v mem unused => ?_, ?_⟩
  · have other : v ≠ target := fun same => valid (same ▸ fresh)
    rw [update_of_ne other]
    exact relaxed.kept v valid
  · rcases mem_append.1 mem with mem | mem
    · obtain ⟨left, here, place, unused⟩ := relaxed.found v mem
      have other : v ≠ target := fun same => notPushed (same ▸ mem)
      exact ⟨left, (update_of_ne other ..).trans here, mem_append_left _ place, unused⟩
    · obtain rfl := mem_singleton.1 mem
      exact ⟨fresh, update_self .., mem_append_right _ mem, free⟩
  · obtain ⟨notOld, notNew⟩ := not_or.1 (mem_append.not.1 notPushed)
    rw [update_of_ne fun same => notNew (mem_singleton.2 same)]
    exact relaxed.other v left notOld
  · rw [update_apply]
    split_ifs with other
    · exact valid
    · rcases mem_append.1 mem with mem | mem
      · exact relaxed.all v mem unused
      · exact absurd (mem_singleton.1 mem) other
  · have fewer := unvisited_update (relaxed.other target fresh notPushed) valid
    have count := relaxed.count
    rw [length_append, length_singleton]
    omega

/-- A target with a level, or behind an edge with flow, stays as it is. -/
theorem Relaxed.skip (relaxed : Relaxed flow node level targets before levels pushed)
    (done : target ∉ flow node → levels target ≠ invalidLevel) :
    Relaxed flow node level (targets ++ [target]) before levels pushed := by
  refine ⟨relaxed.kept, fun v mem => ?_, relaxed.other, fun v mem unused => ?_, relaxed.count⟩
  · obtain ⟨left, here, place, unused⟩ := relaxed.found v mem
    exact ⟨left, here, mem_append_left _ place, unused⟩
  · rcases mem_append.1 mem with mem | mem
    · exact relaxed.all v mem unused
    · obtain rfl := mem_singleton.1 mem
      exact done unused

variable (low : ∀ v, before v ≠ invalidLevel → before v ≤ level) (room : ∀ v, before v = invalidLevel → level < invalidLevel)

include low room

theorem Relaxed.edge (relaxed : Relaxed flow node level targets before levels pushed) (target : Fin n) :
    Relaxed flow node level (targets ++ [target]) before (relaxEdge flow node level (levels, pushed) target).1
      (relaxEdge flow node level (levels, pushed) target).2 := by
  rw [relaxEdge]
  split
  · next carries => exact relaxed.skip fun free => absurd carries free
  · next free =>
    split
    · next higher =>
      have fresh : before target = invalidLevel := by
        by_contra valid
        exact absurd ((relaxed.kept target valid).le.trans (low target valid)) (not_le.2 higher)
      have notPushed : target ∉ pushed := fun mem => higher.ne (relaxed.found target mem).2.1.symm
      exact relaxed.push free fresh notPushed (room target fresh).ne
    · next lower =>
      refine relaxed.skip fun _ left => ?_
      have fresh : before target = invalidLevel := by
        by_contra valid
        exact valid ((relaxed.kept target valid).symm.trans left)
      exact lower (Nat.lt_of_lt_of_eq (room target fresh) left.symm)

/-- The loop over the edges of a node, up to any of them. -/
theorem relaxed_foldl (targets : List (Fin n)) :
    Relaxed flow node level targets before (targets.foldl (relaxEdge flow node level) (before, [])).1
      (targets.foldl (relaxEdge flow node level) (before, [])).2 := by
  induction targets using reverseRecOn with
  | nil => exact ⟨fun _ _ => rfl, fun _ mem => absurd mem not_mem_nil, fun _ left _ => left,
      fun _ mem => absurd mem not_mem_nil, Nat.zero_add _⟩
  | append_singleton targets target ih =>
    rw [foldl_append]
    exact ih.edge low room target

end Relax

/-! ### The queue -/

variable (view sources sinks flow levels) in
/-- What holds while the queue is worked off. The nodes in it are in the order of their levels, and no level is higher than
the next one. Sources enter the queue only from their border. -/
structure Searching (queue : List (Fin n)) : Prop extends Layered view sources sinks flow levels where
  start : ∀ s ∈ border view sources, levels s = 0
  beside : ∀ s ∈ border view sources, ∀ t ∈ view.edges s, t ∈ sources → levels t = 0
  valid : ∀ u ∈ queue, levels u ≠ invalidLevel
  entered : ∀ u ∈ queue, u ∈ sources → u ∈ border view sources
  sorted : queue.Pairwise fun u v => levels u ≤ levels v
  near : ∀ u ∈ queue, ∀ v, levels v ≠ invalidLevel → levels v ≤ levels u + 1
  closed : ∀ u, levels u ≠ invalidLevel → u ∉ queue → u ∉ sinks → (u ∈ sources → u ∈ border view sources) →
    ∀ v ∈ view.edges u, v ∉ flow u → levels v ≠ invalidLevel

section Queue

variable {node : Fin n} {queue pushed : List (Fin n)} {after : LevelGraph n}

section Step

variable (searching : Searching view sources sinks flow levels (node :: queue))

include searching

/-- No source is found from a node in the queue: those next to it have a level from the start. -/
theorem Searching.not_source {v : Fin n}
    (target : v ∈ view.edges node) (left : levels v = invalidLevel) : v ∉ sources := by
  intro source
  have invalid : (0 : ℕ) ≠ invalidLevel := by decide
  by_cases inside : node ∈ sources
  · exact invalid ((searching.beside node (searching.entered node mem_cons_self inside) v target source).symm.trans left)
  · have here := mem_border.2 ⟨source, node, view.symmetric node v target, inside⟩
    exact invalid ((searching.start v here).symm.trans left)

/-- A node that is not a sink is taken from the queue and its edges are relaxed. -/
theorem Searching.relax (notSink : node ∉ sinks)
    (relaxed : Relaxed flow node (levels node + 1) (view.edges node) levels after pushed) :
    Searching view sources sinks flow after (queue ++ pushed) := by
  have valid := searching.valid node mem_cons_self
  have near := searching.near node mem_cons_self
  obtain ⟨first, sorted⟩ := pairwise_cons.1 searching.sorted
  have zero : (0 : ℕ) ≠ invalidLevel := by decide
  have notSource : ∀ v ∈ pushed, v ∉ sources := fun v mem =>
    searching.not_source (relaxed.found v mem).2.2.1 (relaxed.found v mem).1
  have kept : ∀ v, levels v = 0 → after v = 0 := fun v here => (relaxed.kept v (here ▸ zero)).trans here
  have inQueue : ∀ v ∈ queue, after v = levels v := fun v mem => relaxed.kept v (searching.valid v (mem_cons_of_mem _ mem))
  have cases' (v : Fin n) : (levels v ≠ invalidLevel ∧ after v = levels v) ∨ (v ∈ pushed ∧ after v = levels node + 1) ∨
      (levels v = invalidLevel ∧ v ∉ pushed ∧ after v = invalidLevel) := by
    by_cases old : levels v = invalidLevel
    · by_cases new : v ∈ pushed
      · exact .inr (.inl ⟨new, (relaxed.found v new).2.1⟩)
      · exact .inr (.inr ⟨old, new, relaxed.other v old new⟩)
    · exact .inl ⟨old, relaxed.kept v old⟩
  have low : ∀ v, after v ≠ invalidLevel → after v ≤ levels node + 1 := by
    intro v here
    rcases cases' v with ⟨old, same⟩ | ⟨-, same⟩ | ⟨-, -, same⟩
    · exact same ▸ near v old
    · exact same.le
    · exact absurd same here
  refine ⟨⟨fun s mem => ?_, fun v here => ?_, fun v other here => ?_, fun v => ?_⟩, fun s mem => kept s (searching.start s mem),
    fun s mem t target source => kept t (searching.beside s mem t target source), fun u mem => ?_, fun u mem source => ?_, ?_,
    fun u mem v here => ?_, fun u here outside notSink' enters v target free => ?_⟩
  · rcases cases' s with ⟨-, same⟩ | ⟨new, -⟩ | ⟨-, -, same⟩
    · exact same ▸ searching.source s mem
    · exact absurd mem (notSource s new)
    · exact .inr same
  · rcases cases' v with ⟨-, same⟩ | ⟨-, same⟩ | ⟨-, -, same⟩
    · exact searching.only v (same ▸ here)
    · omega
    · exact absurd (here.symm.trans same) zero
  · rcases cases' v with ⟨old, same⟩ | ⟨new, same⟩ | ⟨-, -, same⟩
    · obtain ⟨u, notSink, target, free, parent⟩ := searching.parent v other old
      have bounded := searching.le v
      exact ⟨u, notSink, target, free, by rw [relaxed.kept u (by omega), same, parent]⟩
    · obtain ⟨-, -, target, free⟩ := relaxed.found v new
      exact ⟨node, notSink, target, free, by rw [relaxed.kept node valid, same]⟩
    · exact absurd same here
  · have bounded := searching.le v
    rcases cases' v with ⟨-, same⟩ | ⟨new, same⟩ | ⟨-, -, same⟩
    · exact same ▸ bounded
    · have room := searching.room valid (relaxed.found v new).1
      omega
    · exact same.le
  · rcases mem_append.1 mem with old | new
    · exact inQueue u old ▸ searching.valid u (mem_cons_of_mem _ old)
    · obtain ⟨left, same, -⟩ := relaxed.found u new
      rw [same]
      exact (searching.room valid left).ne
  · rcases mem_append.1 mem with old | new
    · exact searching.entered u (mem_cons_of_mem _ old) source
    · exact absurd source (notSource u new)
  · rw [pairwise_append]
    refine ⟨sorted.imp_of_mem fun {u v} memU memV le => ?_, ?_, fun u memU v memV => ?_⟩
    · rwa [inQueue u memU, inQueue v memV]
    · apply pairwise_of_forall_mem_list
      intro u memU v memV
      rw [(relaxed.found u memU).2.1, (relaxed.found v memV).2.1]
    · rw [inQueue u memU, (relaxed.found v memV).2.1]
      exact near u (searching.valid u (mem_cons_of_mem _ memU))
  · have bound := low v here
    rcases mem_append.1 mem with old | new
    · have least := first u old
      rw [inQueue u old]
      omega
    · rw [(relaxed.found u new).2.1]
      omega
  · have notPushed : u ∉ pushed := fun mem => outside (mem_append_right _ mem)
    rcases cases' u with ⟨old, -⟩ | ⟨new, -⟩ | ⟨-, -, same⟩
    · by_cases self : u = node
      · subst self
        exact relaxed.all v target free
      · have before := searching.closed u old (fun mem => ?_) notSink' enters v target free
        · rwa [relaxed.kept v before]
        · rcases mem_cons.1 mem with same | mem
          · exact self same
          · exact outside (mem_append_left _ mem)
    · exact absurd new notPushed
    · exact absurd same here

/-- A sink is taken from the queue without looking at its edges. -/
theorem Searching.drop (sink : node ∈ sinks) :
    Searching view sources sinks flow levels queue where
  toLayered := searching.toLayered
  start := searching.start
  beside := searching.beside
  valid u mem := searching.valid u (mem_cons_of_mem _ mem)
  entered u mem := searching.entered u (mem_cons_of_mem _ mem)
  sorted := (pairwise_cons.1 searching.sorted).2
  near u mem := searching.near u (mem_cons_of_mem _ mem)
  closed u here outside notSink := searching.closed u here (fun mem => by
    rcases mem_cons.1 mem with same | mem
    · exact notSink (same ▸ sink)
    · exact outside mem) notSink

omit searching in
theorem nextLevel_eq (valid : level < invalidLevel) : nextLevel level = level + 1 := by
  rw [nextLevel, Nat.mod_eq_of_lt]
  simp only [invalidLevel] at valid
  omega

theorem Searching.step :
    Searching view sources sinks flow (relaxNode view sinks flow levels node).1 (queue ++ (relaxNode view sinks flow levels node).2) ∧
      (relaxNode view sinks flow levels node).2.length + unvisited (relaxNode view sinks flow levels node).1 = unvisited levels := by
  have valid := searching.valid node mem_cons_self
  rw [relaxNode]
  split
  · next sink =>
    rw [append_nil]
    exact ⟨searching.drop (contains_iff_mem.1 sink), Nat.zero_add _⟩
  · next notSink =>
    rw [nextLevel_eq (lt_of_le_of_ne (searching.le node) valid)]
    have relaxed : Relaxed flow node (levels node + 1) (view.edges node) levels _ _ :=
      relaxed_foldl (searching.near node mem_cons_self) (fun v left => searching.room valid left) (view.edges node)
    exact ⟨searching.relax (fun mem => notSink (contains_iff_mem.2 mem)) relaxed, relaxed.count⟩

end Step

/-- The queue is worked off. -/
theorem Searching.run : ∀ {fuel : ℕ} {levels : LevelGraph n} {queue : List (Fin n)},
    Searching view sources sinks flow levels queue → queue.length + unvisited levels ≤ fuel →
      ∃ final, relaxAll view sinks flow fuel levels queue = some final ∧ Searching view sources sinks flow final []
  | fuel, levels, [], searching, _ => ⟨levels, by rw [relaxAll], searching⟩
  | 0, levels, node :: queue, _, enough => by
    rw [length_cons] at enough
    omega
  | fuel + 1, levels, node :: queue, searching, enough => by
    obtain ⟨next, count⟩ := searching.step
    refine next.run ?_
    rw [length_cons] at enough
    rw [length_append]
    omega

end Queue

/-! ### The start -/

theorem foldl_zero_apply (sources : List (Fin n)) (v : Fin n) : ∀ (targets : List (Fin n)) (levels : LevelGraph n),
    targets.foldl (fun levels target => if sources.contains target then update levels target 0 else levels) levels v =
      if v ∈ targets ∧ v ∈ sources then 0 else levels v
  | [], levels => by simp
  | target :: targets, levels => by
    rw [foldl_cons, foldl_zero_apply sources v targets]
    by_cases here : v = target
    · subst here
      by_cases source : v ∈ sources <;> simp [source]
    · by_cases source : target ∈ sources <;> simp [source, here]

theorem initialLevels_apply (v : Fin n) : initialLevels view (border view sources) sources v =
    if ∃ s ∈ border view sources, v = s ∨ (v ∈ view.edges s ∧ v ∈ sources) then 0 else invalidLevel := by
  have steps : ∀ (nodes : List (Fin n)) (levels : LevelGraph n), nodes.foldl (fun levels node =>
      (view.edges node).foldl (fun levels target => if sources.contains target then update levels target 0 else levels)
        (update levels node 0)) levels v =
      if ∃ s ∈ nodes, v = s ∨ (v ∈ view.edges s ∧ v ∈ sources) then 0 else levels v := by
    intro nodes
    induction nodes with
    | nil => simp
    | cons node nodes ih =>
      intro levels
      rw [foldl_cons, ih, foldl_zero_apply, update_apply]
      simp only [exists_mem_cons_iff]
      by_cases later : ∃ s ∈ nodes, v = s ∨ (v ∈ view.edges s ∧ v ∈ sources)
      · rw [if_pos later, if_pos (.inr later)]
      · simp only [later]
        split_ifs <;> tauto
  exact steps _ _

theorem searching_initial : Searching view sources sinks flow (initialLevels view (border view sources) sources)
    (border view sources) := by
  have zero : (0 : ℕ) ≠ invalidLevel := by decide
  have borderSource : ∀ s ∈ border view sources, s ∈ sources := fun s mem => (mem_border.1 mem).1
  have start : ∀ s ∈ border view sources, initialLevels view (border view sources) sources s = 0 := fun s mem => by
    rw [initialLevels_apply, if_pos ⟨s, mem, .inl rfl⟩]
  have either (v : Fin n) : (initialLevels view (border view sources) sources v = 0 ∧ v ∈ sources) ∨
      initialLevels view (border view sources) sources v = invalidLevel := by
    rw [initialLevels_apply]
    split_ifs with found
    · obtain ⟨s, mem, rfl | ⟨-, source⟩⟩ := found
      · exact .inl ⟨rfl, borderSource v mem⟩
      · exact .inl ⟨rfl, source⟩
    · exact .inr rfl
  have atZero {v : Fin n} (valid : initialLevels view (border view sources) sources v ≠ invalidLevel) :
      initialLevels view (border view sources) sources v = 0 ∧ v ∈ sources := (either v).resolve_right valid
  refine ⟨⟨fun s _ => (either s).imp And.left id, fun v here => ?_, fun v other valid => absurd (atZero valid).2 other, fun v => ?_⟩,
    start, fun s mem t target source => ?_, fun u mem => (start u mem).symm ▸ zero, fun u mem _ => mem, ?_, fun u mem v valid => ?_,
    fun u valid outside _ enters => absurd (enters (atZero valid).2) outside⟩
  · exact (atZero (here.symm ▸ zero)).2
  · rcases either v with ⟨here, -⟩ | here
    · exact here.symm ▸ Nat.zero_le _
    · exact here.le
  · rw [initialLevels_apply, if_pos ⟨s, mem, .inr ⟨target, source⟩⟩]
  · apply pairwise_of_forall_mem_list
    intro u memU v memV
    rw [start u memU, start v memV]
  · rw [(atZero valid).1]
    exact Nat.zero_le _

variable (view sources sinks flow) in
/-- **The levels of a round.** -/
theorem computeLevelGraph_eq : ∃ levels, computeLevelGraph view (border view sources) sources sinks flow = some levels ∧
    Searching view sources sinks flow levels [] := by
  have few : unvisited (initialLevels view (border view sources) sources) ≤ n := by
    exact (Finset.card_filter_le _ _).trans (by rw [Finset.card_univ, Fintype.card_fin])
  exact searching_initial.run (Nat.add_le_add_left few _)

end Osrm.Partitioner.DinicMaxFlow
