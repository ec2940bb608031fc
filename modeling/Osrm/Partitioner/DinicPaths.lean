import Osrm.Partitioner.DinicLevels

/-!
# Augmenting paths

The depth-first search of `GetAugmentingPath` goes down the levels, from a sink to a source. The path
it returns can be augmented; where the levels are still those of the breadth-first search, no node is
a dead end and a path is found.
-/

namespace Osrm.Partitioner.DinicMaxFlow

open Function List Prod

open Lib UnitFlow

variable {n : ℕ} {view : BisectionGraphView n} {sources sinks : List (Fin n)} {flow : FlowEdges n} {levels : LevelGraph n}
  {sink : Fin n}

def Adjacent (view : BisectionGraphView n) (u v : Fin n) : Prop := v ∈ view.edges u

instance : DecidableRel (Adjacent view) := fun u v => inferInstanceAs (Decidable (v ∈ view.edges u))

/-- Levels as the searches of a round leave them. -/
structure Bounded (sources : List (Fin n)) (levels : LevelGraph n) : Prop where
  only : ∀ v, levels v = 0 → v ∈ sources
  le : ∀ v, levels v ≤ invalidLevel

theorem Layered.bounded (layered : Layered view sources sinks flow levels) : Bounded sources levels := ⟨layered.only, layered.le⟩

theorem Bounded.backtrack (bounded : Bounded sources levels) (node : Fin n) :
    Bounded sources (update levels node invalidLevel) := by
  refine ⟨fun v zero => ?_, fun v => ?_⟩
  · rw [update_apply] at zero
    split at zero
    · exact absurd zero (by decide)
    · exact bounded.only v zero
  · rw [update_apply]
    split
    · exact le_rfl
    · exact bounded.le v

/-- Outside the sources a descending edge leads to a level that is one less: the level after the invalid one is 0. -/
theorem Bounded.descends (bounded : Bounded sources levels) {node target : Fin n} (notSource : node ∉ sources)
    (descends : nextLevel (levels target) = levels node) : levels target + 1 = levels node := by
  by_cases valid : levels target < invalidLevel
  · rwa [nextLevel_eq valid] at descends
  · have invalid := le_antisymm (bounded.le target) (not_lt.1 valid)
    rw [invalid] at descends
    exact absurd (bounded.only node descends.symm) notSource

/-! ### The search -/

variable (view sources flow sink) in
/-- The path of the search, its last node first, and the edges that are left at each node. -/
structure OnPath (levels : LevelGraph n)
    (frames : List (Fin n × List (Fin n))) : Prop extends Bounded sources levels where
  chain : (frames.map fst).IsChain fun u v => (Adjacent view u v ∧ v ∉ flow u) ∧ levels u + 1 = levels v
  outside : ∀ u ∈ frames.map fst, u ∉ sources ∧ levels u ≠ invalidLevel
  left : ∀ frame ∈ frames, ∀ target ∈ frame.2, target ∈ view.edges frame.1
  last : ∀ u, (frames.map fst).getLast? = some u → u = sink

variable (view levels) in
/-- The steps that are left to the search. -/
def stepsLeft (frames : List (Fin n × List (Fin n))) : ℕ :=
  ∑ v ∈ (Finset.univ.filter fun v => levels v ≠ invalidLevel) \ (frames.map fst).toFinset, ((view.edges v).length + 2) +
    (frames.map fun frame => frame.2.length + 1).sum

variable (view sources flow sink) in
/-- What a search returns: no path, or one that can be augmented from a source to the sink, whose level stays. -/
structure Found (levels : LevelGraph n)
    (path : List (Fin n)) : Prop extends Bounded sources levels where
  path : path = [] ∨ ∃ source rest, path = source :: rest ∧ source ∈ sources ∧ Augmenting (Adjacent view) flow path ∧
    path.getLast? = some sink ∧ levels sink ≠ invalidLevel

section Search

variable {node target : Fin n} {rest : List (Fin n)} {frames : List (Fin n × List (Fin n))}

/-- Levels rise along the path. -/
theorem OnPath.rising (onPath : OnPath view sources flow sink levels frames) :
    (frames.map fst).Pairwise fun u v => levels u < levels v := by
  have step := onPath.chain.imp fun {u v} here => (by omega : levels u < levels v)
  exact (isChain_iff_pairwise (R := fun u v => levels u < levels v)).1 step

section Top

variable (onPath : OnPath view sources flow sink levels ((node, target :: rest) :: frames))

include onPath

/-- An edge that leads nowhere is skipped. -/
theorem OnPath.skip :
    OnPath view sources flow sink levels ((node, rest) :: frames) := by
  refine ⟨onPath.toBounded, onPath.chain, onPath.outside, fun frame mem edge here => ?_, onPath.last⟩
  rcases mem_cons.1 mem with rfl | mem
  · exact onPath.left _ mem_cons_self edge (mem_cons_of_mem _ here)
  · exact onPath.left frame (mem_cons_of_mem _ mem) edge here

/-- An edge down the levels leads to the next node. -/
theorem OnPath.push (capacity : node ∉ flow target) (descends : levels target + 1 = levels node) (notSource : target ∉ sources) :
    OnPath view sources flow sink levels ((target, view.edges target) :: (node, rest) :: frames) := by
  have edge := onPath.left _ mem_cons_self target mem_cons_self
  have bound := onPath.le node
  refine ⟨onPath.toBounded, ?_, fun u mem => ?_, fun frame mem edge here => ?_, fun u last => onPath.last u ?_⟩
  · exact isChain_cons_cons.2 ⟨⟨⟨view.symmetric node target edge, capacity⟩, descends⟩, onPath.skip.chain⟩
  · rcases mem_cons.1 mem with rfl | mem
    · exact ⟨notSource, by omega⟩
    · exact onPath.outside u mem
  · rcases mem_cons.1 mem with rfl | mem
    · exact here
    · exact onPath.skip.left frame mem edge here
  · rwa [map_cons, map_cons, getLast?_cons_cons] at last

omit onPath in
theorem OnPath.not_mem (onPath : OnPath view sources flow sink levels ((node, rest) :: frames)) {u : Fin n}
    (lower : levels u < levels node) : u ∉ ((node, rest) :: frames).map fst := by
  obtain ⟨first, -⟩ := pairwise_cons.1 onPath.rising
  intro mem
  rcases mem_cons.1 mem with rfl | mem
  · exact lt_irrefl _ lower
  · exact lt_asymm lower (first u mem)

omit onPath in
/-- A dead end is left, without a level. -/
theorem OnPath.pop (onPath : OnPath view sources flow sink levels ((node, []) :: frames)) :
    OnPath view sources flow sink (update levels node invalidLevel) frames := by
  obtain ⟨first, -⟩ := pairwise_cons.1 onPath.rising
  have same : ∀ u ∈ frames.map fst, update levels node invalidLevel u = levels u := fun u mem =>
    update_of_ne (fun here => lt_irrefl _ (here ▸ first u mem)) ..
  refine ⟨onPath.toBounded.backtrack node, ?_, fun u mem => ?_, fun frame mem => onPath.left frame (mem_cons_of_mem _ mem),
    fun u last => onPath.last u ?_⟩
  · refine onPath.chain.tail.imp_of_mem_imp fun u v memU memV here => ?_
    rwa [same u memU, same v memV]
  · rw [same u mem]
    exact onPath.outside u (mem_cons_of_mem _ mem)
  · rw [map_cons]
    cases path : frames.map fst with
    | nil =>
      rw [path] at last
      cases last
    | cons v path' =>
      rw [getLast?_cons_cons, ← path]
      exact last

/-- A path that has come to a source can be augmented. -/
theorem OnPath.found (capacity : node ∉ flow target) (source : target ∈ sources) :
    Found view sources flow sink levels (target :: node :: frames.map fst) := by
  have edge := onPath.left _ mem_cons_self target mem_cons_self
  have fresh : target ∉ node :: frames.map fst := fun mem => (onPath.outside target mem).1 source
  have distinct : (node :: frames.map fst).Nodup := onPath.rising.imp fun {u v} (less : levels u < levels v) (same : u = v) =>
    lt_irrefl _ (same ▸ less)
  have chain := onPath.chain.imp fun {u v} here => here.1
  obtain ⟨last, here⟩ : ∃ last, (node :: frames.map fst).getLast? = some last := ⟨_, getLast?_eq_getLast_of_ne_nil (by simp)⟩
  obtain rfl := onPath.last last here
  refine ⟨onPath.toBounded, .inr ⟨target, _, rfl, source, ⟨nodup_cons.2 ⟨fresh, distinct⟩, ?_⟩, ?_, ?_⟩⟩
  · exact isChain_cons_cons.2 ⟨⟨view.symmetric node target edge, capacity⟩, chain⟩
  · exact here
  · exact (onPath.outside last (mem_of_getLast? here)).2

end Top

theorem stepsLeft_skip : stepsLeft view levels ((node, target :: rest) :: frames) =
    stepsLeft view levels ((node, rest) :: frames) + 1 := by
  simp only [stepsLeft, map_cons, sum_cons, length_cons]
  omega

theorem stepsLeft_push (valid : levels target ≠ invalidLevel) (fresh : target ∉ ((node, rest) :: frames).map fst) :
    stepsLeft view levels ((target, view.edges target) :: (node, rest) :: frames) < stepsLeft view levels ((node, rest) :: frames) := by
  have one : (Finset.univ.filter fun v => levels v ≠ invalidLevel) \ (((node, rest) :: frames).map fst).toFinset =
      insert target ((Finset.univ.filter fun v => levels v ≠ invalidLevel) \
        (((target, view.edges target) :: (node, rest) :: frames).map fst).toFinset) := by
    ext v
    by_cases here : v = target
    · subst here
      simpa using ⟨valid, by simpa using fresh⟩
    · simp [here]
  have added (edges : List (Fin n)) (frames : List (Fin n × List (Fin n))) :
      (((target, edges) :: frames).map fun frame => frame.2.length + 1).sum =
        edges.length + 1 + (frames.map fun frame => frame.2.length + 1).sum := by rw [map_cons, sum_cons]
  rw [stepsLeft, stepsLeft, one, Finset.sum_insert (by simp), added]
  omega

variable (frames node) in
theorem stepsLeft_pop : stepsLeft view levels ((node, []) :: frames) =
    stepsLeft view (update levels node invalidLevel) frames + 1 := by
  have same : (Finset.univ.filter fun v => levels v ≠ invalidLevel) \ (((node, ([] : List (Fin n))) :: frames).map fst).toFinset =
      (Finset.univ.filter fun v => update levels node invalidLevel v ≠ invalidLevel) \
        (frames.map fst).toFinset := by
    ext v
    by_cases here : v = node
    · subst here
      simp
    · simp [here]
  rw [stepsLeft, stepsLeft, same, map_cons, sum_cons, length_nil]
  omega

/-- The search comes to an end. -/
theorem OnPath.search : ∀ {fuel : ℕ} {levels : LevelGraph n} {frames : List (Fin n × List (Fin n))},
    OnPath view sources flow sink levels frames → stepsLeft view levels frames ≤ fuel →
      ∃ levels' path, searchPath view flow sources fuel levels frames = some (levels', path) ∧
        Found view sources flow sink levels' path
  | fuel, levels, [], onPath, _ => ⟨levels, [], by rw [searchPath], onPath.toBounded, .inl rfl⟩
  | 0, levels, (node, rest) :: frames, _, enough => by
    rw [stepsLeft, map_cons, map_cons, sum_cons] at enough
    omega
  | fuel + 1, levels, (node, []) :: frames, onPath, enough => by
    rw [stepsLeft_pop] at enough
    exact onPath.pop.search (by omega)
  | fuel + 1, levels, (node, target :: rest) :: frames, onPath, enough => by
    rw [stepsLeft_skip] at enough
    rw [searchPath]
    split
    · next valid =>
      obtain ⟨capacity, next⟩ := valid
      have descends := onPath.descends (onPath.outside node mem_cons_self).1 next
      split
      · next source => exact ⟨levels, _, rfl, onPath.found capacity (contains_iff_mem.1 source)⟩
      · next notSource =>
        have pushed := onPath.push capacity descends fun mem => notSource (contains_iff_mem.2 mem)
        have fewer : stepsLeft view levels ((target, view.edges target) :: (node, rest) :: frames) <
            stepsLeft view levels ((node, rest) :: frames) :=
          stepsLeft_push (pushed.outside target mem_cons_self).2 (onPath.skip.not_mem (by omega))
        exact pushed.search (by omega)
    · exact onPath.skip.search (by omega)

/-- Where a node is still to be taken from the edges of the last node, the search finds a source: every node it comes to has one
of the level below next to it. -/
theorem Layered.search (layered : Layered view sources sinks flow levels) :
    ∀ {fuel : ℕ} {node : Fin n} {rest : List (Fin n)} {frames : List (Fin n × List (Fin n))} {levels' : LevelGraph n}
      {path : List (Fin n)}, (∃ target ∈ rest, node ∉ flow target ∧ nextLevel (levels target) = levels node) →
      node ∉ sources → searchPath view flow sources fuel levels ((node, rest) :: frames) = some (levels', path) → path ≠ []
  | 0, node, rest, frames, levels', path, _, _, found => by
    cases found
  | fuel + 1, node, [], frames, levels', path, ahead, _, _ => by
    obtain ⟨target, mem, -⟩ := ahead
    exact absurd mem not_mem_nil
  | fuel + 1, node, target :: rest, frames, levels', path, ahead, notSource, found => by
    rw [searchPath] at found
    split at found
    · next valid =>
      obtain ⟨capacity, next⟩ := valid
      split_ifs at found with other
      · cases found
        exact cons_ne_nil _ _
      · have outside : target ∉ sources := fun mem => other (contains_iff_mem.2 mem)
        have descends := layered.bounded.descends notSource next
        have bound := layered.le node
        obtain ⟨parent, -, edge, free, below⟩ := layered.parent target outside (by omega)
        refine layered.search ⟨parent, view.symmetric parent target edge, free, ?_⟩ outside found
        rw [nextLevel_eq (by omega), below]
    · next invalid =>
      obtain ⟨target', mem, capacity⟩ := ahead
      rcases mem_cons.1 mem with rfl | mem
      · exact absurd capacity invalid
      · exact layered.search ⟨target', mem, capacity⟩ notSource found

end Search

variable (sinks) in
/-- **Augmenting paths**: the search from a sink with a level ends. What it returns can be augmented, and it returns a path where
the levels are those of the breadth-first search. -/
theorem getAugmentingPath_eq (bounded : Bounded sources levels) (notSource : sink ∉ sources) (valid : levels sink ≠ invalidLevel) :
    ∃ levels' path, getAugmentingPath view levels sink flow sources = some (levels', path) ∧
      Found view sources flow sink levels' path ∧ (Layered view sources sinks flow levels → path ≠ []) := by
  have start : OnPath view sources flow sink levels [(sink, view.edges sink)] := by
    refine ⟨bounded, isChain_singleton _, fun u mem => ?_, fun frame mem target here => ?_, fun u last => ?_⟩
    · obtain rfl := mem_singleton.1 mem
      exact ⟨notSource, valid⟩
    · obtain rfl := mem_singleton.1 mem
      exact here
    · cases last
      rfl
  have enough : stepsLeft view levels [(sink, view.edges sink)] ≤ searchSteps view := by
    rw [stepsLeft, searchSteps, ← Finset.add_sum_erase _ _ (Finset.mem_univ sink), map_singleton, map_singleton,
      sum_singleton]
    dsimp only
    have others : ∑ v ∈ (Finset.univ.filter fun v => levels v ≠ invalidLevel) \ [sink].toFinset, ((view.edges v).length + 2) ≤
        ∑ v ∈ Finset.univ.erase sink, ((view.edges v).length + 2) := by
      refine Finset.sum_le_sum_of_subset fun v mem => ?_
      rw [Finset.mem_erase]
      refine ⟨fun same => (Finset.mem_sdiff.1 mem).2 ?_, Finset.mem_univ v⟩
      exact mem_toFinset.2 (mem_singleton.2 same)
    omega
  obtain ⟨levels', path, found, spec⟩ := start.search enough
  refine ⟨levels', path, found, spec, fun layered => ?_⟩
  obtain ⟨parent, -, edge, free, below⟩ := layered.parent sink notSource valid
  have bound := layered.le sink
  refine layered.search ⟨parent, view.symmetric parent sink edge, free, ?_⟩ notSource found
  rw [nextLevel_eq (by omega), below]

end Osrm.Partitioner.DinicMaxFlow
