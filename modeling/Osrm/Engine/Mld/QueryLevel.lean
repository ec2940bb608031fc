import Osrm.Engine.Mld.Overlay
import Osrm.Partitioner.PackedPartition

/-!
# Query levels

The level at which a node is expanded is a minimum over the segments of the phantoms: for each, the
highest level at which the node's cell differs from the segment's. Two nodes in one cell at such a
level differ from every segment at the same highest level, so they have the same query level.

The search that comes from the target relaxes a column of a cell from its exit; the packed path lists
the step with its entry as the source, and `search` computes level and cell anew from there.
-/

namespace Osrm.Mld

open Lib Lib.KeyedQueue CellStorage MultiLevelPartition

variable {n : ℕ}

section Levels

variable (P : MultiLevelPartition n) (node : Fin n)

/-- `getNodeQueryLevel` for `PhantomCandidatesToTarget` -/
def toTargetLevel (candidates : PhantomCandidatesToTarget (Fin n)) : ℕ :=
  candidates.sourcePhantoms.foldl (fun currentLevel source =>
    min currentLevel (phantomLevel P node source candidates.targetPhantom)) invalidLevelId

def differentLevel (segment : SegmentID (Fin n)) : ℕ :=
  if segment.enabled then P.highestDifferentLevel segment.id node else invalidLevelId

/-- `getNodeQueryLevel` for `PhantomNodeCandidates` -/
def nodeCandidatesLevel (candidates : List (PhantomNode (Fin n))) : ℕ :=
  candidates.foldl (fun currentLevel phantomNode =>
    let highestLevel := min (differentLevel P node phantomNode.forwardSegmentId) (differentLevel P node phantomNode.reverseSegmentId)
    min currentLevel highestLevel) invalidLevelId

/-- `getNodeQueryLevel` for one phantom of a list and several others -/
def indicesLevel (candidatesList : List (List (PhantomNode (Fin n)))) (phantomIndex : ℕ) (phantomIndices : List ℕ) : ℕ :=
  phantomIndices.foldl (fun level index => min level (nodeCandidatesLevel P node (candidatesList.getD index [])))
    (nodeCandidatesLevel P node (candidatesList.getD phantomIndex []))

end Levels

/-- The collections of phantoms that `getNodeQueryLevel` takes. -/
inductive Phantoms (n : ℕ)
  | endpoints (source target : PhantomNode (Fin n))
  | toTarget (candidates : PhantomCandidatesToTarget (Fin n))
  | endpointCandidates (candidates : PhantomEndpointCandidates (Fin n))
  | nodeCandidates (candidates : List (PhantomNode (Fin n)))
  | indices (candidatesList : List (List (PhantomNode (Fin n)))) (phantomIndex : ℕ) (phantomIndices : List ℕ)

/-- `getNodeQueryLevel` of a collection of phantoms -/
def Phantoms.level (P : MultiLevelPartition n) (node : Fin n) : Phantoms n → ℕ
  | .endpoints source target => phantomLevel P node source target
  | .toTarget candidates => toTargetLevel P node candidates
  | .endpointCandidates candidates => candidatesLevel P node candidates
  | .nodeCandidates candidates => nodeCandidatesLevel P node candidates
  | .indices candidatesList phantomIndex phantomIndices => indicesLevel P node candidatesList phantomIndex phantomIndices

/-! ### Levels that are steady -/

/-- Nodes of one cell have the same value when it is at least the level of the cell. Above all levels there are no cells. -/
def Steady (P : MultiLevelPartition n) (f : Fin n → ℕ) : Prop :=
  ∀ u v l, 1 ≤ l → (l < P.numLevels → P.SameCell l u v) → l ≤ f u → f v = f u

section Steady

variable {P : MultiLevelPartition n} {f g : Fin n → ℕ}

theorem steady_const (k : ℕ) : Steady P fun _ => k := fun _ _ _ _ _ _ => Eq.refl k

theorem steady_highestDifferentLevel (t : Fin n) : Steady P (P.highestDifferentLevel t) := by
  intro u v l one same le
  have bound := P.highestDifferentLevel_le (u := t) (v := u)
  have lt : l < P.numLevels := by omega
  exact highestDifferentLevel_congr one lt (same lt) le

theorem Steady.min (first : Steady P f) (second : Steady P g) : Steady P fun u => min (f u) (g u) := by
  intro u v l one same le
  obtain ⟨lower, upper⟩ := le_min_iff.1 le
  dsimp only
  rw [first u v l one same lower, second u v l one same upper]

theorem Steady.foldl {β : Type} {step : ℕ → β → Fin n → ℕ}
    (keeps : ∀ {acc : Fin n → ℕ} (x : β), Steady P acc → Steady P fun u => step (acc u) x u) :
    ∀ (list : List β) {start : Fin n → ℕ}, Steady P start → Steady P fun u => list.foldl (fun acc x => step acc x u) (start u)
  | [], _, steady => steady
  | x :: list, _, steady => Steady.foldl keeps list (keeps x steady)

theorem steady_segmentLevel (source target : SegmentID (Fin n)) : Steady P fun u => segmentLevel P u source target := by
  unfold segmentLevel
  split
  · exact (steady_highestDifferentLevel _).min (steady_highestDifferentLevel _)
  · exact steady_const _

theorem steady_phantomLevel (source target : PhantomNode (Fin n)) : Steady P fun u => phantomLevel P u source target :=
  ((steady_segmentLevel _ _).min (steady_segmentLevel _ _)).min ((steady_segmentLevel _ _).min (steady_segmentLevel _ _))

theorem steady_candidatesLevel (candidates : PhantomEndpointCandidates (Fin n)) :
    Steady P fun u => candidatesLevel P u candidates := by
  apply Steady.foldl _ candidates.sourcePhantoms (steady_const invalidLevelId)
  intro acc source steady
  apply steady.min
  apply Steady.foldl _ candidates.targetPhantoms steady
  intro acc target steady
  exact steady.min (steady_phantomLevel source target)

theorem steady_toTargetLevel (candidates : PhantomCandidatesToTarget (Fin n)) : Steady P fun u => toTargetLevel P u candidates := by
  apply Steady.foldl _ candidates.sourcePhantoms (steady_const invalidLevelId)
  intro acc source steady
  exact steady.min (steady_phantomLevel source candidates.targetPhantom)

theorem steady_differentLevel (segment : SegmentID (Fin n)) : Steady P fun u => differentLevel P u segment := by
  unfold differentLevel
  split
  · exact steady_highestDifferentLevel _
  · exact steady_const _

theorem steady_nodeCandidatesLevel (candidates : List (PhantomNode (Fin n))) :
    Steady P fun u => nodeCandidatesLevel P u candidates := by
  apply Steady.foldl _ candidates (steady_const invalidLevelId)
  intro acc phantomNode steady
  exact steady.min ((steady_differentLevel _).min (steady_differentLevel _))

theorem Phantoms.steady (phantoms : Phantoms n) : Steady P fun u => phantoms.level P u := by
  cases phantoms with
  | endpoints source target => exact steady_phantomLevel source target
  | toTarget candidates => exact steady_toTargetLevel candidates
  | endpointCandidates candidates => exact steady_candidatesLevel candidates
  | nodeCandidates candidates => exact steady_nodeCandidatesLevel candidates
  | indices candidatesList phantomIndex phantomIndices =>
    apply Steady.foldl _ phantomIndices (steady_nodeCandidatesLevel _)
    intro acc index steady
    exact steady.min (steady_nodeCandidatesLevel _)

theorem steady_getNodeQueryLevel (args : Args n) : Steady P fun u => getNodeQueryLevel P u args := by
  cases args with
  | candidates endpoints => exact steady_candidatesLevel endpoints
  | restricted level _ => exact steady_const level

theorem Steady.eq (steady : Steady P f) {u v : Fin n} (one : 1 ≤ f u) (same : P.cell (f u) u = P.cell (f u) v) : f v = f u :=
  steady u v (f u) one (fun _ => (sameCell_pos one).2 same) le_rfl

end Steady

/-! ### Steps along a column -/

section Columns

variable {F : Facade n} {args : Args n} {dir : Bool} {heap : QueryHeap n}

/-- A label that was reached along a row or column was offered by its parent, from its cell at its query level. -/
def FromCell (F : Facade n) (args : Args n) (dir : Bool) (label : Label (Fin n) (HeapData n)) : Prop :=
  label.data.fromCliqueArc = true → 1 ≤ level F args label.data.parent ∧
    ∃ value, (label.node, value) ∈ shortcuts F dir (level F args label.data.parent) label.data.parent

theorem cell_shortcuts {l : ℕ} {u : Fin n} {shortcut : Fin n × CellValue} (mem : shortcut ∈ shortcuts F dir l u) :
    F.partition.cell l shortcut.1 = F.partition.cell l u := by
  rw [shortcuts] at mem
  split at mem
  · exact (mem_destinationNodes.1 (List.of_mem_zip mem).1).1
  · exact (mem_sourceNodes.1 (List.of_mem_zip mem).1).1

theorem fromCell_allOffers {add : ℤ → ℤ → ℤ} {p o : Label (Fin n) (HeapData n)} (mem : o ∈ allOffers F args dir add p) : FromCell F args dir o := by
  intro arc
  rw [allOffers, List.mem_append] at mem
  rcases mem with row | edge
  · split_ifs at row with high
    · obtain ⟨shortcut, listed, rfl⟩ := List.mem_map.1 row
      rw [Bool.and_eq_true, decide_eq_true_iff] at high
      exact ⟨high.1, shortcut.2, (List.mem_filter.1 listed).1⟩
    · exact absurd row List.not_mem_nil
  · obtain ⟨e, _, rfl⟩ := List.mem_map.1 edge
    cases arc

variable (F args dir heap) in
abbrev AllFromCell : Prop :=
  ∀ e ∈ heap.entries, FromCell F args dir e.toLabel

theorem allFromCell_foldl : ∀ (offered : List (Label (Fin n) (HeapData n))) {heap : QueryHeap n},
    (∀ o ∈ offered, FromCell F args dir o) → AllFromCell F args dir heap →
      AllFromCell F args dir (offered.foldl (relax lighter) heap)
  | [], _, _, all => all
  | o :: offered, _, good, all =>
    allFromCell_foldl offered (fun o' mem => good o' (List.mem_cons_of_mem _ mem))
      (relax_labels all (good o List.mem_cons_self))

theorem allFromCell_routingStep (forceForward forceReverse : List (Fin n)) (other : QueryHeap n) (best : Meeting n)
    (all : AllFromCell F args dir heap) :
    AllFromCell F args dir (routingStep F dir forceForward forceReverse args heap other best).1 := by
  rw [routingStep]
  split
  · exact all
  · next heapNode _ =>
    rw [relaxOutgoingEdges_eq]
    apply allFromCell_foldl
    · intro o mem
      exact fromCell_allOffers mem
    · exact dequeue_labels all heapNode.node

/-- The labels of the search from the target, in every state of the loop. -/
theorem allFromCell_searchLoop (forceForward forceReverse : List (Fin n)) : ∀ (fuel : ℕ) (st : SearchState n),
    AllFromCell F args false st.reverse →
      AllFromCell F args false (searchLoop F forceForward forceReverse args fuel st).reverse
  | 0, _, all => all
  | fuel + 1, st, all => by
    rw [searchLoop]
    split
    · apply allFromCell_searchLoop
      rw [reverseStep]
      have kept : (forwardStep F forceForward forceReverse args st).reverse = st.reverse := by
        rw [forwardStep]
        split <;> rfl
      split
      · rwa [kept]
      · rw [kept]
        exact allFromCell_routingStep _ _ _ _ all
    · exact all

/-- A step of the packed path from the middle node to the target is a label of the heap. -/
theorem mem_retrievePackedPath {step : PackedEdge n} : ∀ {fuel : ℕ} {current : Fin n},
    step ∈ retrievePackedPath false heap fuel current →
      ∃ e ∈ heap.entries, step = (e.node, e.data.parent, e.data.fromCliqueArc)
  | 0, _, mem => absurd mem List.not_mem_nil
  | fuel + 1, current, mem => by
    rw [retrievePackedPath] at mem
    split at mem
    · exact absurd mem List.not_mem_nil
    · next e found =>
      split at mem
      · exact absurd mem List.not_mem_nil
      · obtain ⟨inside, here⟩ := find?_mem found
        rcases List.mem_cons.1 mem with rfl | later
        · exact ⟨e, inside, by rw [here]; rfl⟩
        · exact mem_retrievePackedPath later

/-- A step along a column is unpacked on the level and in the cell from which it was relaxed. -/
theorem FromCell.unpackEdge_eq {label : Label (Fin n) (HeapData n)} (fromCell : FromCell F args dir label)
    (arc : label.data.fromCliqueArc = true) (subpath : Fin n → Fin n → Args n → UnpackedPath n)
    (unpacked : List (Fin n) × List (Option (EdgeID n))) :
    unpackEdge F args subpath unpacked (label.node, label.data.parent, true) =
      let level := level F args label.data.parent
      let sub := subpath label.node label.data.parent (.restricted (level - 1) (F.partition.cell level label.data.parent))
      (unpacked.1 ++ sub.nodes.tail, unpacked.2 ++ sub.edges) := by
  obtain ⟨one, value, mem⟩ := fromCell arc
  have cell := cell_shortcuts mem
  have same := (steady_getNodeQueryLevel args).eq one cell.symm
  rw [unpackEdge, if_pos (by trivial)]
  dsimp only
  rw [same, cell]

end Columns

/-- **The query level is constant along a clique arc.** Levels read from the words of a partition are those of its cells; nodes
in one cell at the query level of one of them have the same query level; and a step along a column that the packed path takes
from the search of the target is unpacked with the level and the cell from which it was relaxed. -/
theorem getNodeQueryLevel_constant (packed : PackedPartition n) :
    (∀ start target node, packed.levelData.getQueryLevel (packed.word start) (packed.word target) (packed.word node) =
      packed.unpacked.queryLevel start target node) ∧
    (∀ (phantoms : Phantoms n) (u v : Fin n), 1 ≤ phantoms.level packed.unpacked u →
      packed.unpacked.cell (phantoms.level packed.unpacked u) u = packed.unpacked.cell (phantoms.level packed.unpacked u) v →
        phantoms.level packed.unpacked v = phantoms.level packed.unpacked u) ∧
    ∀ (F : Facade n) (endpoints : PhantomEndpointCandidates (Fin n)) (forceForward forceReverse : List (Fin n))
      (fuel fuel' : ℕ) (st : SearchState n) (middle source target : Fin n)
      (subpath : Fin n → Fin n → Args n → UnpackedPath n) (unpacked : List (Fin n) × List (Option (EdgeID n))),
      F.partition = packed.unpacked → (∀ e ∈ st.reverse.entries, e.data.fromCliqueArc = false) →
      (source, target, true) ∈ retrievePackedPath false
        (searchLoop F forceForward forceReverse (.candidates endpoints) fuel st).reverse fuel' middle →
      ∃ level, level = (Phantoms.endpointCandidates endpoints).level packed.unpacked target ∧ 1 ≤ level ∧
        (∃ value, (source, value) ∈ shortcuts F false level target) ∧
        unpackEdge F (.candidates endpoints) subpath unpacked (source, target, true) =
          let sub := subpath source target (.restricted (level - 1) (packed.unpacked.cell level target))
          (unpacked.1 ++ sub.nodes.tail, unpacked.2 ++ sub.edges) := by
  refine ⟨packed.getQueryLevel_eq, fun phantoms u v one same => phantoms.steady.eq one same, ?_⟩
  intro F endpoints forceForward forceReverse fuel fuel' st middle source target subpath unpacked stored roots listed
  have start : AllFromCell F (.candidates endpoints) false st.reverse := fun e mem arc => by
    rw [roots e mem] at arc
    cases arc
  obtain ⟨e, mem, step⟩ := mem_retrievePackedPath listed
  simp only [Prod.mk.injEq] at step
  obtain ⟨rfl, rfl, arc⟩ := step
  have fromCell := allFromCell_searchLoop forceForward forceReverse fuel st start e mem
  obtain ⟨one, column⟩ := fromCell arc.symm
  have unpackedStep := fromCell.unpackEdge_eq arc.symm subpath unpacked
  simp only [level, stored] at one column unpackedStep
  exact ⟨_, rfl, one, column, unpackedStep⟩

/-- Four nodes in the cells 0, 0, 1 and 2, of which the first two lie in the cell 0 and the last in the cell 1 above. -/
def fourWords (node : Fin 5) : PartitionID := [0, 0, 1, 6, 11].getD node.val 0

def fourLevelData : LevelData := ⟨3, [0, 2, 4], [3, 12], [1, 1] ++ List.replicate 62 2⟩

theorem four_small : ∀ count ∈ [3, 2], count < 2 ^ 32 := by decide

theorem four_made : LevelData.makeLevelData [3, 2] = .ok fourLevelData := by decide

theorem four_fits (node : Fin 5) : (fourWords node).toNat < 2 ^ fourLevelData.lidxToOffset.getD (fourLevelData.numLevel - 1) 0 := by
  revert node
  decide

theorem four_cells (l : ℕ) (u : Fin 4) (one : 1 ≤ l) (lt : l < fourLevelData.numLevel) :
    fourLevelData.getCell l (fourWords u.castSucc) < fourLevelData.getCell l (fourWords (Fin.last 4)) := by
  change l < 3 at lt
  rcases (by omega : l = 1 ∨ l = 2) with rfl | rfl
  · revert u
    decide
  · revert u
    decide

theorem four_nested (l : ℕ) (u v : Fin 4) (one : 1 ≤ l) (lt : l + 1 < fourLevelData.numLevel)
    (same : fourLevelData.getCell l (fourWords u.castSucc) = fourLevelData.getCell l (fourWords v.castSucc)) :
    fourLevelData.getCell (l + 1) (fourWords u.castSucc) = fourLevelData.getCell (l + 1) (fourWords v.castSucc) := by
  change l + 1 < 3 at lt
  obtain rfl : l = 1 := by omega
  revert u v
  decide

def fourPartition : PackedPartition 4 where
  lidxToNumCells := [3, 2]
  small := four_small
  levelData := fourLevelData
  made := four_made
  partition := fourWords
  fits := four_fits
  cells := four_cells
  nested := four_nested

def lastPhantom : PhantomNode (Fin 4) :=
  ⟨⟨Fin.last 3, true⟩, ⟨Fin.last 3, false⟩, 0, 0, 0, 0, 0, 0, 0, 0, true, true, false, false⟩

theorem getNodeQueryLevel_constant_four :
    (Phantoms.endpoints lastPhantom lastPhantom).level fourPartition.unpacked 0 = 2 ∧
      (Phantoms.endpoints lastPhantom lastPhantom).level fourPartition.unpacked 2 = 2 := by
  have first : (Phantoms.endpoints lastPhantom lastPhantom).level fourPartition.unpacked 0 = 2 := by decide
  have same : fourPartition.unpacked.cell 2 0 = fourPartition.unpacked.cell 2 2 := by decide
  refine ⟨first, ?_⟩
  rw [(getNodeQueryLevel_constant fourPartition).2.1 _ 0 2 (by rw [first]; decide) (by rw [first]; exact same), first]

end Osrm.Mld
