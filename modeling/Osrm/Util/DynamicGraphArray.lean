import Osrm.Lib.Blocks
import Osrm.Util.DynamicGraph
import Osrm.Util.Permutation

/-!
# Dynamic graphs in one array

`util::DynamicGraph` as it stores its edges: a table with the first edge and the number of
edges of each node, and one array of slots that all nodes share. A slot that belongs to no
node is a dummy. What an array holds beyond its size is unknown, so growing it takes the
new slots from an argument (`fresh`).
-/

namespace Osrm

open Function

structure DynamicNode where
  firstEdge : ℕ
  edges : ℕ
  deriving DecidableEq, Repr

/-- An element of `edge_list`. A dummy has no target. -/
structure Slot (n : ℕ) (D : Type*) where
  target : Option (Fin n)
  data : D
  deriving DecidableEq, Repr

/-- `util::DynamicGraph` with its two arrays. -/
structure DynamicGraphArray (n : ℕ) (D : Type*) where
  nodeArray : Fin n → DynamicNode
  edgeList : ℕ → Slot n D
  size : ℕ

def DynamicEdge.slot {n : ℕ} {D : Type*} (e : DynamicEdge n D) : Slot n D := ⟨some e.target, e.data⟩

def Slot.edge? {n : ℕ} {D : Type*} (s : Slot n D) : Option (DynamicEdge n D) := s.target.map fun v => ⟨v, s.data⟩

namespace DynamicGraphArray

variable {n : ℕ} {D : Type*}

def isDummy (edgeList : ℕ → Slot n D) (edge : ℕ) : Prop := (edgeList edge).target = none

instance (edgeList : ℕ → Slot n D) (edge : ℕ) : Decidable (isDummy edgeList edge) :=
  inferInstanceAs (Decidable ((edgeList edge).target = none))

def makeDummy (edgeList : ℕ → Slot n D) (edge : ℕ) : ℕ → Slot n D :=
  update edgeList edge { edgeList edge with target := none }

/-- `edge_list.resize`: what was there stays. -/
def resize (edgeList fresh : ℕ → Slot n D) (size : ℕ) : ℕ → Slot n D := fun i => if i < size then edgeList i else fresh i

/-- The adjacency range of a node, `GetAdjacentEdgeRange`. -/
def InRange (g : DynamicGraphArray n D) (u : Fin n) (i : ℕ) : Prop :=
  (g.nodeArray u).firstEdge ≤ i ∧ i < (g.nodeArray u).firstEdge + (g.nodeArray u).edges

instance (g : DynamicGraphArray n D) (u : Fin n) (i : ℕ) : Decidable (g.InRange u i) :=
  inferInstanceAs (Decidable (_ ∧ _))

/-- The slots of an adjacency range in their order. -/
def adjacent (g : DynamicGraphArray n D) (u : Fin n) : List (Slot n D) :=
  (List.range (g.nodeArray u).edges).map fun k => g.edgeList ((g.nodeArray u).firstEdge + k)

/-! ### The constructor -/

/-- The state of the loop that counts the edges of each node. -/
structure Counting (n : ℕ) where
  nodeArray : Fin n → DynamicNode
  edge : ℕ
  position : ℕ

/-- One iteration of that loop: `edge` runs over the edges of the node. -/
def countEdges (graph : List (InputEdge n D)) (st : Counting n) (node : Fin n) : Counting n :=
  let edges := ((graph.drop st.edge).takeWhile (·.source = node)).length
  ⟨update st.nodeArray node ⟨st.position, edges⟩, st.edge + edges, st.position + edges⟩

/-- One step of the loop that copies the edges: slot `i` takes edge number `edge`. -/
def copyEdge (graph : List (InputEdge n D)) (st : (ℕ → Slot n D) × ℕ) (i : ℕ) : (ℕ → Slot n D) × ℕ :=
  match graph[st.2]? with
  | some e => (update st.1 i ⟨some e.target, e.data⟩, st.2 + 1)
  | none => (st.1, st.2 + 1)

/-- The constructor from a list of edges that is sorted by source. -/
def ofEdges (fresh : ℕ → Slot n D) (graph : List (InputEdge n D)) : DynamicGraphArray n D :=
  let counted := (List.finRange n).foldl (countEdges graph) ⟨fun _ => ⟨0, 0⟩, 0, 0⟩
  let copied := (List.finRange n).foldl (fun st node =>
    (List.range' (counted.nodeArray node).firstEdge (counted.nodeArray node).edges).foldl (copyEdge graph) st) (fresh, 0)
  ⟨counted.nodeArray, copied.1, counted.position⟩

/-! ### Changes to one node -/

variable (g : DynamicGraphArray n D)

/-- The loop of `InsertEdge` that moves the edges of a node to the end. -/
def moveEdges (first newFirst : ℕ) (edges : ℕ) (edgeList : ℕ → Slot n D) : ℕ → Slot n D :=
  (List.range edges).foldl (fun l i => makeDummy (update l (newFirst + i) (l (first + i))) (first + i)) edgeList

/-- Make sure that the slot behind the edges of the node can be written. -/
def makeRoom (fresh : ℕ → Slot n D) (u : Fin n) : DynamicGraphArray n D :=
  let node := g.nodeArray u
  let oneBeyondLastOfNode := node.edges + node.firstEdge
  if oneBeyondLastOfNode = g.size ∨ ¬ isDummy g.edgeList oneBeyondLastOfNode then
    if node.firstEdge ≠ 0 ∧ isDummy g.edgeList (node.firstEdge - 1) then
      let first := node.firstEdge - 1
      { g with
        nodeArray := update g.nodeArray u { node with firstEdge := first }
        edgeList := update g.edgeList first (g.edgeList (first + node.edges)) }
    else
      let newFirstEdge := g.size
      let newSize := node.edges * 11 / 10 + 2
      let moved := moveEdges node.firstEdge newFirstEdge node.edges (resize g.edgeList fresh g.size)
      { nodeArray := update g.nodeArray u { node with firstEdge := newFirstEdge }
        edgeList := (List.range' (node.edges + 1) (newSize - (node.edges + 1))).foldl (fun l i => makeDummy l (newFirstEdge + i)) moved
        size := g.size + newSize }
  else g

/-- `InsertEdge(from, to, data)`, with the value that it returns. -/
def insertEdge (fresh : ℕ → Slot n D) (u v : Fin n) (data : D) : DynamicGraphArray n D × ℕ :=
  let roomy := g.makeRoom fresh u
  let node := roomy.nodeArray u
  ({ roomy with
      nodeArray := update roomy.nodeArray u { node with edges := node.edges + 1 }
      edgeList := update roomy.edgeList (node.firstEdge + node.edges) ⟨some v, data⟩ },
    node.firstEdge + (node.edges + 1))

def deleteEdge (source : Fin n) (e : ℕ) : DynamicGraphArray n D :=
  let node := g.nodeArray source
  let last := node.firstEdge + (node.edges - 1)
  { g with
    nodeArray := update g.nodeArray source { node with edges := node.edges - 1 }
    edgeList := makeDummy (update g.edgeList e (g.edgeList last)) last }

/-- The loop of `DeleteEdgesTo`. After a deletion the same place is looked at again: this is the inner loop. -/
def deleteLoop (target : Fin n) (iend : ℕ) : ℕ → (ℕ → Slot n D) → ℕ → ℕ → (ℕ → Slot n D) × ℕ
  | 0, edgeList, deleted, _ => (edgeList, deleted)
  | fuel + 1, edgeList, deleted, i =>
    if i < iend - deleted then
      if (edgeList i).target = some target then
        let deleted := deleted + 1
        deleteLoop target iend fuel (makeDummy (update edgeList i (edgeList (iend - deleted))) (iend - deleted)) deleted i
      else deleteLoop target iend fuel edgeList deleted (i + 1)
    else (edgeList, deleted)

/-- `DeleteEdgesTo(source, target)`, with the number of deleted edges. -/
def deleteEdgesTo (source target : Fin n) : DynamicGraphArray n D × ℕ :=
  let node := g.nodeArray source
  let (edgeList, deleted) :=
    deleteLoop target (node.firstEdge + node.edges) node.edges g.edgeList 0 node.firstEdge
  ({ g with
      nodeArray := update g.nodeArray source { node with edges := node.edges - deleted }
      edgeList := edgeList }, deleted)

/-! ### Changes to the whole graph -/

def pushBack (st : (ℕ → Slot n D) × ℕ) (s : Slot n D) : (ℕ → Slot n D) × ℕ :=
  (update st.1 st.2 s, st.2 + 1)

/-- The step of `Filter` for one node: its kept edges go to the end of the new array. -/
def filterNode (keep : Fin n → Bool) (other : DynamicGraphArray n D) (node : Fin n) :
    DynamicGraphArray n D :=
  let first := other.size
  if keep node then
    let (edgeList, size) := ((g.adjacent node).filter (·.target.any keep)).foldl pushBack (other.edgeList, other.size)
    ⟨update other.nodeArray node ⟨first, size - first⟩, edgeList, size⟩
  else { other with nodeArray := update other.nodeArray node ⟨first, 0⟩ }

/-- `Filter(filter)`: a new graph without the edges from and to the other nodes. -/
def filter (fresh : ℕ → Slot n D) (keep : Fin n → Bool) : DynamicGraphArray n D :=
  (List.finRange n).foldl (g.filterNode keep) ⟨fun _ => ⟨0, 0⟩, fresh, 0⟩

/-- The edges while `Renumber` numbers them. An edge without a new number has `SPECIAL_EDGEID`. -/
structure Renumbering (n : ℕ) (D : Type*) where
  edgeList : ℕ → Slot n D
  oldToNewEdge : ℕ → Option ℕ
  newEdgeIndex : ℕ

def retarget (oldToNew : Equiv.Perm (Fin n)) (edgeList : ℕ → Slot n D) (edge : ℕ) : ℕ → Slot n D :=
  update edgeList edge { edgeList edge with target := (edgeList edge).target.map oldToNew }

def Renumbering.number (st : Renumbering n D) (edge : ℕ) : Renumbering n D :=
  { st with oldToNewEdge := update st.oldToNewEdge edge (some st.newEdgeIndex), newEdgeIndex := st.newEdgeIndex + 1 }

/-- Rename the target of an edge and give the edge the next number. -/
def Renumbering.fill (oldToNew : Equiv.Perm (Fin n)) (st : Renumbering n D) (edge : ℕ) : Renumbering n D :=
  Renumbering.number { st with edgeList := retarget oldToNew st.edgeList edge } edge

def Renumbering.node (oldToNew : Equiv.Perm (Fin n)) (st : (Fin n → DynamicNode) × Renumbering n D) (node : Fin n) :
    (Fin n → DynamicNode) × Renumbering n D :=
  (update st.1 node { st.1 node with firstEdge := st.2.newEdgeIndex },
    (List.range' (st.1 node).firstEdge (st.1 node).edges).foldl (Renumbering.fill oldToNew) st.2)

def Renumbering.dummy (st : Renumbering n D) (edge : ℕ) : Renumbering n D :=
  if st.oldToNewEdge edge = none then st.number edge else st

/-- `Renumber(old_to_new_node)`; it throws when there are too many edges. -/
def renumber (oldToNew : Equiv.Perm (Fin n)) : Option (DynamicGraphArray n D) :=
  let nodeArray := Util.inplacePermutation (List.finRange n) oldToNew g.nodeArray
  if 4294967295 ≤ g.size then none
  else
    let (nodeArray, filled) := (List.finRange n).foldl (Renumbering.node oldToNew) (nodeArray, ⟨g.edgeList, fun _ => none, 0⟩)
    let numbered := (List.range g.size).foldl Renumbering.dummy filled
    let oldToNewEdge := fun edge => (numbered.oldToNewEdge edge).getD 4294967295
    some ⟨nodeArray, Util.inplacePermutation (List.range g.size) oldToNewEdge numbered.edgeList, filled.newEdgeIndex⟩

end DynamicGraphArray

end Osrm
