import Osrm.Extractor.GraphCompressor
import Osrm.Lib.Chain

/-!
# Chains behind compressed edges

Each edge of the compressed graph stands for a chain of the original one. Its bucket lists the
links of the chain: the segments of the original graph, and between them the penalties of signals
as links from a node to itself. This is kept by every step of `Compress`, with the chain of the
opposite edge as the mirror image.

The nodes are taken out in the order of their numbers. So the neighbours under which the signals
of a chain were looked up can be told from the numbers along it (`Chain.tests`), and the penalties
on a chain from the signals there.
-/

namespace Osrm.Extractor

open List CompressedEdgeContainer NodePenalty

open Lib

/-- A segment, or a penalty at a node. -/
structure Link (V : Type) where
  tail : V
  head : V
  /-- weight and duration -/
  cost : ℤ × ℤ
  deriving DecidableEq, Repr

namespace Link

variable {V : Type}

def entry (l : Link V) : OnewayCompressedEdge V := CompressedEdgeContainer.entry l.head l.cost.1 l.cost.2

/-- The links of both directions between two nodes. -/
def Opposite (l l' : Link V) : Prop := l'.tail = l.head ∧ l'.head = l.tail

def Leads (a : V) : List (Link V) → V → Prop
  | [], b => a = b
  | l :: links, b => l.tail = a ∧ Leads l.head links b

theorem Leads.append {a b c : V} {links links' : List (Link V)} (first : Leads a links b) (second : Leads b links' c) :
    Leads a (links ++ links') c := by
  induction links generalizing a with
  | nil =>
    obtain rfl : a = b := first
    exact second
  | cons l links ih => exact ⟨first.1, ih first.2⟩

theorem Leads.getLastD {a b : V} {links : List (Link V)} (leads : Leads a links b) : (links.map head).getLastD a = b := by
  induction links generalizing a with
  | nil => exact leads
  | cons l links ih =>
    rw [map_cons, getLastD_cons]
    exact ih leads.2

end Link

variable {n : ℕ} (g : NodeBasedDynamicGraph n)

/-- There is an edge between two nodes. -/
def Adjacent (p : Fin n × Fin n) : Prop := ∃ e, g.Edge p.1 e p.2

/-- The weight of the segment between two nodes. -/
def segmentWeight (p : Fin n × Fin n) : ℤ :=
  ((g.findEdge p.1 p.2).map fun e => (g.getEdgeData e).weight).getD 0

/-- A segment of the graph with its costs. -/
def Link.IsSegment (l : Link (Fin n)) : Prop :=
  ∃ e, g.Edge l.tail e l.head ∧ (g.getEdgeData e).cost = l.cost

/-- A penalty at a node, or the dummy that stands for it in the other direction. -/
def Link.IsSignal (x : GraphCompressor n) (l : Link (Fin n)) : Prop :=
  l.tail = l.head ∧ (l.cost = (x.signalPenalty.weight, x.signalPenalty.duration) ∨ l.cost = 0)

def NodePenalty.links (p : NodePenalty) (v : Fin n) : List (Link (Fin n)) := if p.IsSet then [⟨v, v, (p.weight, p.duration)⟩] else []

namespace NodePenalty

variable (p : NodePenalty) (v : Fin n)

theorem sum_links : ((p.links v).map Link.cost).sum = p.charge := by
  unfold links charge
  split
  · rw [map_singleton, sum_singleton]
  · rfl

theorem leads_links : Link.Leads v (p.links v) v := by
  unfold links
  split
  · exact ⟨rfl, rfl⟩
  · rfl

theorem stops_links : Chain.stops v ((p.links v).map Link.head) = [] := by
  unfold links
  split
  · simp [Chain.stops]
  · rfl

theorem map_entry_links :
    (p.links v).map Link.entry = if p.IsSet then [entry v p.weight p.duration] else [] := by
  unfold links
  split <;> rfl

theorem setDummyPenalty_charge (q : NodePenalty) : (setDummyPenalty p q).charge = p.charge := by
  unfold setDummyPenalty
  split_ifs with dummy
  · have none : p.charge = 0 := if_neg fun set => set.1 dummy.1
    rw [none]
    unfold charge
    split <;> rfl
  · rfl

end NodePenalty

namespace GraphCompressor

variable (x : GraphCompressor n) (segment : Fin n × Fin n)

theorem penaltyAt_charge :
    (x.penaltyAt segment).charge = if x.trafficSignals.hasSignal segment then x.signalPenalty.charge else 0 := by
  unfold penaltyAt
  split
  · rfl
  · exact if_neg not_isSet_unset

/-- The values of a penalty that is set. -/
theorem dummy_cases (other : NodePenalty) (set : (setDummyPenalty (x.penaltyAt segment) other).IsSet) :
    setDummyPenalty (x.penaltyAt segment) other = x.signalPenalty ∨ setDummyPenalty (x.penaltyAt segment) other = ⟨0, 0⟩ := by
  unfold setDummyPenalty at set ⊢
  split_ifs with not
  · exact .inr rfl
  · rw [if_neg not] at set
    unfold penaltyAt at set ⊢
    split_ifs with none
    · exact .inl rfl
    · rw [if_neg none] at set
      exact absurd set not_isSet_unset

theorem isSignal_of_mem {segment : Fin n × Fin n} {other : NodePenalty} {v : Fin n} {l : Link (Fin n)}
    (here : l ∈ (setDummyPenalty (x.penaltyAt segment) other).links v) : l.IsSignal x := by
  unfold links at here
  split_ifs at here with set
  · obtain rfl := mem_singleton.1 here
    refine ⟨rfl, ?_⟩
    rcases x.dummy_cases segment other set with signal | dummy
    · rw [signal]
      exact .inl rfl
    · rw [dummy]
      exact .inr rfl
  · cases here

end GraphCompressor

/-! ### The chain of one edge -/

/-- Edge `e` from `u` to `w` stands for the chain `links` with the nodes `inner` between its ends. -/
structure Describes (x : GraphCompressor n) (original : NodeBasedDynamicGraph n) (bound : ℕ) (st : Compression n)
    (u : Fin n) (e : ℕ) (w : Fin n) (links : List (Link (Fin n))) (inner : List (Fin n)) : Prop where
  leads : Link.Leads u links w
  kinds : ∀ l ∈ links, l.IsSegment original ∨ l.IsSignal x
  cost : (st.graph.getEdgeData e).cost = wrapCost (links.map Link.cost).sum
  filled : st.geometry.getBucketReference e ≠ some []
  bucket : entries (st.geometry.getBucketReference e)
    (entry w (st.graph.getEdgeData e).weight (st.graph.getEdgeData e).duration) = links.map Link.entry
  stops : Chain.stops u (links.map Link.head) = inner ++ [w]
  removed : ∀ y ∈ inner, y.val < bound ∧ st.graph.getOutDegree y = 0
  adjacent : ∀ p ∈ Chain.pairs u (inner ++ [w]), Adjacent original p
  charged : (links.map Link.cost).sum.1 = ((Chain.pairs u (inner ++ [w])).map (segmentWeight original)).sum +
    x.signalPenalty.charge.1 * (Chain.tests u inner).countP x.trafficSignals.hasSignal
  seen : Forall₂ (fun test pair => test = pair ∨ ¬ Adjacent original test) (Chain.tests u inner) (Chain.pairs u inner)

section Merge

variable {x : GraphCompressor n} {original : NodeBasedDynamicGraph n} {st st' : Compression n} {u v w : Fin n} {e1 e2 : ℕ}
  {links1 links2 : List (Link (Fin n))} {inner1 inner2 : List (Fin n)}

/-- The chains of two edges that are joined at `v`. -/
theorem Describes.merge (first : Describes x original v.val st u e1 v links1 inner1)
    (second : Describes x original v.val st v e2 w links2 inner2) (other : NodePenalty)
    (fresh : inner1 = [] ∨ ¬ Adjacent original (u, v))
    (cost : (st'.graph.getEdgeData e1).cost =
      wrapCost ((st.graph.getEdgeData e1).cost + (st.graph.getEdgeData e2).cost + (x.penaltyAt (u, v)).charge))
    (bucket : st'.geometry.getBucketReference e1 = some
      (links1.map Link.entry ++ ((setDummyPenalty (x.penaltyAt (u, v)) other).links v).map Link.entry ++ links2.map Link.entry))
    (degree : ∀ y, st'.graph.getOutDegree y = if y = v then 0 else st.graph.getOutDegree y) :
    Describes x original (v.val + 1) st' u e1 w
      (links1 ++ (setDummyPenalty (x.penaltyAt (u, v)) other).links v ++ links2) (inner1 ++ v :: inner2) := by
  have total : ((links1 ++ (setDummyPenalty (x.penaltyAt (u, v)) other).links v ++ links2).map Link.cost).sum =
      (links1.map Link.cost).sum + (x.penaltyAt (u, v)).charge + (links2.map Link.cost).sum := by
    rw [map_append, map_append, sum_append, sum_append, sum_links, setDummyPenalty_charge]
  have low : ∀ {inner : List (Fin n)}, (∀ y ∈ inner, y.val < v.val ∧ st.graph.getOutDegree y = 0) → ∀ y ∈ inner, y < v :=
    fun removed y here => (removed y here).1
  have tests := Chain.tests_merge u (low first.removed) (low second.removed)
  have pairs : Chain.pairs u (inner1 ++ v :: inner2 ++ [w]) = Chain.pairs u (inner1 ++ [v]) ++ Chain.pairs v (inner2 ++ [w]) := by
    rw [append_assoc, cons_append, Chain.pairs_append]
  refine ⟨?_, ?_, ?_, ?_, ?_, ?_, ?_, ?_, ?_, ?_⟩
  · exact (first.leads.append (leads_links _ v)).append second.leads
  · intro l here
    rcases mem_append.1 here with here | here
    · rcases mem_append.1 here with here | here
      · exact first.kinds l here
      · exact .inr (x.isSignal_of_mem here)
    · exact second.kinds l here
  · rw [cost, total, first.cost, second.cost, wrapCost_add, add_right_comm]
  · rw [bucket]
    intro empty
    have none := Option.some.inj empty
    rw [append_eq_nil_iff, append_eq_nil_iff, ← first.bucket] at none
    exact entries_ne_nil first.filled _ none.1.1
  · rw [bucket, map_append, map_append]
    rfl
  · rw [map_append, Chain.stops_append, (first.leads.append (leads_links _ v)).getLastD, map_append,
      Chain.stops_append, first.stops, first.leads.getLastD, stops_links, second.stops]
    simp
  · intro y here
    rw [degree]
    rcases mem_append.1 here with here | here
    · obtain ⟨lt, zero⟩ := first.removed y here
      exact ⟨by omega, by rw [zero, ite_self]⟩
    · rcases mem_cons.1 here with rfl | here
      · exact ⟨by omega, if_pos rfl⟩
      · obtain ⟨lt, zero⟩ := second.removed y here
        exact ⟨by omega, by rw [zero, ite_self]⟩
  · intro p here
    rw [pairs] at here
    rcases mem_append.1 here with here | here
    · exact first.adjacent p here
    · exact second.adjacent p here
  · rw [total, pairs, tests, map_append, sum_append, countP_append, countP_cons, Prod.fst_add, Prod.fst_add,
      first.charged, second.charged, x.penaltyAt_charge]
    split
    · push_cast
      ring
    · push_cast
      rw [Prod.fst_zero]
      ring
  · rw [tests, Chain.pairs_append, Chain.pairs_concat, append_assoc]
    apply rel_append first.seen
    refine .cons ?_ second.seen
    rcases fresh with rfl | apart
    · exact .inl rfl
    · exact .inr apart

end Merge

/-! ### All chains -/

/-- A signal has an entry in both directions or in none. -/
def GraphCompressor.Balanced (x : GraphCompressor n) : Prop :=
  x.signalPenalty.weight = invalidEdgeWeight ∨ x.signalPenalty.duration ≠ maximalEdgeDuration

/-- What `Compress` keeps while it takes out nodes: `bound` is the number of the next one. -/
structure Chains (x : GraphCompressor n) (original : NodeBasedDynamicGraph n) (bound : ℕ) (st : Compression n)
    (links : Fin n → ℕ → List (Link (Fin n))) (inner : Fin n → ℕ → List (Fin n)) : Prop where
  mirrored : st.graph.Mirrored
  valid : st.geometry.geometries.Valid
  kept : ∀ {a b}, Adjacent original (a, b) → st.graph.getOutDegree a ≠ 0 → st.graph.getOutDegree b ≠ 0 →
    ∃ e, st.graph.Edge a e b ∧ st.geometry.getBucketReference e = none
  describes : ∀ {u e w}, st.graph.Edge u e w → Describes x original bound st u e w (links u e) (inner u e)
  opposite : x.Balanced → ∀ {u e w e'}, st.graph.Edge u e w → st.graph.Edge w e' u →
    Forall₂ Link.Opposite (links u e) (links w e').reverse

section Run

variable {x : GraphCompressor n} {original : NodeBasedDynamicGraph n} {bound : ℕ} {st st' : Compression n} {v : Fin n} {j : Junction n}
  {links : Fin n → ℕ → List (Link (Fin n))} {inner : Fin n → ℕ → List (Fin n)} {e : ℕ} {u w : Fin n}

theorem Describes.succ {links : List (Link (Fin n))} {inner : List (Fin n)}
    (describes : Describes x original bound st u e w links inner) : Describes x original (bound + 1) st u e w links inner :=
  { describes with
    removed := fun y here => ⟨Nat.lt_succ_of_lt (describes.removed y here).1, (describes.removed y here).2⟩ }

theorem Chains.succ (chains : Chains x original bound st links inner) : Chains x original (bound + 1) st links inner :=
  { chains with describes := fun edge => (chains.describes edge).succ }

/-- An edge that stays keeps its chain. -/
theorem Describes.frame {links : List (Link (Fin n))} {inner : List (Fin n)}
    (describes : Describes x original bound st u e w links inner)
    (cost : (st'.graph.getEdgeData e).cost = (st.graph.getEdgeData e).cost)
    (bucket : st'.geometry.getBucketReference e = st.geometry.getBucketReference e)
    (degree : ∀ y, st.graph.getOutDegree y = 0 → st'.graph.getOutDegree y = 0) : Describes x original bound st' u e w links inner where
  leads := describes.leads
  kinds := describes.kinds
  cost := cost.trans describes.cost
  filled := by
    rw [bucket]
    exact describes.filled
  bucket := by
    have weight : (st'.graph.getEdgeData e).weight = (st.graph.getEdgeData e).weight := congrArg Prod.fst cost
    have duration : (st'.graph.getEdgeData e).duration = (st.graph.getEdgeData e).duration := congrArg Prod.snd cost
    rw [bucket, weight, duration]
    exact describes.bucket
  stops := describes.stops
  removed y here := ⟨(describes.removed y here).1, degree y (describes.removed y here).2⟩
  adjacent := describes.adjacent
  charged := describes.charged
  seen := describes.seen

/-- An original edge between nodes that are still there was not compressed. -/
theorem getOutDegree_ne_zero (edge : st.graph.Edge u e w) : st.graph.getOutDegree u ≠ 0 := by
  have inside := edge.1
  have size : st.graph.getOutDegree u = (st.graph.nodeArray u).edges := rfl
  rw [DynamicGraphArray.InRange] at inside
  omega

theorem Chains.fresh (chains : Chains x original bound st links inner) (edge : st.graph.Edge u e w)
    (opposite : st.graph.getOutDegree w ≠ 0) : inner u e = [] ∨ ¬ Adjacent original (u, w) := by
  by_cases adjacent : Adjacent original (u, w)
  · left
    obtain ⟨e', edge', none⟩ := chains.kept adjacent (getOutDegree_ne_zero edge) opposite
    obtain rfl := chains.mirrored.simple edge edge'
    have describes := chains.describes edge
    -- without a bucket there is one link
    have single := describes.bucket
    rw [none] at single
    obtain ⟨link, one, -⟩ := map_eq_singleton_iff.1 single.symm
    have stops := describes.stops
    rw [one, map_singleton] at stops
    have length : (inner u e).length + 1 ≤ 1 := by
      have := congrArg length stops
      rw [length_append, length_singleton] at this
      rw [← this, Chain.stops]
      split <;> simp [Chain.stops]
    exact eq_nil_of_length_eq_zero (by omega)
  · exact .inr adjacent

theorem GraphCompressor.Balanced.isSet_iff (balanced : x.Balanced) (segment segment' : Fin n × Fin n) :
    (setDummyPenalty (x.penaltyAt segment) (x.penaltyAt segment')).IsSet ↔
      (setDummyPenalty (x.penaltyAt segment') (setDummyPenalty (x.penaltyAt segment) (x.penaltyAt segment'))).IsSet := by
  have zero : IsSet ⟨0, 0⟩ := ⟨by decide, by decide⟩
  have unset := not_isSet_unset
  have signal : x.signalPenalty.IsSet ↔ x.signalPenalty.weight ≠ invalidEdgeWeight :=
    ⟨And.left, fun valid => ⟨valid, balanced.resolve_left valid⟩⟩
  have none : NodePenalty.unset.weight = invalidEdgeWeight := rfl
  unfold GraphCompressor.penaltyAt setDummyPenalty
  by_cases valid : x.signalPenalty.weight = invalidEdgeWeight <;>
    cases x.trafficSignals.hasSignal segment <;> cases x.trafficSignals.hasSignal segment' <;>
    simp [valid, signal, zero, unset, none]

/-- Mirror images that are joined with penalties in both directions or in none. -/
theorem opposite_join {p q : NodePenalty} (set : p.IsSet ↔ q.IsSet) {first second back front : List (Link (Fin n))}
    (left : Forall₂ Link.Opposite first back.reverse) (right : Forall₂ Link.Opposite second front.reverse) :
    Forall₂ Link.Opposite (first ++ p.links v ++ second) (front ++ q.links v ++ back).reverse := by
  rw [reverse_append, reverse_append, ← append_assoc]
  apply rel_append (rel_append left _) right
  unfold links
  by_cases here : p.IsSet
  · rw [if_pos here, if_pos (set.1 here)]
    exact .cons ⟨rfl, rfl⟩ .nil
  · rw [if_neg here, if_neg (mt set.2 here)]
    exact .nil

/-- **One step on the chains.** -/
theorem Chains.step (chains : Chains x original v.val st links inner) (step : Compressed x st st' v j) :
    ∃ links' inner', Chains x original (v.val + 1) st' links' inner' := by
  have mirrored := chains.mirrored
  have valid := step.valid
  have forward1 := chains.describes valid.forward1
  have forward2 := chains.describes valid.forward2
  have reverse1 := chains.describes valid.reverse1
  have reverse2 := chains.describes valid.reverse2
  obtain ⟨geometry, bucket1, bucket2, others⟩ := step.buckets mirrored chains.valid forward1.filled reverse1.filled
  have two := getOutDegree_ne_zero valid.forward2
  have ne13 := valid.e1_ne mirrored
  let forward := setDummyPenalty (x.penaltyAt (j.u, v)) (x.penaltyAt (j.w, v))
  let reverse := setDummyPenalty (x.penaltyAt (j.w, v)) forward
  let links' : Fin n → ℕ → List (Link (Fin n)) := fun a e =>
    if e = j.forwardE1 then links j.u j.forwardE1 ++ forward.links v ++ links v j.forwardE2
    else if e = j.reverseE1 then links j.w j.reverseE1 ++ reverse.links v ++ links v j.reverseE2
    else links a e
  let inner' : Fin n → ℕ → List (Fin n) := fun a e =>
    if e = j.forwardE1 then inner j.u j.forwardE1 ++ v :: inner v j.forwardE2
    else if e = j.reverseE1 then inner j.w j.reverseE1 ++ v :: inner v j.reverseE2
    else inner a e
  have stays : ∀ {a e b}, st.graph.Edge a e b → a ≠ v → b ≠ v →
      e ≠ j.forwardE1 ∧ e ≠ j.forwardE2 ∧ e ≠ j.reverseE1 ∧ e ≠ j.reverseE2 := by
    intro a e b edge source target
    refine ⟨?_, ?_, ?_, ?_⟩ <;> rintro rfl
    · exact target (mirrored.target_eq edge valid.forward1).2
    · exact source (mirrored.target_eq edge valid.forward2).1
    · exact target (mirrored.target_eq edge valid.reverse1).2
    · exact source (mirrored.target_eq edge valid.reverse2).1
  have linksForward : ∀ a, links' a j.forwardE1 = links j.u j.forwardE1 ++ forward.links v ++ links v j.forwardE2 := fun a => if_pos rfl
  have linksReverse : ∀ a, links' a j.reverseE1 = links j.w j.reverseE1 ++ reverse.links v ++ links v j.reverseE2 :=
    fun a => (if_neg ne13.symm).trans (if_pos rfl)
  have linksOld : ∀ {a e}, e ≠ j.forwardE1 → e ≠ j.reverseE1 → links' a e = links a e := fun one two => (if_neg one).trans (if_neg two)
  refine ⟨links', inner', step.merged.mirrored mirrored valid step.free, geometry, ?_, ?_, ?_⟩
  · intro a b adjacent someA someB
    rw [step.merged.degree] at someA someB
    have source : a ≠ v := fun same => someA (if_pos same)
    have target : b ≠ v := fun same => someB (if_pos same)
    rw [if_neg source] at someA
    rw [if_neg target] at someB
    obtain ⟨e, edge, none⟩ := chains.kept adjacent someA someB
    obtain ⟨one, two, three, four⟩ := stays edge source target
    exact ⟨e, (step.merged.edge_iff mirrored valid).2 (.inl ⟨edge, source, target⟩), (others e one two three four).trans none⟩
  · intro a e b edge
    rcases (step.merged.edge_iff mirrored valid).1 edge with ⟨old, source, target⟩ | ⟨rfl, rfl, rfl⟩ | ⟨rfl, rfl, rfl⟩
    · obtain ⟨one, two, three, four⟩ := stays old source target
      rw [linksOld one three, show inner' a e = inner a e from (if_neg one).trans (if_neg three)]
      apply (chains.describes old).succ.frame
      · rw [step.merged.cost source old.1, if_neg three, if_neg one]
      · exact others e one two three four
      · intro y zero
        rw [step.merged.degree, zero, ite_self]
    · rw [linksForward, show inner' j.u j.forwardE1 = _ from if_pos rfl]
      apply forward1.merge forward2 _ (chains.fresh valid.forward1 two)
      · rw [step.merged.cost (valid.u_ne mirrored) valid.forward1.1, if_neg ne13, if_pos rfl]
      · rw [bucket1, map_entry_links, ← forward1.bucket, ← forward2.bucket]
      · exact step.merged.degree
    · rw [linksReverse, show inner' j.w j.reverseE1 = _ from (if_neg ne13.symm).trans (if_pos rfl)]
      apply reverse1.merge reverse2 _ (chains.fresh valid.reverse1 two)
      · rw [step.merged.cost (valid.w_ne mirrored) valid.reverse1.1, if_pos rfl]
      · rw [bucket2, map_entry_links, ← reverse1.bucket, ← reverse2.bucket]
      · exact step.merged.degree
  · intro balanced a e b e' edge edge'
    have set := balanced.isSet_iff (j.u, v) (j.w, v)
    rcases (step.merged.edge_iff mirrored valid).1 edge with ⟨old, source, target⟩ | ⟨rfl, rfl, rfl⟩ | ⟨rfl, rfl, rfl⟩ <;>
      rcases (step.merged.edge_iff mirrored valid).1 edge' with ⟨old', source', target'⟩ | ⟨same, rfl, same'⟩ | ⟨same, rfl, same'⟩
    · obtain ⟨one, -, three, -⟩ := stays old source target
      obtain ⟨one', -, three', -⟩ := stays old' source' target'
      rw [linksOld one three, linksOld one' three']
      exact chains.opposite balanced old old'
    · rw [same, same'] at old
      exact absurd old (step.free.2 e)
    · rw [same, same'] at old
      exact absurd old (step.free.1 e)
    · exact absurd old' (step.free.2 _)
    · exact absurd same.symm valid.apart
    · rw [linksForward, linksReverse]
      exact opposite_join set (chains.opposite balanced valid.forward1 valid.reverse2) (chains.opposite balanced valid.forward2 valid.reverse1)
    · exact absurd old' (step.free.1 _)
    · rw [linksForward, linksReverse]
      exact opposite_join set.symm (chains.opposite balanced valid.reverse1 valid.forward2)
        (chains.opposite balanced valid.reverse2 valid.forward1)
    · exact absurd same valid.apart

variable (original) in
/-- The weights and durations of the edges are 32-bit integers. -/
def Typed : Prop := ∀ u e w, original.Edge u e w → wrapCost (original.getEdgeData e).cost = (original.getEdgeData e).cost

/-- At first each edge is its own chain. -/
theorem chains_first (x : GraphCompressor n) (mirrored : original.Mirrored) (typed : Typed original) : ∃ links inner,
    Chains x original 0 ⟨original, CompressedEdgeContainer.empty⟩ links inner := by
  refine ⟨fun u e => [⟨u, (original.getTarget e).getD u, (original.getEdgeData e).cost⟩], fun _ _ => [], mirrored,
    empty_valid, ?_, ?_, ?_⟩
  · intro a b adjacent _ _
    obtain ⟨e, edge⟩ := adjacent
    exact ⟨e, edge, rfl⟩
  · intro u e w edge
    have target : (original.getTarget e).getD u = w := by rw [edge.2, Option.getD_some]
    have other : w ≠ u := by
      rintro rfl
      exact mirrored.loopless edge
    rw [target]
    refine ⟨⟨rfl, rfl⟩, ?_, (typed u e w edge).symm.trans (congrArg wrapCost sum_singleton.symm),
      Option.some_ne_none [] |>.symm, rfl, ?_, fun y here => absurd here not_mem_nil,
      ?_, ?_, .nil⟩
    · intro l here
      obtain rfl := mem_singleton.1 here
      exact .inl ⟨e, edge, rfl⟩
    · rw [map_singleton, Chain.stops, if_neg other]
      rfl
    · intro p here
      obtain rfl := mem_singleton.1 here
      exact ⟨e, edge⟩
    · have weight : segmentWeight original (u, w) = (original.getEdgeData e).weight := by
        rw [segmentWeight, mirrored.findEdge_eq edge]
        rfl
      rw [nil_append, Chain.pairs_cons, Chain.pairs_nil, map_singleton, map_singleton, sum_singleton,
        sum_singleton, weight, Chain.tests, Chain.testsFrom, countP_nil]
      exact (by rw [Nat.cast_zero, mul_zero, add_zero]; rfl)
  · intro _ u e w e' edge edge'
    have target : (original.getTarget e).getD u = w := by rw [edge.2, Option.getD_some]
    have target' : (original.getTarget e').getD w = u := by rw [edge'.2, Option.getD_some]
    rw [target, target']
    exact .cons ⟨rfl, rfl⟩ .nil

/-- The chains are kept through the loop. -/
theorem chains_run (x : GraphCompressor n) (mirrored : original.Mirrored) (typed : Typed original) (m : ℕ) (le : m ≤ n) : ∃ st links inner,
    ((finRange n).take m).foldlM x.compressNode ⟨original, CompressedEdgeContainer.empty⟩ = some st ∧
      Chains x original m st links inner := by
  induction m with
  | zero =>
    obtain ⟨links, inner, chains⟩ := chains_first x mirrored typed
    exact ⟨_, links, inner, rfl, chains⟩
  | succ m ih =>
    obtain ⟨st, links, inner, runs, chains⟩ := ih (by omega)
    have next : (finRange n).take (m + 1) = (finRange n).take m ++ [⟨m, le⟩] := by
      rw [take_add_one, getElem?_eq_getElem (by rw [length_finRange]; exact le), getElem_finRange]
      rfl
    obtain ⟨st', result, cases⟩ := x.compressNode_cases chains.mirrored ⟨m, le⟩
    rw [next, foldlM_append, runs, Option.bind_eq_bind, Option.bind_some, foldlM_cons, result]
    rcases cases with rfl | ⟨j, step⟩
    · exact ⟨_, links, inner, rfl, chains.succ⟩
    · obtain ⟨links', inner', chains'⟩ := Chains.step (v := ⟨m, le⟩) chains step
      exact ⟨st', links', inner', rfl, chains'⟩

/-- The loop over the edges that were not compressed fills the missing buckets. -/
theorem addUncompressed_run {g : NodeBasedDynamicGraph n} (mirrored : g.Mirrored) (edges : List ℕ)
    (live : ∀ e ∈ edges, ∃ u w, g.Edge u e w) {c : CompressedEdgeContainer (Fin n)} (valid : c.geometries.Valid)
    (filled : ∀ {u e w}, g.Edge u e w → c.getBucketReference e ≠ some []) :
    ∃ c', edges.foldlM (GraphCompressor.addUncompressed g) c = some c' ∧ c'.geometries.Valid ∧ ∀ {u e w}, g.Edge u e w →
      c'.getBucketReference e = if e ∈ edges then some (entries (c.getBucketReference e)
        (entry w (g.getEdgeData e).weight (g.getEdgeData e).duration)) else c.getBucketReference e := by
  induction edges generalizing c with
  | nil => exact ⟨c, rfl, valid, fun _ => (if_neg not_mem_nil).symm⟩
  | cons d edges ih =>
    obtain ⟨u, w', edge⟩ := live d mem_cons_self
    obtain ⟨valid', buckets⟩ := createList_get valid (filled edge) (entry w' (g.getEdgeData d).weight (g.getEdgeData d).duration)
    have filled' : ∀ {u e w}, g.Edge u e w → (c.addUncompressedEdge d w' (g.getEdgeData d).weight
        (g.getEdgeData d).duration).getBucketReference e ≠ some [] := by
      intro u' e w' edge'
      rw [getBucketReference, addUncompressedEdge, buckets]
      split
      · intro empty
        exact entries_ne_nil (filled edge) _ (Option.some.inj empty)
      · exact filled edge'
    obtain ⟨c', runs, valid'', buckets'⟩ := ih (fun e here => live e (mem_cons_of_mem _ here)) valid' filled'
    refine ⟨c', ?_, valid'', ?_⟩
    · rw [foldlM_cons, GraphCompressor.addUncompressed, edge.2]
      exact runs
    · intro u' e w'' edge'
      rw [buckets' edge', getBucketReference, addUncompressedEdge, buckets]
      by_cases same : e = d
      · subst same
        obtain ⟨-, rfl⟩ := mirrored.target_eq edge edge'
        rw [if_pos rfl, if_pos mem_cons_self]
        split <;> rfl
      · simp [getBucketReference, same]

/-- **Compressed graphs.** `Compress` ends, and each edge that is left stands for a chain of the original graph. -/
theorem compress_spec (x : GraphCompressor n) (mirrored : original.Mirrored) (typed : Typed original) :
    ∃ (st : Compression n) (links : Fin n → ℕ → List (Link (Fin n))) (inner : Fin n → ℕ → List (Fin n)),
    x.compress original CompressedEdgeContainer.empty = some st ∧ st.graph.Mirrored ∧
      (∀ {u e w}, st.graph.Edge u e w → Describes x original n st u e w (links u e) (inner u e) ∧
        st.geometry.getBucketReference e = some ((links u e).map Link.entry)) ∧
      (x.Balanced → ∀ {u e w e'}, st.graph.Edge u e w → st.graph.Edge w e' u →
        Forall₂ Link.Opposite (links u e) (links w e').reverse) := by
  obtain ⟨st, links, inner, runs, chains⟩ := chains_run x mirrored typed n le_rfl
  rw [take_of_length_le (by rw [length_finRange])] at runs
  have live : ∀ e ∈ (finRange n).flatMap st.graph.edgeRange, ∃ u w, st.graph.Edge u e w := by
    intro e here
    obtain ⟨u, -, inside⟩ := mem_flatMap.1 here
    have inside := DynamicGraphArray.mem_edgeRange.1 inside
    obtain ⟨w, target⟩ := chains.mirrored.targeted inside
    exact ⟨u, w, inside, target⟩
  obtain ⟨c, added, valid, buckets⟩ := addUncompressed_run chains.mirrored _ live chains.valid fun edge => (chains.describes edge).filled
  refine ⟨⟨st.graph, c⟩, links, inner, ?_, chains.mirrored, ?_, chains.opposite⟩
  · simp [GraphCompressor.compress, runs, added]
  · intro u e w edge
    have describes := chains.describes edge
    have here := mem_flatMap.2 ⟨u, mem_finRange u, DynamicGraphArray.mem_edgeRange.2 edge.1⟩
    have bucket : c.getBucketReference e = some ((links u e).map Link.entry) := by
      rw [buckets edge, if_pos here, describes.bucket]
    refine ⟨{ describes with filled := ?_, bucket := ?_ }, bucket⟩
    · rw [bucket, ← describes.bucket]
      intro empty
      exact entries_ne_nil describes.filled _ (Option.some.inj empty)
    · rw [bucket]
      rfl

end Run

/-! ### What the buckets hold -/

/-- Weight and duration are not clipped. -/
def WithinLimits (cost : ℤ × ℤ) : Prop :=
  (0 ≤ cost.1 ∧ cost.1 < invalidSegmentWeight) ∧ 0 ≤ cost.2 ∧ cost.2 < invalidSegmentWeight

instance (cost : ℤ × ℤ) : Decidable (WithinLimits cost) := inferInstanceAs (Decidable (_ ∧ _))

/-- The entry of a link that is not clipped. -/
def Link.stored (l : Link (Fin n)) : OnewayCompressedEdge (Fin n) := ⟨l.head, l.cost.1.toNat, l.cost.2.toNat⟩

/-- The bucket of an edge holds the links of a chain from `u` to `w`, and its weights and durations add up to those of the edge
if 32 bits hold the sum. -/
structure HoldsChain (x : GraphCompressor n) (graph : NodeBasedDynamicGraph n) (st : Compression n) (u : Fin n) (e : ℕ) (w : Fin n)
    (links : List (Link (Fin n))) (bucket : List (OnewayCompressedEdge (Fin n))) : Prop where
  leads : Link.Leads u links w
  kinds : ∀ l ∈ links, l.IsSegment graph ∨ l.IsSignal x
  found : st.geometry.getBucketReference e = some bucket
  entries : bucket = links.map Link.stored
  weight : (bucket.map fun entry => (entry.weight : ℤ)).sum < 2 ^ 31 →
    (st.graph.getEdgeData e).weight = (bucket.map fun entry => (entry.weight : ℤ)).sum
  duration : (bucket.map fun entry => (entry.duration : ℤ)).sum < 2 ^ 31 →
    (st.graph.getEdgeData e).duration = (bucket.map fun entry => (entry.duration : ℤ)).sum

section Buckets

variable {x : GraphCompressor n} {graph : NodeBasedDynamicGraph n} {st : Compression n} {u w : Fin n} {e : ℕ}
  {links links' : List (Link (Fin n))} {inner : List (Fin n)}

theorem WithinLimits.clip {cost : ℤ × ℤ} (limits : WithinLimits cost) :
    (clipWeight cost.1 : ℤ) = cost.1 ∧ (clipDuration cost.2 : ℤ) = cost.2 :=
  ⟨clip_of_lt (by decide) limits.1.1 limits.1.2, clip_of_lt (by decide) limits.2.1 limits.2.2⟩

theorem WithinLimits.typed {cost : ℤ × ℤ} (limits : WithinLimits cost) : wrapCost cost = cost := by
  obtain ⟨⟨low, high⟩, low', high'⟩ := limits
  have small : (invalidSegmentWeight : ℤ) < 2 ^ 31 := by decide
  exact Prod.ext (FitsInt.wrap ⟨by omega, by omega⟩) (FitsInt.wrap ⟨by omega, by omega⟩)

theorem wrap_sum {α : Type} {f : α → ℕ} {l : List α} {total : ℤ} (sum : total = (l.map fun a => (f a : ℤ)).sum)
    (fits : (l.map fun a => (f a : ℤ)).sum < 2 ^ 31) : total.bmod (2 ^ 32) = (l.map fun a => (f a : ℤ)).sum := by
  have low : 0 ≤ (l.map fun a => (f a : ℤ)).sum := sum_nonneg (by simp)
  rw [sum]
  exact FitsInt.wrap ⟨by omega, fits⟩

/-- With the limits kept, the entries hold the costs of the links. -/
theorem Describes.holdsChain {bound : ℕ} (describes : Describes x graph bound st u e w links inner)
    (bucket : st.geometry.getBucketReference e = some (links.map Link.entry))
    (limits : ∀ u e w, graph.Edge u e w → WithinLimits (graph.getEdgeData e).cost)
    (penalty : WithinLimits (x.signalPenalty.weight, x.signalPenalty.duration)) :
    HoldsChain x graph st u e w links (links.map Link.stored) := by
  have within : ∀ l ∈ links, WithinLimits l.cost := by
    intro l here
    rcases describes.kinds l here with ⟨e, edge, cost⟩ | ⟨-, cost | cost⟩
    · rw [← cost]
      exact limits _ e _ edge
    · rw [cost]
      exact penalty
    · rw [cost]
      exact ⟨⟨le_rfl, by decide⟩, le_rfl, by decide⟩
  have stored : ∀ l ∈ links, l.entry = l.stored := by
    intro l here
    obtain ⟨weight, duration⟩ := (within l here).clip
    rw [Link.entry, CompressedEdgeContainer.entry, Link.stored, ← weight, ← duration, Int.toNat_natCast, Int.toNat_natCast,
      weight, duration]
  refine ⟨describes.leads, describes.kinds, ?_, rfl, ?_, ?_⟩
  · rw [bucket, map_congr_left stored]
  · have sum : ((links.map Link.cost).sum).1 = ((links.map Link.stored).map fun entry => (entry.weight : ℤ)).sum := by
      refine (map_list_sum (AddMonoidHom.fst ℤ ℤ) _).trans ?_
      rw [map_map, map_map]
      exact congrArg List.sum (map_congr_left fun l here => (Int.toNat_of_nonneg (within l here).1.1).symm)
    exact fun fits => (congrArg Prod.fst describes.cost).trans (wrap_sum sum fits)
  · have sum : ((links.map Link.cost).sum).2 = ((links.map Link.stored).map fun entry => (entry.duration : ℤ)).sum := by
      refine (map_list_sum (AddMonoidHom.snd ℤ ℤ) _).trans ?_
      rw [map_map, map_map]
      exact congrArg List.sum (map_congr_left fun l here => (Int.toNat_of_nonneg (within l here).2.1).symm)
    exact fun fits => (congrArg Prod.snd describes.cost).trans (wrap_sum sum fits)

theorem Link.Leads.nodes {V : Type} {a b : V} {links : List (Link V)} (leads : Link.Leads a links b) :
    a :: links.map Link.head = links.map Link.tail ++ [b] := by
  induction links generalizing a with
  | nil => exact congrArg (· :: []) leads
  | cons l links ih =>
    rw [map_cons, ih leads.2, map_cons, leads.1, cons_append]

theorem opposite_tails {V : Type} {links links' : List (Link V)} (opposite : Forall₂ Link.Opposite links links') :
    links'.map Link.head = links.map Link.tail := by
  induction opposite with
  | nil => rfl
  | cons pair _ ih => rw [map_cons, map_cons, ih, pair.2]

/-- Mirror images have mirrored nodes. -/
theorem opposite_nodes (leads : Link.Leads u links w) (opposite : Forall₂ Link.Opposite links links'.reverse) :
    (u :: links.map Link.head).reverse = w :: links'.map Link.head := by
  rw [leads.nodes, reverse_append, ← opposite_tails opposite, map_reverse, reverse_reverse]
  rfl

end Buckets

/-- **Compression preserves chains.** After `Compress` each edge from `u` to `w` and the opposite edge have buckets of equal length
with mirrored nodes. Each bucket holds the links of a chain of the original graph, and `ZipEdges` puts the two costs of a link side
by side. -/
theorem compress_preservesChains (x : GraphCompressor n) (graph : NodeBasedDynamicGraph n) (mirrored : graph.Mirrored)
    (limits : ∀ u e w, graph.Edge u e w → WithinLimits (graph.getEdgeData e).cost)
    (penalty : WithinLimits (x.signalPenalty.weight, x.signalPenalty.duration)) :
    ∃ st, x.compress graph CompressedEdgeContainer.empty = some st ∧ ∀ u e w, st.graph.Edge u e w →
      ∃ e' forward backward bucket bucket', st.graph.Edge w e' u ∧ HoldsChain x graph st u e w forward bucket ∧
        HoldsChain x graph st w e' u backward bucket' ∧ Forall₂ Link.Opposite forward backward.reverse ∧
        bucket.length = bucket'.length ∧ (u :: bucket.map (·.nodeId)).reverse = w :: bucket'.map (·.nodeId) ∧
        ∀ c : CompressedEdgeContainer (Fin n), c.geometries = st.geometry.geometries →
          ∃ c', c.zipEdges e e' = some (c.segmentData.index.length, c') ∧ c'.geometries = c.geometries ∧
            c'.segmentData = appendZipped c.segmentData u bucket bucket' := by
  obtain ⟨st, links, inner, compressed, mirrored', chains, opposites⟩ :=
    compress_spec x mirrored fun u e w edge => (limits u e w edge).typed
  refine ⟨st, compressed, ?_⟩
  intro u e w edge
  obtain ⟨e', edge'⟩ := mirrored'.mirror edge
  have balanced : x.Balanced := by
    right
    intro maximal
    have small := penalty.2.2
    dsimp only at small
    rw [maximal] at small
    exact absurd small (by decide)
  have opposite := opposites balanced edge edge'
  have forward := (chains edge).1.holdsChain (chains edge).2 limits penalty
  have backward := (chains edge').1.holdsChain (chains edge').2 limits penalty
  have nodes := opposite_nodes forward.leads opposite
  have heads : ∀ l : List (Link (Fin n)), (l.map Link.stored).map (·.nodeId) = l.map Link.head := fun l => map_map
  have length : ((links u e).map Link.stored).length = ((links w e').map Link.stored).length := by
    rw [length_map, length_map, opposite.length_eq, length_reverse]
  refine ⟨e', links u e, links w e', _, _, edge', forward, backward, opposite, length, ?_, ?_⟩
  · rw [heads, heads]
    exact nodes
  · intro c same
    have reference : ∀ d, c.getBucketReference d = st.geometry.getBucketReference d := fun d => congrArg (fun t => t.get d) same
    have start : ((links w e').map Link.stored).getLast?.map (·.nodeId) = some u := by
      rw [← getLast?_map, heads]
      have last := backward.leads.getLastD
      cases list : (links w e').map Link.head with
      | nil =>
        rw [list] at last
        rw [show w = u from last] at edge
        exact absurd edge mirrored'.loopless
      | cons a rest =>
        rw [list, getLastD_cons, getLastD_eq_getLast?] at last
        rw [getLast?_cons, last]
    obtain ⟨c', zipped, unchanged, -, -, data⟩ := zipEdges_eq ((reference e).trans forward.found)
      ((reference e').trans backward.found) length start
    exact ⟨c', zipped, unchanged, data⟩

def exampleNode (k : ℕ) : Fin 4 := ⟨k % 4, Nat.mod_lt k (Nat.succ_pos 3)⟩

/-- A graph with edges of weight and duration `10`. -/
def unitGraph (edges : List (ℕ × ℕ)) : NodeBasedDynamicGraph 4 :=
  let data : NodeBasedEdgeData := ⟨10, 10, 10, false, ⟨true, true, false, false, false, true, false, ⟨false, false, false, 0⟩⟩, 0⟩
  DynamicGraphArray.ofEdges (fun _ => ⟨none, data⟩) (edges.map fun edge => ⟨exampleNode edge.1, exampleNode edge.2, data⟩)

/-- A road along the nodes `0`, `1`, `2` and `3`. -/
def road : NodeBasedDynamicGraph 4 := unitGraph [(0, 1), (1, 0), (1, 2), (2, 1), (2, 3), (3, 2)]

/-- A signal of weight and duration `20` on one segment. -/
def signalOn (segment : Fin 4 × Fin 4) : GraphCompressor 4 where
  barrierNodes := ∅
  trafficSignals := ⟨∅, { segment }⟩
  turnDuration := 2
  turnWeight := 2
  weightMultiplier := 10
  turnRestrictions := []
  instructionNodes := []
  nodeDataContainer _ := ⟨0, 0, 0, 0, false⟩

theorem size_road : ∀ u, (road.nodeArray u).firstEdge + (road.nodeArray u).edges ≤ 6 := by decide

theorem mirrored_road : road.Mirrored :=
  DynamicGraphArray.mirrored_of_size size_road (by decide) (by decide) (by decide) (by decide)
    (by decide)

theorem limits_road (u : Fin 4) (e : ℕ) (w : Fin 4) (edge : road.Edge u e w) : WithinLimits (road.getEdgeData e).cost := by
  have all : ∀ d < 6, WithinLimits (road.getEdgeData d).cost := by decide
  exact all e (edge.1.2.trans_le (size_road u))

/-- The road becomes one edge in each direction; the signal at node `1` has an entry in both. -/
theorem compress_preservesChains_road : ∃ st e, (signalOn (0, 1)).compress road CompressedEdgeContainer.empty = some st ∧
    st.graph.Edge 0 e 3 ∧ ∃ e' bucket bucket', st.graph.Edge 3 e' 0 ∧ st.geometry.getBucketReference e = some bucket ∧
      st.geometry.getBucketReference e' = some bucket' ∧ bucket.map (·.nodeId) = [1, 1, 2, 3] ∧ bucket.map (·.weight) = [10, 20, 10, 10] ∧
      (0 :: bucket.map (·.nodeId)).reverse = 3 :: bucket'.map (·.nodeId) := by
  have evaluated : ((signalOn (0, 1)).compress road CompressedEdgeContainer.empty).map (fun st => (st.graph.findEdge 0 3,
      (st.geometry.getBucketReference 0).map fun bucket => (bucket.map (·.nodeId), bucket.map (·.weight)))) =
      some (some 0, some ([1, 1, 2, 3], [10, 20, 10, 10])) := by
    decide +kernel
  obtain ⟨st, compressed, chains⟩ := compress_preservesChains (signalOn (0, 1)) road mirrored_road limits_road (by decide +kernel)
  rw [compressed] at evaluated
  obtain ⟨found, entries⟩ := Prod.mk.inj (Option.some.inj evaluated)
  have edge := DynamicGraphArray.edge_of_findEdge found
  obtain ⟨e', forward, backward, bucket, bucket', edge', holds, holds', -, -, nodes, -⟩ := chains 0 0 3 edge
  rw [holds.found] at entries
  obtain ⟨ids, weights⟩ := Prod.mk.inj (Option.some.inj entries)
  exact ⟨st, 0, compressed, edge, e', bucket, bucket', edge', holds.found, holds'.found, ids, weights, nodes⟩

end Osrm.Extractor
