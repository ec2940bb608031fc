import Osrm.Partitioner.DinicMaxFlow
import Mathlib.Data.Rat.Floor

/-!
# The best of the partitioner's cuts

`bestMinCut` cuts a view along several slopes and keeps the cut with the least number of edges, scaled
by a penalty for sides of different size. The rounds run in parallel and take turns at the running
best, so they finish in any order. The penalty is a rational here; the running best keeps it in an
`int`, which drops its fraction and holds what is left (`getBalance_lt`). Products with the
running best do not overflow.
-/

namespace Osrm.Partitioner.InertialFlow

open DinicMaxFlow (MinCut)

open List

variable {n : ℕ} (balance : ℚ) (blank cut : MinCut n) (cuts : List (MinCut n))

def getBalance : ℚ :=
  let allowedBalance := balance * (n / 2 : ℕ)
  let biggerSide := max cut.numNodesSource (n - cut.numNodesSource)
  if allowedBalance < biggerSide then biggerSide / allowedBalance else 1

def balanceDelta : ℕ := ((n / 2 : ℕ) - cut.numNodesSource : ℤ).natAbs

/-- What a cut costs: its edges times the penalty. -/
def cost : ℚ := cut.numEdges * getBalance balance cut

/-- `best` and `best_balance` -/
structure Best (n : ℕ) where
  cut : MinCut n
  balance : ℤ

/-- The cut is better than the running best. -/
def Replaces (best : Best n) : Prop :=
  cost balance cut < best.cut.numEdges * best.balance ∨
    cut.numEdges = best.cut.numEdges ∧ balanceDelta cut < balanceDelta best.cut

instance (best : Best n) : Decidable (Replaces balance cut best) := inferInstanceAs (Decidable (_ ∨ _))

/-- The running best after the assignments of a round. -/
def keep : Best n := ⟨cut, ⌊getBalance balance cut⌋⟩

/-- One round's turn at the running best. -/
def round (best : Best n) (cut : MinCut n) : Best n := if Replaces balance cut best then keep balance cut else best

/-- `bestMinCut` on the cuts of the rounds in the order they finish. At the start `num_edges` of `best` is `-1` and its other
fields are not set. -/
def bestMinCut : MinCut n :=
  (cuts.foldl (round balance) ⟨{ blank with numEdges := 2 ^ 64 - 1 }, 1⟩).cut

/-- A cut of the list that costs least. -/
def IsBest : Prop := cut ∈ cuts ∧ ∀ other ∈ cuts, cost balance cut ≤ cost balance other

variable {balance cut cuts} {b m : MinCut n} {rest : List (MinCut n)}

/-- An `int` holds the penalty for every balance above `3 / 2^31`; the default is 1.2. -/
theorem getBalance_lt (wide : 3 < balance * 2 ^ 31) (two : 2 ≤ n) (side : cut.numNodesSource ≤ n) :
    1 ≤ getBalance balance cut ∧ getBalance balance cut < 2 ^ 31 := by
  have half : (n : ℚ) ≤ 3 * (n / 2 : ℕ) := by
    have : n ≤ 3 * (n / 2) := by omega
    exact_mod_cast this
  have bigger : ((max cut.numNodesSource (n - cut.numNodesSource) : ℕ) : ℚ) ≤ n := by
    have : max cut.numNodesSource (n - cut.numNodesSource) ≤ n := by omega
    exact_mod_cast this
  have some : (0 : ℚ) < (n / 2 : ℕ) := by
    have : 0 < n / 2 := by omega
    exact_mod_cast this
  have allowed : 0 < balance * (n / 2 : ℕ) := mul_pos (by linarith) some
  simp only [getBalance]
  split_ifs with outside
  · refine ⟨(one_le_div allowed).2 outside.le, ?_⟩
    rw [div_lt_iff₀ allowed]
    calc ((max cut.numNodesSource (n - cut.numNodesSource) : ℕ) : ℚ) ≤ 3 * (n / 2 : ℕ) := bigger.trans half
      _ < balance * 2 ^ 31 * (n / 2 : ℕ) := mul_lt_mul_of_pos_right wide some
      _ = 2 ^ 31 * (balance * (n / 2 : ℕ)) := by ring
  · exact ⟨le_rfl, by norm_num⟩

variable (balance b rest) in
theorem foldl_round_keep :
    ∃ c ∈ b :: rest, rest.foldl (round balance) (keep balance b) = keep balance c := by
  induction rest generalizing b with
  | nil => exact ⟨b, mem_singleton_self b, rfl⟩
  | cons cut rest ih =>
    rw [foldl_cons, round]
    split_ifs with replaces
    · obtain ⟨c, among, same⟩ := ih cut
      exact ⟨c, mem_cons_of_mem b among, same⟩
    · obtain ⟨c, among, same⟩ := ih b
      exact ⟨c, by grind, same⟩

theorem foldl_round_eq {best : Best n} (kept : ∀ cut ∈ rest, ¬ Replaces balance cut best) :
    rest.foldl (round balance) best = best := by
  induction rest with
  | nil => rfl
  | cons cut rest ih =>
    obtain ⟨first, later⟩ := forall_mem_cons.1 kept
    rw [foldl_cons, round, if_neg first, ih later]

theorem bestMinCut_cons (fits : cost balance b < 2 ^ 64 - 1) : bestMinCut balance blank (b :: rest) =
    (rest.foldl (round balance) (keep balance b)).cut := by
  have turn : Replaces balance b ⟨{ blank with numEdges := 2 ^ 64 - 1 }, 1⟩ := by
    apply Or.inl
    norm_num at fits ⊢
    exact fits
  rw [bestMinCut, foldl_cons, round, if_pos turn]

section Costs

variable (positive : 0 < balance * (n / 2 : ℕ))

include positive

/-- More even sides have no larger penalty. -/
theorem getBalance_le (delta : balanceDelta cut < balanceDelta b) : getBalance balance cut ≤ getBalance balance b := by
  have sides : max cut.numNodesSource (n - cut.numNodesSource) ≤ max b.numNodesSource (n - b.numNodesSource) := by
    unfold balanceDelta at delta
    omega
  have sides : (max cut.numNodesSource (n - cut.numNodesSource) : ℕ) ≤ ((max b.numNodesSource (n - b.numNodesSource) : ℕ) : ℚ) := by
    exact_mod_cast sides
  simp only [getBalance]
  split_ifs with outside outside'
  · gcongr
  · exact absurd (outside.trans_le sides) outside'
  · exact (one_le_div positive).2 (by assumption : _ < _).le
  · exact le_rfl

/-- A best cut is only replaced by a best one. -/
theorem IsBest.replaced (best : IsBest balance b cuts) (member : cut ∈ cuts) (replaces : Replaces balance cut (keep balance b)) :
    IsBest balance cut cuts := by
  obtain cheaper | ⟨edges, delta⟩ := replaces
  · have truncated : b.numEdges * (⌊getBalance balance b⌋ : ℚ) ≤ cost balance b :=
      mul_le_mul_of_nonneg_left (Int.floor_le _) (Nat.cast_nonneg _)
    exact absurd (cheaper.trans_le truncated) (best.2 cut member).not_gt
  · refine ⟨member, fun other among => le_trans ?_ (best.2 other among)⟩
    rw [cost, edges]
    exact mul_le_mul_of_nonneg_left (getBalance_le positive delta) (Nat.cast_nonneg _)

/-- A best cut that did not replace the running best does not replace a later one either. -/
theorem IsBest.passed (best : IsBest balance m cuts) (member : cut ∈ cuts) (replaces : Replaces balance cut (keep balance b))
    (passed : ¬ Replaces balance m (keep balance b)) : ¬ Replaces balance m (keep balance cut) := by
  obtain ⟨costs, deltas⟩ := not_or.1 passed
  obtain cheaper | ⟨edges, delta⟩ := replaces
  · exact absurd (best.2 cut member) (not_le.2 (cheaper.trans_le (not_lt.1 costs)))
  · have penalty : (⌊getBalance balance cut⌋ : ℚ) ≤ ⌊getBalance balance b⌋ :=
      Int.cast_le.2 (Int.floor_le_floor (getBalance_le positive delta))
    rintro (cheaper | ⟨same, less⟩)
    · apply costs (cheaper.trans_le _)
      show (cut.numEdges * _ : ℚ) ≤ _
      rw [edges]
      exact mul_le_mul_of_nonneg_left penalty (Nat.cast_nonneg _)
    · exact deltas ⟨same.trans edges, less.trans delta⟩

/-- A best cut that has had its turn leaves a best one or one that it does not replace. -/
theorem foldl_round_settled (among : ∀ cut ∈ rest, cut ∈ cuts) (best : IsBest balance m cuts)
    (turn : m ∈ rest ∨ IsBest balance b cuts ∨ ¬ Replaces balance m (keep balance b)) :
    let last := rest.foldl (round balance) (keep balance b)
    IsBest balance last.cut cuts ∨ ¬ Replaces balance m last := by
  induction rest generalizing b with
  | nil => exact turn.resolve_left not_mem_nil
  | cons cut rest ih =>
    obtain ⟨member, later⟩ := forall_mem_cons.1 among
    rw [foldl_cons, round]
    split_ifs with replaces
    · apply ih later
      obtain mine | settled := turn
      · obtain rfl | waits := mem_cons.1 mine
        · exact .inr (.inl best)
        · exact .inl waits
      · exact .inr (settled.imp (·.replaced positive member replaces) (best.passed positive member replaces))
    · apply ih later
      obtain mine | settled := turn
      · obtain rfl | waits := mem_cons.1 mine
        · exact .inr (.inr replaces)
        · exact .inl waits
      · exact .inr settled

end Costs

/-- **The returned cut is best**, in whatever order the rounds finish, exactly if every cut that is not best is replaced by
a best one. -/
theorem bestMinCut_isBest_iff (positive : 0 < balance * (n / 2 : ℕ)) (fits : ∀ cut ∈ cuts, cost balance cut < 2 ^ 64 - 1) :
    (∀ order, order.Perm cuts → IsBest balance (bestMinCut balance blank order) cuts) ↔ cuts ≠ [] ∧
      ∀ b ∈ cuts, IsBest balance b cuts ∨ ∃ m, IsBest balance m cuts ∧ Replaces balance m (keep balance b) := by
  constructor
  · intro always
    refine ⟨?_, fun b member => ?_⟩
    · rintro rfl
      exact not_mem_nil (always [] .rfl).1
    · by_contra none
      obtain ⟨worse, kept⟩ := not_or.1 none
      -- All best cuts have their turn right after this one and are lost.
      classical
      obtain ⟨before, after, split⟩ := append_of_mem member
      have perm := (filter_append_perm (IsBest balance · cuts) (before ++ after)).cons b
      have returned := always _ ((perm.trans perm_middle.symm).trans (.of_eq split.symm))
      rw [bestMinCut_cons _ (fits b member), foldl_append, foldl_round_eq fun m best replaces =>
        kept ⟨m, of_decide_eq_true (mem_filter.1 best).2, replaces⟩] at returned
      obtain ⟨c, last, same⟩ := foldl_round_keep balance b
        ((before ++ after).filter fun cut => !decide (IsBest balance cut cuts))
      rw [same] at returned
      obtain rfl | among := mem_cons.1 last
      · exact worse returned
      · have bad : ¬ IsBest balance c cuts := by simpa using (mem_filter.1 among).2
        exact bad returned
  · rintro ⟨nonempty, replaced⟩ order perm
    obtain _ | ⟨first, rest⟩ := order
    · exact absurd perm.nil_eq.symm nonempty
    obtain ⟨member, among⟩ := forall_mem_cons.1 fun cut => (perm.mem_iff (a := cut)).1
    obtain ⟨c, last, same⟩ := foldl_round_keep balance first rest
    rw [bestMinCut_cons _ (fits first member), same]
    obtain best | ⟨m, best, replaces⟩ := replaced c (perm.mem_iff.1 last)
    · exact best
    · have turn : m ∈ rest ∨ IsBest balance first cuts ∨ ¬ Replaces balance m (keep balance first) := by
        obtain rfl | waits := mem_cons.1 (perm.mem_iff.2 best.1)
        · exact .inr (.inl best)
        · exact .inl waits
      have settled := foldl_round_settled positive among best turn
      rw [same] at settled
      exact settled.resolve_right (not_not.2 replaces)

/-- Two cuts of four nodes, an uneven one of ten edges and an even one. -/
def twoCuts (edges : ℕ) : List (MinCut 4) := [⟨1, 10, fun node => node.val < 1⟩, ⟨2, edges, fun node => node.val < 2⟩]

theorem bestMinCut_isBest_even : IsBest (5 / 4) (bestMinCut (5 / 4) ⟨0, 0, fun _ => false⟩ (twoCuts 9)) (twoCuts 9) := by
  have even : IsBest (5 / 4) ⟨2, 9, fun node => node.val < 2⟩ (twoCuts 9) := by
    refine ⟨mem_cons_of_mem _ mem_cons_self, forall_mem_cons.2 ⟨?_, by simp⟩⟩
    decide +kernel
  refine (bestMinCut_isBest_iff _ (by decide +kernel) (by decide +kernel)).2 ⟨cons_ne_nil _ _, ?_⟩ _ .rfl
  exact forall_mem_cons.2 ⟨.inr ⟨_, even, by decide +kernel⟩, forall_mem_singleton.2 (.inl even)⟩

/-- The penalty 1.2 of the uneven cut is kept as 1, so that an even cut of eleven edges that finishes later is not taken. -/
theorem bestMinCut_truncated : ¬ IsBest (5 / 4) (bestMinCut (5 / 4) ⟨0, 0, fun _ => false⟩ (twoCuts 11)) (twoCuts 11) := by
  intro best
  have cheaper : ∃ cut ∈ twoCuts 11, cost (5 / 4) cut < cost (5 / 4) (bestMinCut (5 / 4) ⟨0, 0, fun _ => false⟩ (twoCuts 11)) := by
    decide +kernel
  obtain ⟨cut, among, less⟩ := cheaper
  exact absurd (best.2 cut among) (not_le.2 less)

end Osrm.Partitioner.InertialFlow
