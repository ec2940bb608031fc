import Mathlib.Data.List.Nodup
import Mathlib.Data.Set.Function

/-!
# Permuting an array in place

`inplacePermutation` follows the cycles of a permutation and marks the elements whose new
place is filled. While a cycle is open, one element is held in a buffer and one place waits
for the last of them (`OpenCycle`).
-/

namespace Osrm.Util

open Function List

variable {ι α : Type*} [DecidableEq ι]

/-- The loop over a cycle that starts in `index`; `old` is the place that the buffer was taken from. -/
def followCycle (oldToNew : ι → ι) (index : ι) : ℕ → (ι → α) → (ι → Bool) → α → ι → (ι → α) × (ι → Bool)
  | 0, a, replaced, _, _ => (a, replaced)
  | fuel + 1, a, replaced, buffer, old =>
    let new := oldToNew old
    if new = index then (update a index buffer, update replaced old true)
    else followCycle oldToNew index fuel (update a new buffer) (update replaced old true) (a new) new

/-- One iteration of the loop of `inplacePermutation`. -/
def permuteFrom (oldToNew : ι → ι) (fuel : ℕ) (st : (ι → α) × (ι → Bool)) (index : ι) : (ι → α) × (ι → Bool) :=
  if st.2 index then st
  else if oldToNew index = index then (st.1, update st.2 index true)
  else followCycle oldToNew index fuel st.1 st.2 (st.1 index) index

/-- `inplacePermutation` over the given indices. A cycle has no more elements than there are indices. -/
def inplacePermutation (indices : List ι) (oldToNew : ι → ι) (a : ι → α) : ι → α :=
  (indices.foldl (permuteFrom oldToNew indices.length) (a, fun _ => false)).1

section Cycles

variable {S : List ι} {f : ι → ι} {a₀ a : ι → α} {replaced : ι → Bool}

variable (S f a₀ a replaced) in
/-- The marked elements are at their new places and form whole cycles, all others are where they were. -/
structure Permuted : Prop where
  inside : ∀ x, replaced x = true → x ∈ S
  moved : ∀ x, replaced x = true → a (f x) = a₀ x
  kept : ∀ x, (∀ y, replaced y = true → f y ≠ x) → a x = a₀ x
  forward : ∀ x, replaced x = true → replaced (f x) = true
  backward : ∀ x ∈ S, replaced (f x) = true → replaced x = true

/-- A cycle that started in `index` and has reached `old`: the marks end in `old` and lack the element before `index`. -/
structure OpenCycle (S : List ι) (f : ι → ι) (index : ι) (a₀ a : ι → α) (replaced : ι → Bool) (buffer : α) (old : ι) : Prop where
  inside : ∀ x, replaced x = true → x ∈ S
  moved : ∀ x, replaced x = true → a (f x) = a₀ x
  kept : ∀ x, (∀ y, replaced y = true → f y ≠ x) → a x = a₀ x
  forward : ∀ x, replaced x = true → replaced (f x) = true ∨ f x = old
  backward : ∀ x ∈ S, replaced (f x) = true → replaced x = true ∨ f x = index
  here : old ∈ S
  unmarked : replaced old = false
  buffered : buffer = a₀ old
  before : ∀ x ∈ S, f x = old → replaced x = true ∨ old = index
  started : replaced index = true ∨ old = index

theorem marked_update {old x : ι} : update replaced old true x = true ↔ x = old ∨ replaced x = true := by
  by_cases same : x = old
  · simp [same]
  · simp [same]

/-- The number of elements that are not marked. -/
def freeCount (S : List ι) (replaced : ι → Bool) : ℕ := S.countP (!replaced ·)

theorem freeCount_update {old : ι} (mem : old ∈ S) (free : replaced old = false) :
    freeCount S (update replaced old true) < freeCount S replaced := by
  unfold freeCount
  induction S with
  | nil => cases mem
  | cons x S ih =>
    have le : S.countP (!update replaced old true ·) ≤ S.countP (!replaced ·) := by
      apply countP_mono_left
      intro y _ free
      by_cases same : y = old
      · simp [same] at free
      · simpa [same] using free
    rw [countP_cons, countP_cons]
    by_cases same : x = old
    · simp only [same, update_self, free]
      simp only [Bool.not_true, Bool.not_false, Bool.false_eq_true, if_false, if_true]
      omega
    · rcases mem_cons.1 mem with rfl | mem
      · exact absurd rfl same
      · have := ih mem
        rw [update_of_ne same]
        omega

variable (maps : ∀ x ∈ S, f x ∈ S) (inj : ∀ x ∈ S, ∀ y ∈ S, f x = f y → x = y)

include maps inj

variable {index old : ι} {buffer : α}

section Cycle

variable (inv : OpenCycle S f index a₀ a replaced buffer old)

include inv

omit maps in
/-- One more element is moved to its place and marked. -/
theorem OpenCycle.mark :
    (∀ x, update replaced old true x = true → x ∈ S) ∧
      (∀ x, update replaced old true x = true → update a (f old) buffer (f x) = a₀ x) ∧
      (∀ x, (∀ y, update replaced old true y = true → f y ≠ x) → update a (f old) buffer x = a₀ x) ∧
      ∀ x, replaced x = true → f x ≠ f old := by
  have apart : ∀ x, replaced x = true → f x ≠ f old := by
    intro x marked same
    have eq := inj x (inv.inside x marked) old inv.here same
    rw [eq, inv.unmarked] at marked
    cases marked
  refine ⟨?_, ?_, ?_, apart⟩
  · intro x marked
    rcases marked_update.1 marked with rfl | marked
    · exact inv.here
    · exact inv.inside x marked
  · intro x marked
    rcases marked_update.1 marked with rfl | marked
    · rw [update_self, inv.buffered]
    · rw [update_of_ne (apart x marked), inv.moved x marked]
  · intro x target
    have other : x ≠ f old := fun same => target old (marked_update.2 (.inl rfl)) same.symm
    rw [update_of_ne other]
    exact inv.kept x fun y marked => target y (marked_update.2 (.inr marked))

/-- **The step along a cycle.** -/
theorem OpenCycle.step (open_ : f old ≠ index) :
    OpenCycle S f index a₀ (update a (f old) buffer) (update replaced old true) (a (f old)) (f old) := by
  obtain ⟨inside, moved, kept, apart⟩ := inv.mark inj
  have free : replaced (f old) = false := by
    cases marked : replaced (f old) with
    | false => rfl
    | true =>
      rcases inv.backward old inv.here marked with back | back
      · rw [inv.unmarked] at back
        cases back
      · exact absurd back open_
  have moving : f old ≠ old := by
    intro fixed
    rcases inv.before old inv.here fixed with marked | start
    · rw [inv.unmarked] at marked
      cases marked
    · exact open_ (fixed.trans start)
  refine ⟨inside, moved, kept, ?_, ?_, maps old inv.here, ?_, inv.kept (f old) apart, ?_, ?_⟩
  · intro x marked
    rcases marked_update.1 marked with rfl | marked
    · exact .inr rfl
    · rcases inv.forward x marked with next | next
      · exact .inl (marked_update.2 (.inr next))
      · exact .inl (marked_update.2 (.inl next))
  · intro x hx marked
    rcases marked_update.1 marked with here | marked
    · rcases inv.before x hx here with back | start
      · exact .inl (marked_update.2 (.inr back))
      · exact .inr (here.trans start)
    · rcases inv.backward x hx marked with back | start
      · exact .inl (marked_update.2 (.inr back))
      · exact .inr start
  · rw [update_of_ne moving, free]
  · intro x hx same
    exact .inl (marked_update.2 (.inl (inj x hx old inv.here same)))
  · rcases inv.started with marked | start
    · exact .inl (marked_update.2 (.inr marked))
    · exact .inl (marked_update.2 (.inl start.symm))

omit maps in
/-- **The end of a cycle.** -/
theorem OpenCycle.close (last : f old = index) :
    Permuted S f a₀ (update a index buffer) (update replaced old true) := by
  subst last
  obtain ⟨inside, moved, kept, -⟩ := inv.mark inj
  refine ⟨inside, moved, kept, ?_, ?_⟩
  · intro x marked
    rcases marked_update.1 marked with rfl | marked
    · rw [marked_update]
      rcases inv.started with start | start
      · exact .inr start
      · exact .inl start.symm
    · rcases inv.forward x marked with next | next
      · exact marked_update.2 (.inr next)
      · exact marked_update.2 (.inl next)
  · intro x hx marked
    rcases marked_update.1 marked with here | marked
    · rcases inv.before x hx here with back | start
      · exact marked_update.2 (.inr back)
      · exact marked_update.2 (.inl (inj x hx old inv.here (here.trans start)))
    · rcases inv.backward x hx marked with back | start
      · exact marked_update.2 (.inr back)
      · exact marked_update.2 (.inl (inj x hx old inv.here start))

end Cycle

/-- **The run along a cycle.** -/
theorem OpenCycle.run (fuel : ℕ) : ∀ {a : ι → α} {replaced : ι → Bool} {buffer : α} {old : ι},
    OpenCycle S f index a₀ a replaced buffer old → freeCount S replaced ≤ fuel →
      Permuted S f a₀ (followCycle f index fuel a replaced buffer old).1 (followCycle f index fuel a replaced buffer old).2 ∧
      (followCycle f index fuel a replaced buffer old).2 index = true ∧
      ∀ x, replaced x = true → (followCycle f index fuel a replaced buffer old).2 x = true := by
  induction fuel with
  | zero =>
    intro a replaced buffer old inv enough
    have : 0 < freeCount S replaced := countP_pos_iff.2 ⟨old, inv.here, by rw [inv.unmarked]; rfl⟩
    omega
  | succ fuel ih =>
    intro a replaced buffer old inv enough
    have shorter := freeCount_update inv.here inv.unmarked
    rw [followCycle]
    by_cases last : f old = index
    · rw [if_pos last]
      refine ⟨inv.close inj last, ?_, fun x marked => marked_update.2 (.inr marked)⟩
      rcases inv.started with marked | start
      · exact marked_update.2 (.inr marked)
      · exact marked_update.2 (.inl start.symm)
    · rw [if_neg last]
      obtain ⟨done, marked, grows⟩ := ih (inv.step maps inj last) (by omega)
      exact ⟨done, marked, fun x hx => grows x (marked_update.2 (.inr hx))⟩

/-- One iteration marks the cycle of its index. -/
theorem Permuted.step (fuel : ℕ) (inv : Permuted S f a₀ a replaced) (mem : index ∈ S) (enough : S.length ≤ fuel) :
    Permuted S f a₀ (permuteFrom f fuel (a, replaced) index).1 (permuteFrom f fuel (a, replaced) index).2 ∧
      (permuteFrom f fuel (a, replaced) index).2 index = true ∧
      ∀ x, replaced x = true → (permuteFrom f fuel (a, replaced) index).2 x = true := by
  unfold permuteFrom
  by_cases done : replaced index = true
  · rw [if_pos done]
    exact ⟨inv, done, fun x marked => marked⟩
  · rw [if_neg done]
    have free := Bool.eq_false_iff.2 done
    have target : ∀ y, replaced y = true → f y ≠ index := by
      intro y marked same
      have next := inv.forward y marked
      rw [same, free] at next
      cases next
    have start : OpenCycle S f index a₀ a replaced (a index) index := by
      refine ⟨inv.inside, inv.moved, inv.kept, ?_, ?_, mem, free, inv.kept index target, fun _ _ _ => .inr rfl, .inr rfl⟩
      · exact fun x marked => .inl (inv.forward x marked)
      · exact fun x hx marked => .inl (inv.backward x hx marked)
    by_cases fixed : f index = index
    · rw [if_pos fixed]
      have closed := start.close inj fixed
      rw [update_eq_self] at closed
      exact ⟨closed, marked_update.2 (.inl rfl), fun x marked => marked_update.2 (.inr marked)⟩
    · rw [if_neg fixed]
      exact start.run maps inj fuel ((countP_le_length).trans enough)

/-- **Permuting in place** puts every element at its new place and leaves the rest of the array alone. -/
theorem inplacePermutation_spec (a₀ : ι → α) :
    (∀ x ∈ S, inplacePermutation S f a₀ (f x) = a₀ x) ∧ ∀ x ∉ S, inplacePermutation S f a₀ x = a₀ x := by
  have run : ∀ (l : List ι), (∀ x ∈ l, x ∈ S) → ∀ (a : ι → α) (replaced : ι → Bool), Permuted S f a₀ a replaced →
      Permuted S f a₀ (l.foldl (permuteFrom f S.length) (a, replaced)).1 (l.foldl (permuteFrom f S.length) (a, replaced)).2 ∧
      ∀ x, (x ∈ l ∨ replaced x = true) → (l.foldl (permuteFrom f S.length) (a, replaced)).2 x = true := by
    intro l
    induction l with
    | nil =>
      intro _ a replaced inv
      exact ⟨inv, fun x marked => marked.resolve_left not_mem_nil⟩
    | cons index l ih =>
      intro inside a replaced inv
      obtain ⟨next, marked, grows⟩ := inv.step maps inj S.length (inside index mem_cons_self) le_rfl
      obtain ⟨done, all⟩ := ih (fun x hx => inside x (mem_cons_of_mem _ hx)) _ _ next
      refine ⟨done, fun x hx => ?_⟩
      rcases hx with mem | old
      · rcases mem_cons.1 mem with rfl | mem
        · exact all x (.inr marked)
        · exact all x (.inl mem)
      · exact all x (.inr (grows x old))
  have start : Permuted S f a₀ a₀ (fun _ => false) := ⟨nofun, nofun, fun _ _ => rfl, nofun, nofun⟩
  obtain ⟨done, all⟩ := run S (fun x hx => hx) a₀ _ start
  refine ⟨fun x hx => done.moved x (all x (.inl hx)), fun x hx => done.kept x fun y marked same => ?_⟩
  exact hx (same ▸ maps y (done.inside y marked))

end Cycles

/-- The loop of `orderingToPermutation`, on the vector that it fills. -/
def orderingToPermutation (ordering : List ℕ) : ℕ → ℕ :=
  ordering.zipIdx.foldl (fun permutation entry => update permutation entry.1 entry.2) fun _ => 0

theorem foldl_update_zipIdx : ∀ (ordering : List ℕ) (k : ℕ) (p : ℕ → ℕ) (x : ℕ), ordering.Nodup →
    (ordering.zipIdx k).foldl (fun p entry => update p entry.1 entry.2) p x =
      if x ∈ ordering then k + ordering.idxOf x else p x
  | [], _, _, _, _ => rfl
  | y :: ordering, k, p, x, distinct => by
    obtain ⟨fresh, distinct⟩ := nodup_cons.1 distinct
    rw [zipIdx_cons, foldl_cons, foldl_update_zipIdx ordering _ _ _ distinct]
    by_cases same : x = y
    · simp [same, fresh]
    · simp [same, idxOf_cons_ne _ (Ne.symm same), Nat.add_right_comm, Nat.add_assoc]

/-- **Sorting by an ordering.** The loop of `orderingToPermutation` finds the places of the indices in an ordering, and
permuting in place by them puts the elements in that order. -/
theorem inplacePermutation_ordering {n : ℕ} {ordering : List ℕ} (perm : ordering ~ range n) (a : ℕ → α) :
    (∀ x ∈ range n, orderingToPermutation ordering x = ordering.idxOf x) ∧ ∀ i (inside : i < ordering.length),
      inplacePermutation (range n) (orderingToPermutation ordering) a i = a ordering[i] := by
  have distinct := perm.nodup_iff.2 nodup_range
  have place : ∀ x ∈ range n, orderingToPermutation ordering x = ordering.idxOf x := by
    intro x hx
    rw [orderingToPermutation, foldl_update_zipIdx _ _ _ _ distinct, if_pos (perm.mem_iff.2 hx), Nat.zero_add]
  refine ⟨place, fun i inside => ?_⟩
  have here := perm.mem_iff.1 (getElem_mem inside)
  have moved := (inplacePermutation_spec (S := range n) (f := orderingToPermutation ordering) ?_ ?_ a).1 _ here
  · rwa [place _ here, distinct.idxOf_getElem] at moved
  · intro x hx
    have := idxOf_lt_length_iff.2 (perm.mem_iff.2 hx)
    rwa [perm.length_eq, length_range, ← mem_range, ← place x hx] at this
  · intro x hx y hy same
    rw [place x hx, place y hy] at same
    exact (idxOf_inj (perm.mem_iff.2 hx)).1 same

theorem inplacePermutation_ordering_three : inplacePermutation (range 3) (orderingToPermutation [2, 0, 1]) id 0 = 2 :=
  (inplacePermutation_ordering (by decide) id).2 0 (by decide)

end Osrm.Util
