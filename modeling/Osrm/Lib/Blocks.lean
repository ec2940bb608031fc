import Mathlib.Data.List.Nodup

/-!
# Blocks in a shared array

`Stored a i l` says that an array holds a list from a place on. The lists `b u`, laid out one
after another in the order of `l`, are the blocks: where each of them starts, what stands in
it, and the table of starts that a loop with a running counter fills (`fold_starts`).
-/

namespace Osrm.Lib.Blocks

open Function List

section Stored

variable {α : Type*}

/-- The array holds the list from the place on. -/
def Stored (a : ℕ → α) : ℕ → List α → Prop
  | _, [] => True
  | i, x :: l => a i = x ∧ Stored a (i + 1) l

variable {a a' : ℕ → α} {i : ℕ} {x : α} {l l' : List α}

theorem stored_append : Stored a i (l ++ l') ↔ Stored a i l ∧ Stored a (i + l.length) l' := by
  induction l generalizing i with
  | nil => simp [Stored]
  | cons x l ih =>
    have place : i + (x :: l).length = i + 1 + l.length := by rw [length_cons]; omega
    simp only [cons_append, Stored, ih, place, and_assoc]

theorem stored_singleton : Stored a i [x] ↔ a i = x :=
  and_iff_left trivial

/-- Only the places of the list matter. -/
theorem Stored.congr (stored : Stored a i l) (same : ∀ j, i ≤ j → j < i + l.length → a' j = a j) : Stored a' i l := by
  induction l generalizing i with
  | nil => trivial
  | cons x l ih =>
    rw [length_cons] at same
    refine ⟨(same i (Nat.le_refl i) (by omega)).trans stored.1, ih stored.2 fun j low high => ?_⟩
    exact same j (by omega) (by omega)

theorem stored_iff : Stored a i l ↔ ∀ k (h : k < l.length), a (i + k) = l[k] := by
  induction l generalizing i with
  | nil => simp [Stored]
  | cons x l ih =>
    rw [Stored, ih]
    refine ⟨fun stored k h => ?_, fun stored => ⟨stored 0 (by simp), fun k h => ?_⟩⟩
    · cases k with
      | zero => exact stored.1
      | succ k => simpa [Nat.add_assoc, Nat.add_comm 1 k] using stored.2 k (by simpa using h)
    · rw [Nat.add_assoc, Nat.add_comm 1 k]
      exact stored (k + 1) (by simpa using h)

/-- What the array holds is what is read from it. -/
theorem Stored.eq_map (stored : Stored a i l) : (range l.length).map (fun k => a (i + k)) = l := by
  apply ext_getElem
  · simp
  · intro k _ h
    simpa using stored_iff.1 stored k h

end Stored

section Layout

variable {ι α : Type*} [DecidableEq ι] (b : ι → List α)

/-- The place at which the block of `u` starts. -/
def start : List ι → ι → ℕ
  | [], _ => 0
  | x :: l, u => if x = u then 0 else (b x).length + start l u

variable {b} {l : List ι} {u v : ι} {i k : ℕ} {a : ℕ → α}

@[simp] theorem start_head : start b (u :: l) u = 0 := if_pos rfl

theorem start_tail {x : ι} (other : x ≠ u) : start b (x :: l) u = (b x).length + start b l u := if_neg other

theorem start_add_le (mem : u ∈ l) : start b l u + (b u).length ≤ (l.flatMap b).length := by
  induction l with
  | nil => cases mem
  | cons x l ih =>
    rw [flatMap_cons, length_append]
    by_cases here : x = u
    · subst here
      rw [start_head]
      omega
    · have := ih ((mem_cons.1 mem).resolve_left (Ne.symm here))
      rw [start_tail here]
      omega

/-- What stands in a block. -/
theorem Stored.block (stored : Stored a i (l.flatMap b)) (mem : u ∈ l) : Stored a (i + start b l u) (b u) := by
  induction l generalizing i with
  | nil => cases mem
  | cons x l ih =>
    rw [flatMap_cons, stored_append] at stored
    by_cases here : x = u
    · subst here
      rw [start_head]
      exact stored.1
    · rw [start_tail here, ← Nat.add_assoc]
      exact ih stored.2 ((mem_cons.1 mem).resolve_left (Ne.symm here))

/-- The places of all blocks are the places from the first one on. -/
theorem flatMap_range' (nodup : l.Nodup) (i : ℕ) :
    l.flatMap (fun u => range' (i + start b l u) (b u).length) = range' i (l.flatMap b).length := by
  induction l generalizing i with
  | nil => rfl
  | cons x l ih =>
    rw [nodup_cons] at nodup
    have tail : l.flatMap (fun u => range' (i + start b (x :: l) u) (b u).length) =
        l.flatMap (fun u => range' (i + (b x).length + start b l u) (b u).length) := by
      apply flatMap_congr
      intro u mem
      have other : x ≠ u := fun same => nodup.1 (same ▸ mem)
      rw [start_tail other, Nat.add_assoc]
    rw [flatMap_cons, flatMap_cons, length_append, start_head, tail, ih nodup.2, ← range'_append_1, Nat.add_zero]

/-- Different blocks do not overlap. -/
theorem eq_of_block (hu : u ∈ l) (hv : v ∈ l) (first : start b l u ≤ i) (last : i < start b l u + (b u).length)
    (first' : start b l v ≤ i) (last' : i < start b l v + (b v).length) : u = v := by
  induction l generalizing i with
  | nil => cases hu
  | cons x l ih =>
    by_cases hereu : x = u
    · by_cases herev : x = v
      · exact hereu.symm.trans herev
      · subst hereu
        rw [start_head] at last
        rw [start_tail herev] at first'
        omega
    · by_cases herev : x = v
      · subst herev
        rw [start_tail hereu] at first
        rw [start_head] at last'
        omega
      · rw [start_tail hereu] at first last
        rw [start_tail herev] at first' last'
        exact ih ((mem_cons.1 hu).resolve_left (Ne.symm hereu)) ((mem_cons.1 hv).resolve_left (Ne.symm herev))
          (i := i - (b x).length) (by omega) (by omega) (by omega) (by omega)

/-- Every place belongs to a block. -/
theorem exists_block (nodup : l.Nodup) (bound : i < (l.flatMap b).length) :
    ∃ u ∈ l, start b l u ≤ i ∧ i < start b l u + (b u).length := by
  induction l generalizing i with
  | nil => cases bound
  | cons x l ih =>
    rw [nodup_cons] at nodup
    rw [flatMap_cons, length_append] at bound
    by_cases first : i < (b x).length
    · exact ⟨x, mem_cons_self, by rw [start_head]; omega, by rw [start_head]; omega⟩
    · obtain ⟨u, hu, low, high⟩ := ih nodup.2 (i := i - (b x).length) (by omega)
      have other : x ≠ u := fun same => nodup.1 (same ▸ hu)
      refine ⟨u, mem_cons_of_mem _ hu, ?_, ?_⟩
      · rw [start_tail other]
        omega
      · rw [start_tail other]
        omega

/-- A list whose elements are found at their numbers. -/
theorem stored_of_start {c : ι → α} (nodup : l.Nodup) (found : ∀ x ∈ l, a (i + start (fun x => [x]) l x) = c x) :
    Stored a i (l.map c) := by
  induction l generalizing i with
  | nil => trivial
  | cons x l ih =>
    rw [nodup_cons] at nodup
    have head := found x mem_cons_self
    rw [start_head] at head
    refine ⟨head, ih nodup.2 fun y mem => ?_⟩
    have other : x ≠ y := fun same => nodup.1 (same ▸ mem)
    have tail := found y (mem_cons_of_mem _ mem)
    rwa [start_tail other, length_singleton, ← Nat.add_assoc] at tail

end Layout

section Loop

variable {ι α β σ : Type*} [DecidableEq ι] (b : ι → List α) {l : List ι} (step : σ → ι → σ)
  (table : σ → ι → β) (counter : σ → ℕ) (write : ι → ℕ → β)

/-- A loop that writes down where each block starts. Its invariant may speak of the blocks ahead. -/
theorem fold_starts (inv : List ι → σ → Prop) (body : ∀ t x rest, inv (x :: rest) t → inv rest (step t x) ∧
      table (step t x) = update (table t) x (write x (counter t)) ∧ counter (step t x) = counter t + (b x).length)
    (nodup : l.Nodup) (st : σ) (initial : inv l st) : counter (l.foldl step st) = counter st + (l.flatMap b).length ∧
      ∀ u, table (l.foldl step st) u = if u ∈ l then write u (counter st + start b l u) else table st u := by
  induction l generalizing st with
  | nil => exact ⟨rfl, fun u => rfl⟩
  | cons x l ih =>
    rw [nodup_cons] at nodup
    obtain ⟨next, entry, advance⟩ := body st x l initial
    obtain ⟨total, entries⟩ := ih nodup.2 (step st x) next
    rw [foldl_cons]
    refine ⟨?_, fun u => ?_⟩
    · rw [flatMap_cons, length_append]
      omega
    · rw [entries u, entry, advance]
      by_cases here : x = u
      · subst here
        rw [if_neg nodup.1, if_pos mem_cons_self, start_head, update_self]
        rfl
      · have cons : u ∈ x :: l ↔ u ∈ l := by simp [Ne.symm here]
        simp only [cons, start_tail here, update_of_ne (Ne.symm here), Nat.add_assoc]

omit [DecidableEq ι] in
/-- A loop that writes each block behind what is there. -/
theorem fold_stored (content : σ → ℕ → α) (st : σ) (advance : ∀ t, ∀ x ∈ l, counter (step t x) = counter t + (b x).length)
    (behind : ∀ t, ∀ x ∈ l, Stored (content (step t x)) (counter t) (b x))
    (kept : ∀ t, ∀ x ∈ l, ∀ j < counter t, content (step t x) j = content t j) :
    Stored (content (l.foldl step st)) (counter st) (l.flatMap b) ∧
      ∀ j < counter st, content (l.foldl step st) j = content st j := by
  induction l generalizing st with
  | nil => exact ⟨trivial, fun j _ => rfl⟩
  | cons x l ih =>
    have here := advance st x mem_cons_self
    obtain ⟨stored, before⟩ := ih (step st x) (fun t y hy => advance t y (mem_cons_of_mem _ hy))
      (fun t y hy => behind t y (mem_cons_of_mem _ hy)) (fun t y hy => kept t y (mem_cons_of_mem _ hy))
    rw [here] at stored before
    rw [foldl_cons, flatMap_cons, stored_append]
    refine ⟨⟨?_, stored⟩, fun j hj => ?_⟩
    · exact (behind st x mem_cons_self).congr fun j _ high => before j high
    · exact (before j (by omega)).trans (kept st x mem_cons_self j hj)

end Loop

end Osrm.Lib.Blocks
