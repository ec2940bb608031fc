import Mathlib.Data.Nat.Bitwise
import Mathlib.Data.Nat.Digits.Defs

/-!
# Sums within a word

A word is read as lanes of equal width, the lowest first. Shifting it by one lane, masking every
second lane of both and adding gives a word of lanes of twice the width, each the sum of two
neighbours. Done again and again, this leaves the sum of all lanes.
-/

namespace Osrm.Lib.Swar

def ofLanes (w : ℕ) (lanes : List ℕ) : ℕ := Nat.ofDigits (2 ^ w) lanes

/-- The mask of every second lane of `w` bits. -/
def evenMask (w n : ℕ) : ℕ := ofLanes (2 * w) (List.replicate n (2 ^ w - 1))

/-- One round: every second lane is added to its neighbour. -/
def round (w mask word : ℕ) : ℕ := ((word >>> w) &&& mask) + (word &&& mask)

def pairSums : List ℕ → List ℕ
  | a :: b :: rest => (a + b) :: pairSums rest
  | rest => rest

theorem ofLanes_cons (w lane : ℕ) (lanes : List ℕ) : ofLanes w (lane :: lanes) = lane + 2 ^ w * ofLanes w lanes :=
  Nat.ofDigits_cons

theorem low_lane {w lane : ℕ} (below : lane < 2 ^ w) (word : ℕ) : (lane + 2 ^ w * word) % 2 ^ w = lane := by
  rw [Nat.add_mul_mod_self_left, Nat.mod_eq_of_lt below]

theorem drop_lane {w lane : ℕ} (below : lane < 2 ^ w) (word : ℕ) : (lane + 2 ^ w * word) / 2 ^ w = word := by
  rw [Nat.add_mul_div_left _ _ (Nat.two_pow_pos w), Nat.div_eq_of_lt below, Nat.zero_add]

theorem sum_pairSums : ∀ lanes : List ℕ, (pairSums lanes).sum = lanes.sum
  | [] => rfl
  | [_] => rfl
  | a :: b :: rest => by
    rw [pairSums, List.sum_cons, List.sum_cons, List.sum_cons, sum_pairSums rest, Nat.add_assoc]

theorem length_pairSums : ∀ (n : ℕ) {lanes : List ℕ}, lanes.length = 2 * n → (pairSums lanes).length = n
  | 0, [], _ => rfl
  | n + 1, a :: b :: rest, twice => by
    rw [pairSums, List.length_cons, length_pairSums n (by simpa [Nat.mul_succ] using twice)]

theorem lt_pairSums {w : ℕ} (positive : 0 < w) :
    ∀ {lanes : List ℕ}, (∀ lane ∈ lanes, lane < 2 ^ w) → ∀ lane ∈ pairSums lanes, lane < 2 ^ (2 * w)
  | [], _, lane, mem => absurd mem List.not_mem_nil
  | [a], below, lane, mem => by
    rw [pairSums] at mem
    · exact Nat.lt_of_lt_of_le (below lane mem) (Nat.pow_le_pow_right Nat.two_pos (by omega))
    · simp
  | a :: b :: rest, below, lane, mem => by
    rw [pairSums, List.mem_cons] at mem
    rcases mem with rfl | later
    · have first := below a (by simp)
      have second := below b (by simp)
      have two : 2 ≤ 2 ^ w := Nat.le_self_pow positive.ne' 2
      have square : 2 ^ (2 * w) = 2 ^ w * 2 ^ w := by rw [Nat.two_mul, Nat.pow_add]
      have twice : 2 * 2 ^ w ≤ 2 ^ w * 2 ^ w := Nat.mul_le_mul_right _ two
      omega
    · exact lt_pairSums positive (fun lane mem => below lane (by simp [mem])) lane later

/-- Masking the even lanes of a word, lane by lane. -/
theorem and_evenMask_succ (w n word : ℕ) :
    word &&& evenMask w (n + 1) = word % 2 ^ w + 2 ^ (2 * w) * (word / 2 ^ (2 * w) &&& evenMask w n) := by
  have grows : 2 ^ w ≤ 2 ^ (2 * w) := Nat.pow_le_pow_right Nat.two_pos (by omega)
  have positive := Nat.two_pow_pos w
  have mask : evenMask w (n + 1) = 2 ^ w - 1 + 2 ^ (2 * w) * evenMask w n := by
    rw [evenMask, List.replicate_succ, ofLanes_cons, evenMask]
  have low : evenMask w (n + 1) % 2 ^ (2 * w) = 2 ^ w - 1 := by rw [mask, low_lane (by omega)]
  have high : evenMask w (n + 1) / 2 ^ (2 * w) = evenMask w n := by rw [mask, drop_lane (by omega)]
  have divides : 2 ^ w ∣ 2 ^ (2 * w) := pow_dvd_pow 2 (by omega)
  calc word &&& evenMask w (n + 1)
      = (word &&& evenMask w (n + 1)) % 2 ^ (2 * w) + 2 ^ (2 * w) * ((word &&& evenMask w (n + 1)) / 2 ^ (2 * w)) :=
        (Nat.mod_add_div _ _).symm
    _ = word % 2 ^ w + 2 ^ (2 * w) * (word / 2 ^ (2 * w) &&& evenMask w n) := by
        rw [Nat.and_mod_two_pow, Nat.and_div_two_pow, low, high, Nat.and_two_pow_sub_one_eq_mod, Nat.mod_mod_of_dvd _ divides]

/-- **One round adds the neighbours.** -/
theorem round_ofLanes (w : ℕ) : ∀ (n : ℕ) {lanes : List ℕ}, lanes.length = 2 * n → (∀ lane ∈ lanes, lane < 2 ^ w) →
    round w (evenMask w n) (ofLanes w lanes) = ofLanes (2 * w) (pairSums lanes)
  | 0, [], _, _ => by simp [round, ofLanes, pairSums]
  | n + 1, a :: b :: rest, twice, below => by
    have first := below a (by simp)
    have second := below b (by simp)
    have rounded := @round_ofLanes w n rest (by simpa [Nat.mul_succ] using twice)
      fun lane mem => below lane (by simp [mem])
    have square : 2 ^ (2 * w) = 2 ^ w * 2 ^ w := by rw [Nat.two_mul, Nat.pow_add]
    have word : ofLanes w (a :: b :: rest) = a + 2 ^ w * (b + 2 ^ w * ofLanes w rest) := by rw [ofLanes_cons, ofLanes_cons]
    have dropped : ofLanes w (a :: b :: rest) / 2 ^ (2 * w) = ofLanes w rest := by
      rw [word, square, ← Nat.div_div_eq_div_mul, drop_lane first, drop_lane second]
    have next : (b + 2 ^ w * ofLanes w rest) / 2 ^ (2 * w) = ofLanes w rest >>> w := by
      rw [square, ← Nat.div_div_eq_div_mul, drop_lane second, Nat.shiftRight_eq_div_pow]
    have odd : ofLanes w (a :: b :: rest) >>> w &&& evenMask w (n + 1) =
        b + 2 ^ (2 * w) * (ofLanes w rest >>> w &&& evenMask w n) := by
      rw [word, Nat.shiftRight_eq_div_pow, drop_lane first, and_evenMask_succ, low_lane second, next]
    have even : ofLanes w (a :: b :: rest) &&& evenMask w (n + 1) =
        a + 2 ^ (2 * w) * (ofLanes w rest &&& evenMask w n) := by
      rw [and_evenMask_succ, dropped, word, low_lane first]
    rw [round, odd, even, pairSums, ofLanes_cons, ← rounded, round]
    ring

/-- A word of `n` lanes of `w` bits that sum up to `total`. -/
def Sums (w n word total : ℕ) : Prop :=
  ∃ lanes : List ℕ, lanes.length = n ∧ (∀ lane ∈ lanes, lane < 2 ^ w) ∧ word = ofLanes w lanes ∧ lanes.sum = total

/-- A round keeps the sum and halves the number of lanes. -/
theorem Sums.round {w n word total : ℕ} (positive : 0 < w) (sums : Sums w (2 * n) word total) :
    Sums (2 * w) n (round w (evenMask w n) word) total := by
  obtain ⟨lanes, length, below, rfl, sum⟩ := sums
  exact ⟨pairSums lanes, length_pairSums n length, lt_pairSums positive below, round_ofLanes w n length below,
    (sum_pairSums lanes).trans sum⟩

theorem Sums.eq {w word total : ℕ} (sums : Sums w 1 word total) : word = total := by
  obtain ⟨lanes, length, -, rfl, rfl⟩ := sums
  obtain ⟨lane, rfl⟩ := List.length_eq_one_iff.1 length
  rw [ofLanes_cons, ofLanes, Nat.ofDigits_nil, Nat.mul_zero, List.sum_singleton, Nat.add_zero]

/-- Missing lanes are zero. -/
theorem Sums.of_le {w n : ℕ} {lanes : List ℕ} (short : lanes.length ≤ n) (below : ∀ lane ∈ lanes, lane < 2 ^ w) :
    Sums w n (ofLanes w lanes) lanes.sum := by
  refine ⟨lanes ++ List.replicate (n - lanes.length) 0, ?_, fun lane mem => ?_, ?_, ?_⟩
  · rw [List.length_append, List.length_replicate]
    omega
  · rcases List.mem_append.1 mem with mem | mem
    · exact below lane mem
    · rw [List.eq_of_mem_replicate mem]
      exact Nat.two_pow_pos w
  · exact (Nat.ofDigits_append_replicate_zero lanes).symm
  · simp

end Osrm.Lib.Swar
