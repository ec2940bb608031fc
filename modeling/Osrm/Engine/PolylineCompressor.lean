import Osrm.Lib.ChunkCode
import Osrm.Util.Coordinate
import Mathlib.Data.Nat.Bitwise

/-!
# Polylines

A polyline is a text that holds a list of coordinates: each number is the offset from the
coordinate before, with its sign in the lowest bit, in chunks of five bits. The encoder rounds
the coordinates to the precision of the polyline first.

`offsets` is what a text says. `decodePolyline` adds up the offsets in 32-bit integers and scales
the sums (`decodePolyline_eq`): it fails exactly where one of these numbers does not fit.
-/

namespace Osrm.Polyline

open List

open Lib

/-- What the decoder must not do. `unfinished` says that the loop has used up its fuel. -/
inductive Fault
  | pastEnd
  | overflow
  | unfinished
  deriving DecidableEq, Repr

/-! ### Encoding -/

def encode (number : ℤ) : List Char :=
  if 0x20 ≤ number then Char.ofNat ((0x20 ||| (number.toNat &&& 0x1f)) + 63) :: encode (number >>> (5 : ℕ))
  else [Char.ofNat (number + 63).toNat]
termination_by number.toNat
decreasing_by
  rw [Int.shiftRight_eq_div_pow]
  omega

/-- The sign of a number in its lowest bit, as `encode(std::vector<int> &)` computes it. -/
def foldSign (number : ℤ) : ℤ :=
  if number < 0 then
    let binary := BitVec.ofInt 32 |number|
    let twos := ~~~binary + 1#32
    let shl := twos <<< 1
    (~~~shl).toInt
  else (BitVec.ofInt 32 number <<< 1).toInt

def encodeNumbers (numbers : List ℤ) : List Char := (numbers.map foldSign).flatMap encode

/-- The offsets of the rounded coordinates. -/
def deltaNumbers (coordinateToPolyline : ℚ) : ℤ → ℤ → List Coordinate → List ℤ
  | _, _, [] => []
  | currentLat, currentLon, loc :: rest =>
    let latDiff := stdRound (loc.lat * coordinateToPolyline) - currentLat
    let lonDiff := stdRound (loc.lon * coordinateToPolyline) - currentLon
    latDiff :: lonDiff :: deltaNumbers coordinateToPolyline (currentLat + latDiff) (currentLon + lonDiff) rest

def encodePolyline (precision : ℕ) (coordinates : List Coordinate) : List Char :=
  encodeNumbers (deltaNumbers (precision / coordinatePrecision) 0 0 coordinates)

/-! ### Decoding -/

/-- The loop of `decode_polyline_integer`; `first` is a position in the text. -/
def decodeChunks (polyline : List Char) (value : BitVec 32) (shift : ℕ) (result : BitVec 32) (first : ℕ) :
    Except Fault (BitVec 32 × ℕ) :=
  if value &&& 32#32 ≠ 0#32 ∧ shift < 31 ∧ first ≠ polyline.length then
    match polyline[first]? with
    | none => .error .pastEnd
    | some c =>
      let value := BitVec.ofNat 32 c.toNat - 63#32
      decodeChunks polyline value (shift + 5) (result ||| ((value &&& 31#32) <<< shift)) (first + 1)
  else .ok (result, first)
termination_by 31 - shift

/-- From the sign in the lowest bit to two's complement. -/
def unfoldSign (result : BitVec 32) : ℤ :=
  (if result &&& 1#32 = 1#32 then ~~~(result >>> 1) else result >>> 1).toInt

/-- `decode_polyline_integer`: the number and the position after it. -/
def decodePolylineInteger (polyline : List Char) (first : ℕ) : Except Fault (ℤ × ℕ) :=
  (decodeChunks polyline 32#32 0 0#32 first).map fun out => (unfoldSign out.1, out.2)

/-- The value as a signed 32-bit integer. -/
def int32 (x : ℤ) : Except Fault ℤ := if -2147483648 ≤ x ∧ x ≤ 2147483647 then .ok x else .error .overflow

/-- One round of `decodePolyline`: the sums and the coordinate. -/
def nextCoordinate (polylineToCoordinate : ℚ) (latitude longitude dlat dlon : ℤ) : Except Fault (ℤ × ℤ × Coordinate) := do
  let latitude ← int32 (latitude + dlat)
  let longitude ← int32 (longitude + dlon)
  let lon ← int32 (truncate (longitude * polylineToCoordinate))
  let lat ← int32 (truncate (latitude * polylineToCoordinate))
  return (latitude, longitude, ⟨lon, lat⟩)

def decodeLoop (polylineToCoordinate : ℚ) (polyline : List Char) : ℕ → ℤ → ℤ → ℕ → Except Fault (List Coordinate)
  | 0, _, _, _ => .error .unfinished
  | fuel + 1, latitude, longitude, first =>
    if first = polyline.length then .ok []
    else do
      let dlat ← decodePolylineInteger polyline first
      let dlon ← decodePolylineInteger polyline dlat.2
      let next ← nextCoordinate polylineToCoordinate latitude longitude dlat.1 dlon.1
      let coordinates ← decodeLoop polylineToCoordinate polyline fuel next.1 next.2.1 dlon.2
      return next.2.2 :: coordinates

def decodePolyline (precision : ℕ) (polyline : List Char) : Except Fault (List Coordinate) :=
  decodeLoop (coordinatePrecision / precision) polyline (polyline.length + 1) 0 0 0

/-! ### What a text says -/

/-- The chunk that a character stands for. -/
def chunkOf (c : Char) : Chunk := ⟨(c.toNat + 1) % 32, (c.toNat + 1) / 32 % 2 = 1⟩

/-- The number with its sign in the lowest bit. -/
def signed (n : ℕ) : ℤ := if n % 2 = 1 then -(n / 2 : ℕ) - 1 else (n / 2 : ℕ)

/-- The first number of a text: the seventh chunk is the last one, and what exceeds 32 bits is lost. -/
def number (text : List Chunk) : ℤ × List Chunk :=
  (signed ((Chunk.read 32 7 text).1 % 2 ^ 32), (Chunk.read 32 7 text).2)

/-- The offsets of a text in latitude and longitude. -/
def offsets (text : List Chunk) : List (ℤ × ℤ) :=
  if text = [] then []
  else ((number text).1, (number (number text).2).1) :: offsets (number (number text).2).2
termination_by text.length
decreasing_by
  rename_i some
  exact (Chunk.read_suffix 7 _).length_le.trans_lt (Chunk.length_read_lt 6 some)

/-- The positions that offsets lead to. -/
def positions (latitude longitude : ℤ) : List (ℤ × ℤ) → List (ℤ × ℤ)
  | [] => []
  | d :: rest => (latitude + d.1, longitude + d.2) :: positions (latitude + d.1) (longitude + d.2) rest

def FitsInt32 (x : ℤ) : Prop := -2147483648 ≤ x ∧ x ≤ 2147483647

instance (x : ℤ) : Decidable (FitsInt32 x) := inferInstanceAs (Decidable (_ ∧ _))

/-- A position and its coordinate fit. -/
def Fits (scale : ℚ) (p : ℤ × ℤ) : Prop :=
  FitsInt32 p.1 ∧ FitsInt32 p.2 ∧ FitsInt32 (truncate (p.2 * scale)) ∧ FitsInt32 (truncate (p.1 * scale))

instance (scale : ℚ) (p : ℤ × ℤ) : Decidable (Fits scale p) := inferInstanceAs (Decidable (_ ∧ _ ∧ _ ∧ _))

def coordinateAt (scale : ℚ) (p : ℤ × ℤ) : Coordinate := ⟨truncate (p.2 * scale), truncate (p.1 * scale)⟩

/-! ### One number -/

theorem digit_chunkOf (c : Char) : (BitVec.ofNat 32 c.toNat - 63#32) &&& 31#32 = BitVec.ofNat 32 (chunkOf c).digit := by
  apply BitVec.eq_of_toNat_eq
  simp only [BitVec.toNat_and, BitVec.toNat_ofNat, BitVec.toNat_sub, chunkOf]
  rw [show 31 % 2 ^ 32 = 2 ^ 5 - 1 from rfl, Nat.and_two_pow_sub_one_eq_mod]
  omega

theorem more_chunkOf (c : Char) : (BitVec.ofNat 32 c.toNat - 63#32) &&& 32#32 = 0#32 ↔ (chunkOf c).more = false := by
  rw [← BitVec.toNat_inj]
  simp only [BitVec.toNat_and, BitVec.toNat_ofNat, chunkOf]
  rw [show 32 % 2 ^ 32 = 2 ^ 5 from rfl, Nat.and_two_pow]
  simp [Nat.testBit]
  omega

/-- Filling in the bits of a chunk above those of `r`. -/
theorem or_chunk {r shift : ℕ} (low : r < 2 ^ shift) (digit : ℕ) :
    BitVec.ofNat 32 r ||| (BitVec.ofNat 32 digit <<< shift) = BitVec.ofNat 32 (r + 2 ^ shift * digit) := by
  have shifted : BitVec.ofNat 32 digit <<< shift = BitVec.ofNat 32 (2 ^ shift * digit) := by
    apply BitVec.eq_of_toNat_eq
    rw [BitVec.toNat_shiftLeft, BitVec.toNat_ofNat, BitVec.toNat_ofNat, Nat.shiftLeft_eq, Nat.mod_mul_mod, Nat.mul_comm]
  rw [shifted, ← BitVec.ofNat_or, Nat.or_comm, ← Nat.two_pow_add_eq_or_of_lt low, Nat.add_comm]

variable {polyline : List Char} {first : ℕ} (precision : ℕ) (scale : ℚ) (x : ℤ)

/-- The part of the text from a position on. -/
def rest (polyline : List Char) (first : ℕ) : List Chunk := (polyline.drop first).map chunkOf

/-- The loop reads the rest of a number whose lower bits are `r`. -/
theorem decodeChunks_eq (limit : ℕ) (room : limit ≤ 7) {r : ℕ} (low : r < 2 ^ (5 * (7 - limit)))
    (inside : first ≤ polyline.length) {value : BitVec 32} (more : value &&& 32#32 ≠ 0#32) :
    decodeChunks polyline value (5 * (7 - limit)) (BitVec.ofNat 32 r) first =
      .ok (BitVec.ofNat 32 (r + 2 ^ (5 * (7 - limit)) * (Chunk.read 32 limit (rest polyline first)).1),
        polyline.length - (Chunk.read 32 limit (rest polyline first)).2.length) := by
  induction limit generalizing r first value with
  | zero =>
    have length : polyline.length - (rest polyline first).length = first := by
      simp [rest]
      omega
    rw [decodeChunks, if_neg (by omega), Chunk.read, Nat.mul_zero, Nat.add_zero, length]
  | succ limit ih =>
    by_cases ended : first = polyline.length
    · subst ended
      rw [decodeChunks]
      simp [rest, Chunk.read]
    · have below : first < polyline.length := by omega
      have split : rest polyline first = chunkOf polyline[first] :: rest polyline (first + 1) := by
        rw [rest, drop_eq_getElem_cons below]
        rfl
      have shift : 5 * (7 - (limit + 1)) + 5 = 5 * (7 - limit) := by omega
      have digit : (chunkOf polyline[first]).digit < 32 := Nat.mod_lt _ (by omega)
      rw [decodeChunks, if_pos ⟨more, by omega, ended⟩, getElem?_eq_getElem below, split, Chunk.read]
      show decodeChunks _ _ (5 * (7 - (limit + 1)) + 5) (_ ||| (_ &&& 31#32) <<< _) (first + 1) = _
      rw [digit_chunkOf, or_chunk low, shift]
      have low' : r + 2 ^ (5 * (7 - (limit + 1))) * (chunkOf polyline[first]).digit < 2 ^ (5 * (7 - limit)) := by
        rw [← shift, Nat.pow_add]
        have := Nat.mul_le_mul_left (2 ^ (5 * (7 - (limit + 1)))) (Nat.le_of_lt_succ digit)
        omega
      cases continues : (chunkOf polyline[first]).more with
      | true =>
        have more' : (BitVec.ofNat 32 polyline[first].toNat - 63#32) &&& 32#32 ≠ 0#32 := by
          rw [Ne, more_chunkOf, continues]
          exact Bool.noConfusion
        rw [ih (by omega) low' (by omega) more', if_pos rfl, Nat.mul_add, ← Nat.add_assoc, ← Nat.mul_assoc, ← shift, Nat.pow_add]
      | false =>
        rw [decodeChunks, if_neg fun going => going.1 ((more_chunkOf _).2 continues)]
        have length : polyline.length - (rest polyline (first + 1)).length = first + 1 := by
          simp [rest]
          omega
        rw [if_neg Bool.false_ne_true, length]

theorem rest_drop (first k : ℕ) : (rest polyline first).drop k = rest polyline (first + k) := by
  rw [rest, ← map_drop, drop_drop, rest]

@[simp] theorem length_rest (first : ℕ) : (rest polyline first).length = polyline.length - first := by
  rw [rest, length_map, length_drop]

theorem unfoldSign_ofNat (n : ℕ) : unfoldSign (BitVec.ofNat 32 n) = signed (n % 2 ^ 32) := by
  have odd : BitVec.ofNat 32 n &&& 1#32 = 1#32 ↔ n % 2 ^ 32 % 2 = 1 := by
    rw [← BitVec.toNat_inj]
    simp only [BitVec.toNat_and, BitVec.toNat_ofNat]
    rw [show 1 % 2 ^ 32 = 2 ^ 1 - 1 from rfl, Nat.and_two_pow_sub_one_eq_mod]
    omega
  have half : (BitVec.ofNat 32 n >>> 1).toNat = n % 2 ^ 32 / 2 := by
    rw [BitVec.toNat_ushiftRight, BitVec.toNat_ofNat, Nat.shiftRight_eq_div_pow]
  unfold unfoldSign signed
  simp only [odd]
  split
  · rw [BitVec.toInt_eq_toNat_cond, BitVec.toNat_not]
    split <;> omega
  · rw [BitVec.toInt_eq_toNat_cond]
    split <;> omega

/-- **One number**: the decoder reads what the text says, and goes on behind it. -/
theorem decodePolylineInteger_eq (inside : first ≤ polyline.length) :
    ∃ next ≤ polyline.length, (number (rest polyline first)).2 = rest polyline next ∧
      decodePolylineInteger polyline first = .ok ((number (rest polyline first)).1, next) := by
  obtain ⟨k, cut⟩ : ∃ k, (number (rest polyline first)).2 = (rest polyline first).drop k :=
    ⟨_, suffix_iff_eq_drop.1 (Chunk.read_suffix 7 _)⟩
  have begins : 32#32 &&& 32#32 ≠ 0#32 := by decide
  have chunks := decodeChunks_eq 7 le_rfl (Nat.two_pow_pos 0) inside begins
  have behind : (number (rest polyline first)).2.length = polyline.length - (first + k) := by
    rw [cut, rest_drop, length_rest]
  refine ⟨polyline.length - (number (rest polyline first)).2.length, Nat.sub_le _ _, ?_, ?_⟩
  · rw [behind, cut, rest_drop]
    by_cases ended : first + k ≤ polyline.length
    · rw [Nat.sub_sub_self ended]
    · have none : polyline.length ≤ first + k := by omega
      rw [Nat.sub_eq_zero_of_le none, rest, rest, drop_eq_nil_of_le none, Nat.sub_zero, drop_length]
  · rw [decodePolylineInteger]
    simp only [Nat.sub_self, Nat.mul_zero, Nat.pow_zero, Nat.one_mul, Nat.zero_add] at chunks
    rw [chunks]
    show Except.ok (unfoldSign _, _) = _
    rw [unfoldSign_ofNat]
    rfl

/-! ### The whole text -/

theorem int32_bind {β : Type} (next : ℤ → Except Fault β) :
    (int32 x >>= next) = if FitsInt32 x then next x else .error .overflow :=
  apply_ite (· >>= next) (FitsInt32 x) (.ok x) (.error .overflow)

theorem nextCoordinate_eq (latitude longitude dlat dlon : ℤ) :
    nextCoordinate scale latitude longitude dlat dlon =
      if Fits scale (latitude + dlat, longitude + dlon) then
        .ok (latitude + dlat, longitude + dlon, coordinateAt scale (latitude + dlat, longitude + dlon))
      else .error .overflow := by
  simp only [nextCoordinate, int32_bind, ← ite_and]
  rfl

/-- The loop from a position of the text on. -/
theorem decodeLoop_eq (fuel : ℕ) (latitude longitude : ℤ) (first : ℕ) (inside : first ≤ polyline.length)
    (enough : polyline.length - first < fuel) :
    decodeLoop scale polyline fuel latitude longitude first =
      if ∀ p ∈ positions latitude longitude (offsets (rest polyline first)), Fits scale p then
        .ok ((positions latitude longitude (offsets (rest polyline first))).map (coordinateAt scale))
      else .error .overflow := by
  induction fuel generalizing latitude longitude first with
  | zero => omega
  | succ fuel ih =>
    rw [decodeLoop, offsets]
    by_cases ended : first = polyline.length
    · have none : rest polyline first = [] := by
        rw [rest, ended, drop_length]
        rfl
      rw [if_pos ended, if_pos none]
      simp [positions]
    · have some : rest polyline first ≠ [] := by
        apply ne_nil_of_length_pos
        rw [length_rest]
        omega
      obtain ⟨next, inside₁, rest₁, read₁⟩ := decodePolylineInteger_eq inside
      obtain ⟨next', inside₂, rest₂, read₂⟩ := decodePolylineInteger_eq inside₁
      have shorter : (number (rest polyline first)).2.length < _ := Chunk.length_read_lt 6 some
      have notLonger : (number (number (rest polyline first)).2).2.length ≤ _ := (Chunk.read_suffix 7 _).length_le
      rw [rest₁, length_rest, length_rest] at shorter
      rw [rest₁, rest₂, length_rest, length_rest] at notLonger
      rw [if_neg ended, if_neg some, read₁, rest₁, rest₂]
      show Except.bind (decodePolylineInteger polyline next) _ = _
      rw [read₂]
      show Except.bind (nextCoordinate scale latitude longitude _ _) _ = _
      rw [nextCoordinate_eq, positions]
      by_cases fits : Fits scale (latitude + (number (rest polyline first)).1, longitude + (number (rest polyline next)).1)
      · rw [if_pos fits]
        show Except.bind (decodeLoop scale polyline fuel _ _ next') _ = _
        rw [ih _ _ next' inside₂ (by omega)]
        by_cases all : ∀ p ∈ positions (latitude + (number (rest polyline first)).1)
            (longitude + (number (rest polyline next)).1) (offsets (rest polyline next')), Fits scale p
        · rw [if_pos all, if_pos (forall_mem_cons.2 ⟨fits, all⟩)]
          rfl
        · rw [if_neg all, if_neg fun both => all (forall_mem_cons.1 both).2]
          rfl
      · rw [if_neg fits, if_neg fun both => fits (forall_mem_cons.1 both).1]
        rfl

/-- **Decoding** adds up the offsets that the text says, and fails exactly where a sum or a coordinate does not fit. -/
theorem decodePolyline_eq (polyline : List Char) :
    decodePolyline precision polyline =
      if ∀ p ∈ positions 0 0 (offsets (polyline.map chunkOf)), Fits (coordinatePrecision / precision) p then
        .ok ((positions 0 0 (offsets (polyline.map chunkOf))).map (coordinateAt (coordinatePrecision / precision)))
      else .error .overflow := by
  have loop := decodeLoop_eq (coordinatePrecision / precision) (polyline.length + 1) 0 0 0 (Nat.zero_le polyline.length) (by omega)
  exact loop

/-! ### Round trips -/

theorem chunkOf_ofNat {n : ℕ} (ascii : n < 128) : chunkOf (Char.ofNat n) = ⟨(n + 1) % 32, (n + 1) / 32 % 2 = 1⟩ := by
  have valid : n.isValidChar := Or.inl (by omega)
  rw [Char.ofNat, dif_pos valid]
  rfl

/-- The characters of a number spell it. -/
theorem map_chunkOf_encode (n : ℕ) : (encode n).map chunkOf = Chunk.spell 32 n := by
  induction n using Nat.strongRecOn with
  | ind n ih =>
    rw [encode, Chunk.spell]
    by_cases large : 32 ≤ n
    · have shifted : (n : ℤ) >>> (5 : ℕ) = (n / 32 : ℕ) := by
        rw [Int.shiftRight_eq_div_pow]
        omega
      have chunk : (0x20 ||| ((n : ℤ).toNat &&& 0x1f)) = n % 32 + 32 := by
        have joined := Nat.two_pow_add_eq_or_of_lt (Nat.mod_lt n (Nat.two_pow_pos 5)) 1
        rw [show 0x1f = 2 ^ 5 - 1 from rfl, Nat.and_two_pow_sub_one_eq_mod]
        exact joined.symm.trans (by omega)
      rw [if_pos (by omega), if_pos ⟨by omega, large⟩, map_cons, shifted, ih (n / 32) (by omega),
        chunkOf_ofNat (by omega)]
      congr 2
      · omega
      · exact decide_eq_true (by omega)
    · rw [if_neg (by omega), if_neg (by omega), map_singleton, chunkOf_ofNat (by omega)]
      congr 2
      · omega
      · exact decide_eq_false (by omega)

/-- Numbers of less than 31 bits keep their value. -/
theorem foldSign_eq {d : ℤ} (low : -1073741824 < d) (high : d < 1073741824) :
    foldSign d = if d < 0 then -2 * d - 1 else 2 * d := by
  unfold foldSign
  split
  · rw [abs_of_neg (by assumption), BitVec.toInt_eq_toNat_cond]
    simp only [BitVec.toNat_not, BitVec.toNat_shiftLeft, BitVec.toNat_add, BitVec.toNat_ofInt, BitVec.toNat_ofNat]
    omega
  · rw [BitVec.toInt_eq_toNat_cond]
    simp only [BitVec.toNat_shiftLeft, BitVec.toNat_ofInt]
    omega

/-- A number of less than 30 bits is read back. -/
theorem number_encode {d : ℤ} (small : |d| < 536870912) (text : List Chunk) :
    number ((encode (foldSign d)).map chunkOf ++ text) = (d, text) := by
  obtain ⟨low, high⟩ := abs_lt.1 small
  obtain ⟨n, folded⟩ : ∃ n : ℕ, foldSign d = n := by
    rw [foldSign_eq (by omega) (by omega)]
    exact Int.eq_ofNat_of_zero_le (by split <;> omega)
  have value := foldSign_eq (d := d) (by omega) (by omega)
  have room : n < 32 ^ 7 := by
    split at value <;> omega
  rw [folded, map_chunkOf_encode, number, Chunk.read_spell 6 n room, signed]
  congr 1
  split at value <;> split <;> omega

/-- Two numbers are one offset. -/
theorem offsets_encode {a b : ℤ} (smallA : |a| < 536870912) (smallB : |b| < 536870912) (numbers : List ℤ) :
    offsets ((encodeNumbers (a :: b :: numbers)).map chunkOf) = (a, b) :: offsets ((encodeNumbers numbers).map chunkOf) := by
  have split : (encodeNumbers (a :: b :: numbers)).map chunkOf = (encode (foldSign a)).map chunkOf ++
      ((encode (foldSign b)).map chunkOf ++ (encodeNumbers numbers).map chunkOf) := by
    simp [encodeNumbers]
  have some : (encode (foldSign a)).map chunkOf ++
      ((encode (foldSign b)).map chunkOf ++ (encodeNumbers numbers).map chunkOf) ≠ [] := by
    rw [encode]
    split <;> simp
  rw [split, offsets, if_neg some, number_encode smallA, number_encode smallB]

/-- The position of a coordinate, rounded to the precision of the polyline. -/
def rounded (scale : ℚ) (c : Coordinate) : ℤ × ℤ := (stdRound (c.lat * scale), stdRound (c.lon * scale))

/-- A position on earth is a number of 29 bits. -/
def Small (p : ℤ × ℤ) : Prop := |p.1| < 268435456 ∧ |p.2| < 268435456

theorem abs_sub_lt {x y : ℤ} (hx : |x| < 268435456) (hy : |y| < 268435456) : |x - y| < 536870912 :=
  (abs_sub x y).trans_lt (by omega)

/-- **The offsets lead back** to the rounded coordinates: the error of one does not carry over to the next. -/
theorem positions_encode (coordinates : List Coordinate) (small : ∀ c ∈ coordinates, Small (rounded scale c))
    (latitude longitude : ℤ) (start : Small (latitude, longitude)) :
    positions latitude longitude (offsets ((encodeNumbers (deltaNumbers scale latitude longitude coordinates)).map chunkOf)) =
      coordinates.map (rounded scale) := by
  induction coordinates generalizing latitude longitude with
  | nil =>
    rw [offsets]
    rfl
  | cons c coordinates ih =>
    have here := small c mem_cons_self
    have later := ih (fun c' hc' => small c' (mem_cons_of_mem c hc')) _ _ here
    have smallLat : |stdRound (c.lat * scale) - latitude| < 536870912 := abs_sub_lt here.1 start.1
    have smallLon : |stdRound (c.lon * scale) - longitude| < 536870912 := abs_sub_lt here.2 start.2
    rw [deltaNumbers, offsets_encode smallLat smallLon, positions, add_sub_cancel, add_sub_cancel]
    exact congrArg (rounded scale c :: ·) later

/-- Decoding what was encoded gives the coordinates of the rounded positions. -/
theorem decodePolyline_encode (coordinates : List Coordinate)
    (small : ∀ c ∈ coordinates, Small (rounded (precision / coordinatePrecision) c))
    (fits : ∀ c ∈ coordinates, Fits (coordinatePrecision / precision) (rounded (precision / coordinatePrecision) c)) :
    decodePolyline precision (encodePolyline precision coordinates) =
      .ok (coordinates.map fun c => coordinateAt (coordinatePrecision / precision) (rounded (precision / coordinatePrecision) c)) := by
  have start : Small (0, 0) := by constructor <;> decide
  rw [decodePolyline_eq, encodePolyline, positions_encode _ coordinates small 0 0 start, if_pos, map_map]
  · rfl
  · intro p hp
    obtain ⟨c, hc, rfl⟩ := mem_map.1 hp
    exact fits c hc

def OnEarth (c : Coordinate) : Prop := |c.lat| ≤ 90000000 ∧ |c.lon| ≤ 180000000

/-- `y` is a multiple of ten, and none is nearer to `x`. -/
def NearestTen (x y : ℤ) : Prop := 10 ∣ y ∧ ∀ z, 10 ∣ z → |x - y| ≤ |x - z|

theorem nearestTen_of_abs_le {x y : ℤ} (ten : 10 ∣ y) (near : |x - y| ≤ 5) : NearestTen x y := by
  refine ⟨ten, fun z tenZ => ?_⟩
  obtain ⟨k, rfl⟩ := ten
  obtain ⟨l, rfl⟩ := tenZ
  rw [abs_le] at near
  rcases lt_trichotomy k l with less | rfl | more
  · have := neg_abs_le (x - 10 * l)
    exact (abs_le.2 near).trans (by omega)
  · exact le_rfl
  · have := le_abs_self (x - 10 * l)
    exact (abs_le.2 near).trans (by omega)

/-- A coordinate in tens of units, rounded. -/
theorem abs_sub_tenth_le : |x - stdRound (x * (1 / 10)) * 10| ≤ 5 := by
  have half := abs_sub_stdRound_le (x * (1 / 10))
  rw [abs_le] at half ⊢
  have low : (-5 : ℚ) ≤ ((x - stdRound (x * (1 / 10)) * 10 : ℤ) : ℚ) := by
    push_cast
    linarith
  have high : ((x - stdRound (x * (1 / 10)) * 10 : ℤ) : ℚ) ≤ 5 := by
    push_cast
    linarith
  exact ⟨by exact_mod_cast low, by exact_mod_cast high⟩

theorem truncate_mul_ten : truncate (x * 10) = x * 10 := by
  have cast : (x * 10 : ℚ) = ((x * 10 : ℤ) : ℚ) := by push_cast; ring
  rw [cast, truncate_intCast]

section

variable (coordinates : List Coordinate) (onEarth : ∀ c ∈ coordinates, OnEarth c)

include coordinates onEarth

/-- With six decimals nothing is rounded. -/
theorem decode_encode_six :
    decodePolyline 1000000 (encodePolyline 1000000 coordinates) = .ok coordinates := by
  have scale : ((1000000 : ℕ) / coordinatePrecision : ℚ) = 1 := by norm_num [coordinatePrecision]
  have back : (coordinatePrecision / (1000000 : ℕ) : ℚ) = 1 := by norm_num [coordinatePrecision]
  have exact_ : ∀ c, rounded 1 c = (c.lat, c.lon) := by
    intro c
    simp [rounded]
  have decoded := decodePolyline_encode 1000000 coordinates
  simp only [scale, back, exact_] at decoded
  rw [decoded]
  · simp [coordinateAt]
  · intro c hc
    obtain ⟨lat, lon⟩ := onEarth c hc
    exact ⟨lat.trans_lt (by decide), lon.trans_lt (by decide)⟩
  · intro c hc
    obtain ⟨lat, lon⟩ := onEarth c hc
    rw [abs_le] at lat lon
    simp only [Fits, FitsInt32, mul_one, truncate_intCast]
    omega

/-- With five decimals each component is rounded to a multiple of ten. -/
theorem decode_encode_five :
    decodePolyline 100000 (encodePolyline 100000 coordinates) = .ok (coordinates.map fun c =>
      ⟨stdRound (c.lon * (1 / 10)) * 10, stdRound (c.lat * (1 / 10)) * 10⟩) := by
  have scale : ((100000 : ℕ) / coordinatePrecision : ℚ) = 1 / 10 := by norm_num [coordinatePrecision]
  have back : (coordinatePrecision / (100000 : ℕ) : ℚ) = 10 := by norm_num [coordinatePrecision]
  have decoded := decodePolyline_encode 100000 coordinates
  simp only [scale, back] at decoded
  rw [decoded]
  · simp only [coordinateAt, rounded, truncate_mul_ten]
  · intro c hc
    obtain ⟨lat, lon⟩ := onEarth c hc
    have nearLat := abs_sub_tenth_le c.lat
    have nearLon := abs_sub_tenth_le c.lon
    rw [abs_le] at lat lon nearLat nearLon
    exact ⟨abs_lt.2 (by simp only [rounded]; omega), abs_lt.2 (by simp only [rounded]; omega)⟩
  · intro c hc
    obtain ⟨lat, lon⟩ := onEarth c hc
    have nearLat := abs_sub_tenth_le c.lat
    have nearLon := abs_sub_tenth_le c.lon
    rw [abs_le] at lat lon nearLat nearLon
    simp only [Fits, FitsInt32, rounded, truncate_mul_ten]
    omega

/-- **Round trip**: with six decimals decoding gives back the coordinates, with five decimals the nearest multiples of ten. -/
theorem decodePolyline_encodePolyline :
    decodePolyline 1000000 (encodePolyline 1000000 coordinates) = .ok coordinates ∧
    ∃ decoded, decodePolyline 100000 (encodePolyline 100000 coordinates) = .ok decoded ∧ decoded.length = coordinates.length ∧
      Forall₂ (fun c d => NearestTen c.lat d.lat ∧ NearestTen c.lon d.lon) coordinates decoded := by
  refine ⟨decode_encode_six coordinates onEarth, _, decode_encode_five coordinates onEarth, length_map _, ?_⟩
  rw [forall₂_map_right_iff]
  apply forall₂_same.2
  intro c _
  exact ⟨nearestTen_of_abs_le (Dvd.intro_left _ rfl) (abs_sub_tenth_le c.lat),
    nearestTen_of_abs_le (Dvd.intro_left _ rfl) (abs_sub_tenth_le c.lon)⟩

end

theorem decodePolyline_encodePolyline_poles :
    decodePolyline 1000000 (encodePolyline 1000000 [⟨-180000000, -90000000⟩, ⟨180000000, 90000000⟩]) =
      .ok [⟨-180000000, -90000000⟩, ⟨180000000, 90000000⟩] :=
  (decodePolyline_encodePolyline [⟨-180000000, -90000000⟩, ⟨180000000, 90000000⟩] (by simp [OnEarth])).1

/-! ### Texts of a client -/

def polylineChar (c : Char) : Bool := c.isAlphanum || "_.-[]\x7b\x7d@?|\\%~`^".toList.contains c

theorem fitsInt32_number (text : List Chunk) : FitsInt32 (number text).1 := by
  rw [number, signed, FitsInt32]
  split <;> omega

theorem fitsInt32_offsets (text : List Chunk) : ∀ d ∈ offsets text, FitsInt32 d.1 ∧ FitsInt32 d.2 := by
  fun_induction offsets text with
  | case1 => exact fun d hd => (not_mem_nil hd).elim
  | case2 text some ih => exact forall_mem_cons.2 ⟨⟨fitsInt32_number _, fitsInt32_number _⟩, ih⟩

theorem exists_ok_iff (polyline : List Char) :
    (∃ coordinates, decodePolyline precision polyline = .ok coordinates) ↔
      ∀ p ∈ positions 0 0 (offsets (polyline.map chunkOf)), Fits (coordinatePrecision / precision) p := by
  rw [decodePolyline_eq]
  split
  · rename_i fits
    exact ⟨fun _ => fits, fun _ => ⟨_, rfl⟩⟩
  · rename_i large
    constructor
    · intro found
      obtain ⟨_, found⟩ := found
      cases found
    · exact fun fits => (large fits).elim

/-- **Decoding any text** ends and stays inside it, and every offset is a 32-bit integer. It overflows exactly if the
offsets lead to a position that is no pair of 32-bit integers, with five decimals in units of the coordinates. -/
theorem decodePolyline_ok_iff (polyline : List Char) :
    ((∃ coordinates, decodePolyline 1000000 polyline = .ok coordinates) ↔
      ∀ p ∈ positions 0 0 (offsets (polyline.map chunkOf)), FitsInt32 p.1 ∧ FitsInt32 p.2) ∧
    ((∃ coordinates, decodePolyline 100000 polyline = .ok coordinates) ↔
      ∀ p ∈ positions 0 0 (offsets (polyline.map chunkOf)), FitsInt32 (p.1 * 10) ∧ FitsInt32 (p.2 * 10)) ∧
    (∀ d ∈ offsets (polyline.map chunkOf), FitsInt32 d.1 ∧ FitsInt32 d.2) ∧
    ∀ precision, decodePolyline precision polyline ≠ .error .pastEnd ∧ decodePolyline precision polyline ≠ .error .unfinished := by
  have six : (coordinatePrecision / (1000000 : ℕ) : ℚ) = 1 := by norm_num [coordinatePrecision]
  have five : (coordinatePrecision / (100000 : ℕ) : ℚ) = 10 := by norm_num [coordinatePrecision]
  refine ⟨?_, ?_, fitsInt32_offsets _, fun precision => ?_⟩
  · rw [exists_ok_iff, six]
    apply forall₂_congr
    intro p _
    simp only [Fits, mul_one, truncate_intCast]
    tauto
  · rw [exists_ok_iff, five]
    apply forall₂_congr
    intro p _
    simp only [Fits, truncate_mul_ten, FitsInt32]
    omega
  · rw [decodePolyline_eq]
    split
    · exact ⟨nofun, nofun⟩
    · exact ⟨nofun, nofun⟩

/-- The largest offset, once and twice. -/
theorem decodePolyline_overflow :
    ("\x7d~~~~~B?\x7d~~~~~B?".toList.all polylineChar = true ∧
      decodePolyline 1000000 "\x7d~~~~~B?\x7d~~~~~B?".toList = .error .overflow) ∧
    ("\x7d~~~~~B?".toList.all polylineChar = true ∧ decodePolyline 100000 "\x7d~~~~~B?".toList = .error .overflow) := by
  decide +kernel

end Osrm.Polyline
