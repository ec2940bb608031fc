import Mathlib.Data.Rat.Floor
import Osrm.Lib.BinaryRounding

/-!
# Coordinates

Coordinates are pairs of 32-bit integers in units of a millionth of a degree, here without
bounds. Floating point numbers are rationals; `toDouble` rounds a result to double precision.
-/

namespace Osrm

/-- A product or quotient in double precision. -/
def toDouble (x : ℚ) : ℚ := Lib.roundBinary 53 x

/-- `std::round`: halves are rounded away from zero. -/
def stdRound (x : ℚ) : ℤ := if 0 ≤ x then ⌊x + 1 / 2⌋ else ⌈x - 1 / 2⌉

/-- The conversion of a floating point number to an integer type: towards zero. -/
def truncate (x : ℚ) : ℤ := if 0 ≤ x then ⌊x⌋ else ⌈x⌉

/-- `util::Coordinate`, in fixed representation. -/
structure Coordinate where
  lon : ℤ
  lat : ℤ
deriving DecidableEq, Repr

/-- The `Coordinate` of a longitude and a latitude in floating representation. -/
def toFixed (longitude latitude : ℚ) : Coordinate :=
  ⟨stdRound (longitude * 1000000), stdRound (latitude * 1000000)⟩

def Coordinate.isValid (c : Coordinate) : Bool :=
  !(c.lat > 90000000 || c.lat < -90000000 || c.lon > 180000000 || c.lon < -180000000)

def coordinatePrecision : ℚ := 1000000

@[simp] theorem stdRound_intCast (n : ℤ) : stdRound n = n := by
  unfold stdRound
  split
  · norm_num
  · rw [Int.ceil_eq_iff]
    constructor <;> norm_num

@[simp] theorem truncate_intCast (n : ℤ) : truncate n = n := by
  unfold truncate
  split
  · exact Int.floor_intCast n
  · exact Int.ceil_intCast n

/-- Rounding moves by at most a half. -/
theorem abs_sub_stdRound_le (x : ℚ) : |x - stdRound x| ≤ 1 / 2 := by
  unfold stdRound
  rw [abs_le]
  split
  · have low := Int.floor_le (x + 1 / 2)
    have high := Int.lt_floor_add_one (x + 1 / 2)
    constructor <;> linarith
  · have low := Int.le_ceil (x - 1 / 2)
    have high := Int.ceil_lt_add_one (x - 1 / 2)
    constructor <;> linarith

end Osrm
