/-! # Binary64 order

What the arithmetic order of binary64 leaves open: a total order on all values, and a lower bound
that values which are not numbers cannot break.

* `orderKey` sends a value to an integer so that the order of the keys is the total order: negative
  values by falling magnitude, `-0` before `0`, values that are not numbers last;
* `raise` lifts a value to a floor. -/

namespace RhythmChart.Number

/-- The bit that holds the sign. -/
def signBit : Nat := 0x8000000000000000

/-- The bits of a value without its sign. -/
def magnitudeBits (x : Float) : Nat := x.toBits.toNat % signBit

/-- Whether the sign bit of a value is set. -/
def isNegative (x : Float) : Bool := decide (signBit ≤ x.toBits.toNat)

/-- The position of a value in the total order of binary64. -/
def orderKey (x : Float) : Int :=
  if isNegative x then -(magnitudeBits x : Int) - 1 else magnitudeBits x

/-- The total order of binary64, in which `-0` comes before `0`. -/
def totalLe (x y : Float) : Bool := decide (orderKey x ≤ orderKey y)

/-- The larger of `x` and `floor`; the floor unless `x` is a number above it. -/
def raise (floor x : Float) : Float := if floor < x then x else floor

/-- Positive infinity. -/
def infinity : Float := Float.ofBits 0x7FF0000000000000

/-- The value that is not a number. -/
def notANumber : Float := Float.ofBits 0x7FF8000000000000

theorem totalLe_trans (x y z : Float) (hxy : totalLe x y = true) (hyz : totalLe y z = true) :
    totalLe x z = true := by
  simp only [totalLe, decide_eq_true_eq] at *
  omega

theorem totalLe_total (x y : Float) : (totalLe x y || totalLe y x) = true := by
  simp only [totalLe, Bool.or_eq_true, decide_eq_true_eq]
  omega

end RhythmChart.Number
