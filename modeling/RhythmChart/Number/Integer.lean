/-! # Decimal integers

Reading integers: an optional sign, then ASCII digits only, then a check against the bounds of
the field that is read.

* `natural?` is the value of a non-empty digit string, its digits folded from the left;
* `unsigned?` allows a plus sign, `signed?` either sign;
* `naturalText` and `integerText` write what the readers read. -/

namespace RhythmChart.Number

/-- The largest value of a 32-bit count. -/
def maxCount : Nat := 4294967295

/-- The value of one ASCII digit. -/
def digitValue (c : Char) : Nat := c.toNat - '0'.toNat

/-- The value of a digit string, most significant digit first. -/
def digitsValue (s : List Char) : Nat := s.foldl (fun n c => 10 * n + digitValue c) 0

/-- The value of a text of one or more ASCII digits. -/
def natural? (s : List Char) : Option Nat :=
  if !s.isEmpty && s.all Char.isDigit then some (digitsValue s) else none

/-- A natural number up to `max`, with an optional plus sign. -/
def unsigned? (max : Nat) (s : List Char) : Option Nat :=
  let digits := match s with
    | '+' :: rest => rest
    | _ => s
  (natural? digits).filter (· ≤ max)

/-- An integer from `min` to `max`, with an optional sign. -/
def signed? (min max : Int) (s : List Char) : Option Int :=
  let value : Option Int := match s with
    | '-' :: rest => (natural? rest).map fun n => -(n : Int)
    | '+' :: rest => (natural? rest).map fun n => (n : Int)
    | _ => (natural? s).map fun n => (n : Int)
  value.filter fun v => decide (min ≤ v ∧ v ≤ max)

/-- A count of at most 32 bits. -/
def count? (s : List Char) : Option Nat := unsigned? maxCount s

/-- A signed integer of at most 32 bits. -/
def int32? (s : List Char) : Option Int := signed? (-2147483648) 2147483647 s

/-- A signed integer of at most 64 bits. -/
def int64? (s : List Char) : Option Int :=
  signed? (-9223372036854775808) 9223372036854775807 s

/-- The decimal digits of a number. -/
def naturalText (n : Nat) : List Char := Nat.toDigits 10 n

/-- The decimal digits of an integer, after a minus sign if it is negative. -/
def integerText (i : Int) : List Char :=
  if i < 0 then '-' :: naturalText i.natAbs else naturalText i.natAbs

/-- Adding a digit at the end multiplies the value by ten and adds the digit. -/
@[simp]
theorem digitsValue_concat (s : List Char) (c : Char) :
    digitsValue (s ++ [c]) = 10 * digitsValue s + digitValue c := by
  simp [digitsValue, List.foldl_append]

end RhythmChart.Number
