import RhythmChart.Number.Binary64
import RhythmChart.Number.Integer
import RhythmChart.Text.Cut

/-! # Reading decimal numbers

A decimal number is an optional sign followed by digits with an optional point and an optional
exponent, or by the words `inf`, `infinity` or `nan` in any case.  At least one digit stands
before or after the point.

* `Numeral` is a mantissa times a power of ten, `numeral?` its grammar;
* `Numeral.value` rounds it to the nearest binary64, ties to even;
* `float?` reads a whole text. -/

namespace RhythmChart.Number

/-- The number `mantissa * 10 ^ exponent`. -/
structure Numeral where
  mantissa : Nat
  exponent : Int
  deriving DecidableEq, Repr

/-- An exponent: nothing, or `e` and an integer. -/
def exponentPart? : List Char → Option Int
  | [] => some 0
  | c :: rest =>
    if c = 'e' ∨ c = 'E' then
      match rest with
      | '-' :: digits => (natural? digits).map fun n => -(n : Int)
      | '+' :: digits => (natural? digits).map fun n => (n : Int)
      | digits => (natural? digits).map fun n => (n : Int)
    else none

/-- Digits, an optional point and digits, and an optional exponent. -/
def numeral? (s : List Char) : Option Numeral :=
  let whole := s.takeWhile Char.isDigit
  let afterWhole := s.dropWhile Char.isDigit
  let (fraction, rest) := match afterWhole with
    | '.' :: tail => (tail.takeWhile Char.isDigit, tail.dropWhile Char.isDigit)
    | _ => ([], afterWhole)
  match natural? (whole ++ fraction), exponentPart? rest with
  | some m, some e => some ⟨m, e - fraction.length⟩
  | _, _ => none

/-- The nearest binary64 value.  A number of at least `10 ^ 310` is infinite and one below
`10 ^ (-330)` is zero, so that the exact rounding only sees moderate exponents. -/
def Numeral.value (n : Numeral) : Float :=
  let magnitude := ((naturalText n.mantissa).length : Int) + n.exponent
  if n.mantissa = 0 then 0.0
  else if magnitude > 310 then infinity
  else if magnitude < -330 then 0.0
  else if n.exponent < 0 then Float.ofScientific n.mantissa true n.exponent.natAbs
  else Float.ofScientific n.mantissa false n.exponent.natAbs

/-- A number without sign. -/
def magnitude? (s : List Char) : Option Float :=
  if Text.sameLetters s "inf".toList || Text.sameLetters s "infinity".toList then some infinity
  else if Text.sameLetters s "nan".toList then some notANumber
  else (numeral? s).map Numeral.value

/-- A decimal number with an optional sign. -/
def float? : List Char → Option Float
  | '-' :: rest => (magnitude? rest).map fun x => -x
  | '+' :: rest => magnitude? rest
  | s => magnitude? s

end RhythmChart.Number
