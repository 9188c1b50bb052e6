import RhythmChart.Number.Decimal

/-! # Shortest decimal texts

The fewest digits that read back as a given binary64 value, and their text without exponent.

* A finite positive value `m * 2 ^ q` is the nearest one to every real of an interval, whose ends
  belong to it when `m` is even.  `Interval` holds that interval in units of `2 ^ (q - 2)`;
* `shortest` looks for the largest power of ten with a multiple in the interval.  If any multiple
  lies in it, one of the two neighbours of the value does; of two the nearer is taken, and the
  upper one when they are equally near;
* `positional` writes a value with a point where needed and never an exponent. -/

namespace RhythmChart.Number

/-- The reals that round to `value * 2 ^ unit`: from `low` to `high` in units of `2 ^ unit`. -/
structure Interval where
  value : Nat
  low : Nat
  high : Nat
  unit : Int
  closed : Bool

/-- The weight of the leading bit of a mantissa, which the bits of a value leave out. -/
def leadingBit : Nat := 0x10000000000000

/-- The rounding interval of the positive finite value with the given bits.  It is narrower below
a power of two. -/
def Interval.ofBits (bits : Nat) : Interval :=
  let fraction := bits % leadingBit
  let biased : Nat := bits / leadingBit
  let mantissa := if biased = 0 then fraction else fraction + leadingBit
  let exponent : Int := if biased = 0 then -1074 else (biased : Int) - 1075
  let gap := if fraction = 0 ∧ 1 < biased then 1 else 2
  { value := 4 * mantissa, low := 4 * mantissa - gap, high := 4 * mantissa + 2,
    unit := exponent - 2, closed := mantissa % 2 = 0 }

/-- The multiple of `10 ^ k` in the interval that is nearest to the value, as a factor of
`10 ^ k`. -/
def Interval.multiple? (r : Interval) (k : Int) : Option Nat :=
  let scale := Nat.pow 2 r.unit.toNat * Nat.pow 10 (-k).toNat
  let step := Nat.pow 10 k.toNat * Nat.pow 2 (-r.unit).toNat
  let inside (d : Nat) : Bool :=
    if r.closed then decide (r.low * scale ≤ d * step ∧ d * step ≤ r.high * scale)
    else decide (r.low * scale < d * step ∧ d * step < r.high * scale)
  let below := r.value * scale / step
  let above := below + 1
  let nearer := if 2 * (r.value * scale % step) < step then below else above
  let farther := if nearer = below then above else below
  if nearer ≠ 0 ∧ inside nearer then some nearer
  else if farther ≠ 0 ∧ inside farther then some farther
  else none

/-- The first hit of `multiple?` when the power of ten falls. -/
def Interval.search (r : Interval) : Nat → Int → Numeral
  | 0, k => ⟨(r.multiple? k).getD 0, k⟩
  | steps + 1, k =>
    match r.multiple? k with
    | some d => ⟨d, k⟩
    | none => r.search steps (k - 1)

/-- The shortest numeral of the positive finite value with the given bits.  The search starts at
a power of ten above the value and needs at most eighteen places. -/
def shortest (bits : Nat) : Numeral :=
  let r := Interval.ofBits bits
  let top := ((r.value.log2 : Int) + 1 + r.unit) * 30103 / 100000 + 1
  r.search 24 top

/-- Digits and an exponent written with a point where needed, without exponent. -/
def Numeral.plainText (n : Numeral) : List Char :=
  let digits := naturalText n.mantissa
  if 0 ≤ n.exponent then digits ++ List.replicate n.exponent.toNat '0'
  else
    let places := n.exponent.natAbs
    if places < digits.length then
      digits.take (digits.length - places) ++ '.' :: digits.drop (digits.length - places)
    else
      '0' :: '.' :: (List.replicate (places - digits.length) '0' ++ digits)

/-- A text after a minus sign if the value is negative. -/
def signed (x : Float) (body : List Char) : List Char :=
  if isNegative x then '-' :: body else body

/-- A value with the fewest digits that read back, never with an exponent. -/
def positional (x : Float) : List Char :=
  if x.isNaN then "NaN".toList
  else if x.isInf then signed x "inf".toList
  else if magnitudeBits x = 0 then signed x ['0']
  else signed x (shortest (magnitudeBits x)).plainText

end RhythmChart.Number
