import RhythmChart.Text.Cut

/-! # Keys

A key is known by one character, the small one where case exists.

* `Key.ofName?` reads `KeyD`, `Digit4`, `Space` or a bare character;
* `Key.name` writes the long form of letters, digits and the space key. -/

namespace RhythmChart

/-- A physical key, known by its character. -/
structure Key where
  char : Char
  deriving DecidableEq, Repr

namespace Key

/-- The key that types `c`. -/
def ofChar (c : Char) : Key := ⟨c.toLower⟩

/-- The key of a name: `Space` in any case, `Key` and an ASCII letter, `Digit` and an ASCII digit,
or one character that is no blank. -/
def ofName? (text : List Char) : Option Key :=
  let name := Text.trim text
  let letter := ((Text.afterPrefix? "Key".toList name).bind Text.single?).filter Char.isAlpha
  let digit := ((Text.afterPrefix? "Digit".toList name).bind Text.single?).filter Char.isDigit
  if Text.sameLetters name "space".toList then some ⟨' '⟩
  else match letter, digit with
    | some c, _ => some (ofChar c)
    | none, some c => some ⟨c⟩
    | none, none => ((Text.single? name).filter fun c => !Text.isBlank c).map ofChar

/-- The name of a key: words for the space key, letters and digits, the character itself for all
others. -/
def name (k : Key) : List Char :=
  if k.char = ' ' then "Space".toList
  else if k.char.isAlpha then "Key".toList ++ [k.char.toUpper]
  else if k.char.isDigit then "Digit".toList ++ [k.char]
  else [k.char]

end Key

end RhythmChart
