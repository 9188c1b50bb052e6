import RhythmChart.Number.Shortest

/-! # Documents

Structured output: values, lists and records, written as JSON with an indent of two blanks per level.

* a number is written with the fewest digits that read back, always with a point or an exponent;
* a number that is not finite is written as `null`. -/

namespace RhythmChart

/-- A value of the output. -/
inductive Document where
  | null
  | flag (value : Bool)
  | integer (value : Int)
  | number (value : Float)
  | text (value : String)
  | list (items : List Document)
  | record (fields : List (String × Document))

namespace Document

/-- A value that may be missing. -/
def ofOption (d? : Option Document) : Document := d?.getD null

/-- A count. -/
def count (n : Nat) : Document := integer n

/-! ### Numbers -/

/-- Digits with an exponent: one digit, a point and the others if there are any. -/
def scientific (digits : List Char) (exponent : Int) : List Char :=
  let tail := 'e' :: Number.integerText exponent
  match digits with
  | [] => tail
  | [d] => d :: tail
  | d :: rest => d :: '.' :: rest ++ tail

/-- A positive numeral.  It is written with a point when its first digit stands between the fifth
place after the point and the sixteenth place before it, else with an exponent. -/
def numeralText (n : Number.Numeral) : List Char :=
  let digits := Number.naturalText n.mantissa
  let point := (digits.length : Int) + n.exponent
  if 0 ≤ n.exponent ∧ point ≤ 16 then n.plainText ++ ['.', '0']
  else if -5 < point ∧ point ≤ 16 then n.plainText
  else scientific digits (point - 1)

/-- A number. -/
def numberText (x : Float) : List Char :=
  if x.isFinite then
    let magnitude := Number.magnitudeBits x
    Number.signed x <|
      if magnitude = 0 then "0.0".toList else numeralText (Number.shortest magnitude)
  else "null".toList

/-! ### Texts -/

/-- A digit of base sixteen. -/
def hexDigit (n : Nat) : Char := Nat.digitChar n

/-- A character inside quotes. -/
def escaped (c : Char) : List Char :=
  match c with
  | '"' => ['\\', '"']
  | '\\' => ['\\', '\\']
  | '\n' => ['\\', 'n']
  | '\r' => ['\\', 'r']
  | '\t' => ['\\', 't']
  | '\x08' => ['\\', 'b']
  | '\x0c' => ['\\', 'f']
  | c =>
    if c.toNat < 0x20 then ['\\', 'u', '0', '0', hexDigit (c.toNat / 16), hexDigit (c.toNat % 16)]
    else [c]

/-- A text in quotes. -/
def quoted (s : String) : List Char := '"' :: s.toList.flatMap escaped ++ ['"']

/-! ### Layout -/

/-- A line end and the indent of the next line. -/
def newline (level : Nat) : List Char := '\n' :: List.replicate (2 * level) ' '

mutual

/-- The text of a document that starts on a line of the given level. -/
def write (level : Nat) : Document → List Char
  | null => "null".toList
  | flag value => if value then "true".toList else "false".toList
  | integer value => Number.integerText value
  | number value => numberText value
  | text value => quoted value
  | list [] => "[]".toList
  | list (item :: items) =>
    '[' :: newline (level + 1) ++ write (level + 1) item ++ writeItems (level + 1) items ++
      newline level ++ [']']
  | record [] => "\x7b\x7d".toList
  | record ((key, value) :: fields) =>
    '\x7b' :: newline (level + 1) ++ quoted key ++ [':', ' '] ++ write (level + 1) value ++
      writeFields (level + 1) fields ++ newline level ++ ['\x7d']

/-- The items of a list after the first. -/
def writeItems (level : Nat) : List Document → List Char
  | [] => []
  | item :: items => ',' :: newline level ++ write level item ++ writeItems level items

/-- The fields of a record after the first. -/
def writeFields (level : Nat) : List (String × Document) → List Char
  | [] => []
  | (key, value) :: fields =>
    ',' :: newline level ++ quoted key ++ [':', ' '] ++ write level value ++
      writeFields level fields

end

/-- The text of a document. -/
def render (d : Document) : String := String.ofList (d.write 0)

end Document

end RhythmChart
