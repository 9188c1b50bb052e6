import RhythmChart.Text.Blank

/-! # Cutting texts

Where lines end, where a comment starts, and what stands before and after a separator.

* `lines` splits at line feeds and drops one carriage return before each;
* `cutAt?` splits at the first separator, `fields` at every one;
* `sameLetters` compares two texts without regard to the case of ASCII letters. -/

namespace RhythmChart.Text

/-- The fields between separators `c`, in order. -/
def fields (c : Char) (s : List Char) : List (List Char) := pieces (· == c) s

/-- What stands before and after the first `c`, if there is one. -/
def cutAt? (c : Char) (s : List Char) : Option (List Char × List Char) :=
  match s.dropWhile (· != c) with
  | [] => none
  | _ :: rest => some (s.takeWhile (· != c), rest)

/-- The text up to the first `c`, all of it if there is none. -/
def before (c : Char) (s : List Char) : List Char := s.takeWhile (· != c)

/-- The text after a given start, if it starts so. -/
def afterPrefix? : List Char → List Char → Option (List Char)
  | [], s => some s
  | _ :: _, [] => none
  | p :: ps, c :: s => if p = c then afterPrefix? ps s else none

/-- The text before its last character, if that is `c`. -/
def beforeLast? (c : Char) (s : List Char) : Option (List Char) :=
  if s.getLast? = some c then some s.dropLast else none

/-- The only character of a text. -/
def single? : List Char → Option Char
  | [c] => some c
  | _ => none

/-- The text without one carriage return at its end. -/
def dropReturn (s : List Char) : List Char := (beforeLast? '\r' s).getD s

/-- The lines of a text: each line feed ends one, and a carriage return before it belongs to the
line end.  What follows the last line feed is a line unless it is empty. -/
def lines (s : List Char) : List (List Char) :=
  let parts := fields '\n' s
  let ended := parts.dropLast.map dropReturn
  match parts.getLast? with
  | some (c :: rest) => ended ++ [c :: rest]
  | _ => ended

/-- The part of a line before its first `//`. -/
def uncommented : List Char → List Char
  | [] => []
  | '/' :: '/' :: _ => []
  | c :: s => c :: uncommented s

/-- A text with its ASCII capitals made small. -/
def lower (s : List Char) : List Char := s.map Char.toLower

/-- Equality up to the case of ASCII letters. -/
def sameLetters (a b : List Char) : Bool := lower a == lower b

/-- The texts of a list with `sep` between neighbours. -/
def joinWith (sep : List Char) : List (List Char) → List Char
  | [] => []
  | [s] => s
  | s :: t :: rest => s ++ sep ++ joinWith sep (t :: rest)

@[simp]
theorem afterPrefix?_append (p s : List Char) : afterPrefix? p (p ++ s) = some s := by
  induction p with
  | nil => simp [afterPrefix?]
  | cons c p ih => simpa [afterPrefix?] using ih

end RhythmChart.Text
