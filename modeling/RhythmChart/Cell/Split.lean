import RhythmChart.Cell.Symbol

/-! # Splitting a cell at its symbols

What follows the length of a cell mixes a type token with symbols `name{body}`.  One pass from the
left separates them.

* `Split` is the state of the pass: the free text so far, the finished symbols, and the symbol whose
  brace is open, all texts from right to left;
* `Split.step` reads one character and fails at the first brace that is out of place;
* `splitSymbols` gives the token, with its blanks dropped, and the symbols in order. -/

namespace RhythmChart

/-- A symbol as it is written. -/
structure RawSymbol where
  name : List Char
  body : List Char
  deriving DecidableEq, Repr

/-- A brace that is out of place. -/
inductive SplitError where
  | nameless
  | nested
  | unterminated
  | unmatched
  deriving DecidableEq, Repr

/-- The wording of a split error. -/
def SplitError.message : SplitError → String
  | .nameless => "structural symbol without a name"
  | .nested => "nested '\x7b' in structural symbol"
  | .unterminated => "unterminated '\x7b' in structural symbol"
  | .unmatched => "unmatched '\x7d' in cell"

/-- Whether a character may stand in the name of a symbol. -/
def isNameChar (c : Char) : Bool := c.isAlphanum || c == '_'

/-- A type letter written directly before `loop` or `if` belongs to the token, not to the name.
Gives what goes back to the free text, and the name. -/
def unglue : List Char → List Char × List Char
  | [] => ([], [])
  | c :: rest =>
    if SymbolKind.ofName (c :: rest) = .command ∧ SymbolKind.ofName rest ≠ .command
        ∧ (NoteType.ofLetter? c).isSome then ([c], rest)
    else ([], c :: rest)

/-- The state of the pass.  `free`, `done` and the body of `current` are kept from right to left. -/
structure Split where
  free : List Char
  done : List RawSymbol
  current : Option (List Char × List Char)
  deriving DecidableEq, Repr

namespace Split

/-- Nothing is read. -/
def start : Split := ⟨[], [], none⟩

/-- An opening brace ends a name: the longest run of name characters before it. -/
def openBrace (s : Split) : Except SplitError Split :=
  let run := s.free.takeWhile isNameChar
  if run.isEmpty then .error .nameless
  else
    let (back, name) := unglue run.reverse
    .ok { s with free := back ++ s.free.dropWhile isNameChar, current := some (name, []) }

/-- Reads one character.  A finished symbol leaves a blank in the free text, so that the names on its
two sides stay apart. -/
def step (s : Split) (c : Char) : Except SplitError Split :=
  match s.current with
  | some (name, body) =>
    if c = '\x7d' then
      .ok { free := ' ' :: s.free, done := ⟨name, body.reverse⟩ :: s.done, current := none }
    else if c = '\x7b' then .error .nested
    else .ok { s with current := some (name, c :: body) }
  | none =>
    if c = '\x7b' then s.openBrace
    else if c = '\x7d' then .error .unmatched
    else .ok { s with free := c :: s.free }

/-- The result of a finished pass. -/
def result (s : Split) : Except SplitError (List Char × List RawSymbol) :=
  match s.current with
  | some _ => .error .unterminated
  | none => .ok (Text.unblanked s.free.reverse, s.done.reverse)

end Split

/-- The type token of a cell and its symbols, in order. -/
def splitSymbols (s : List Char) : Except SplitError (List Char × List RawSymbol) :=
  match s.foldlM Split.step Split.start with
  | .ok final => final.result
  | .error e => .error e

end RhythmChart
