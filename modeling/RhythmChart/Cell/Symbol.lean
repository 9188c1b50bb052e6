import RhythmChart.Note
import RhythmChart.Number.Integer
import RhythmChart.Text.Cut

/-! # Symbols

A symbol is a name and a list of integers in braces.  The names `loop` and `if`, in any case, stand
for loop counts and conditional codes; every other name is a command.

* `Symbol.read` gives every name and body a meaning: an entry that is missing or no integer counts
  as `0`, a negative count is `0`, a code other than `0` and `1` is `1`;
* `Symbol.remarks` lists what was replaced in that way. -/

namespace RhythmChart

/-- What the name of a symbol stands for. -/
inductive SymbolKind where
  | loop
  | branch
  | command
  deriving DecidableEq, Repr

/-- The kind of a name. -/
def SymbolKind.ofName (name : List Char) : SymbolKind :=
  if Text.sameLetters name "loop".toList then .loop
  else if Text.sameLetters name "if".toList then .branch
  else .command

/-- The meaning of a symbol. -/
inductive Symbol where
  | loop (counts : List Nat)
  | branch (codes : List Bool)
  | command (command : Command)
  deriving DecidableEq, Repr

/-- Something in a cell that was replaced or ignored. -/
inductive CellRemark where
  | emptyEntry (name : List Char) (index : Nat)
  | noInteger (name : List Char) (index : Nat) (entry : List Char)
  | negativeCount (name : List Char) (value : Int)
  | noBinaryCode (name : List Char) (value : Int)
  | secondLoop
  | secondConditional
  deriving DecidableEq, Repr

/-- The wording of a remark. -/
def CellRemark.message : CellRemark → String
  | .emptyEntry name index => s!"{String.ofList name}\x7b\x7d entry {index} is empty, using 0"
  | .noInteger name index entry =>
    s!"{String.ofList name}\x7b\x7d entry {index} ('{String.ofList entry}') is not an integer, using 0"
  | .negativeCount name value =>
    s!"{String.ofList name}\x7b\x7d count {value} is negative, using 0"
  | .noBinaryCode name value =>
    s!"{String.ofList name}\x7b\x7d code {value} is not 0/1, treating as 1"
  | .secondLoop => "second loop\x7b\x7d in one cell ignored"
  | .secondConditional => "second if\x7b\x7d in one cell ignored"

namespace Symbol

/-- The entries of a body: none if it is blank, else its comma-separated fields, trimmed. -/
def entries (body : List Char) : List (List Char) :=
  if (Text.trim body).isEmpty then [] else (Text.fields ',' body).map Text.trim

/-- The integers of a body; `none` where an entry is no 64-bit integer. -/
def values (body : List Char) : List (Option Int) := (entries body).map Number.int64?

/-- The loop count of an entry, cut to 32 bits. -/
def countOf (value : Option Int) : Nat := min (value.getD 0).toNat Number.maxCount

/-- The conditional code of an entry. -/
def codeOf (value : Option Int) : Bool := value.getD 0 != 0

/-- The command parameter of an entry, cut to 32 bits. -/
def paramOf (value : Option Int) : Int := max (-2147483648) (min 2147483647 (value.getD 0))

/-- The meaning of a symbol. -/
def read (name body : List Char) : Symbol :=
  match SymbolKind.ofName name with
  | .loop => .loop ((values body).map countOf)
  | .branch => .branch ((values body).map codeOf)
  | .command => .command ⟨String.ofList name, (values body).map paramOf⟩

/-- The remark on one entry, counted from one, as an integer. -/
def entryRemark? (name : List Char) (entry : List Char × Nat) : Option CellRemark :=
  if (Number.int64? entry.1).isSome then none
  else if entry.1.isEmpty then some (.emptyEntry name entry.2)
  else some (.noInteger name entry.2 entry.1)

/-- The remark on one integer as a count or a code. -/
def valueRemark? (name : List Char) : SymbolKind → Option Int → Option CellRemark
  | .loop, some v => if v < 0 then some (.negativeCount name v) else none
  | .branch, some v => if v = 0 ∨ v = 1 then none else some (.noBinaryCode name v)
  | _, _ => none

/-- All remarks on a symbol: first those on entries that are no integers, then those on values. -/
def remarks (name body : List Char) : List CellRemark :=
  ((entries body).zipIdx 1).filterMap (entryRemark? name) ++
    (values body).filterMap (valueRemark? name (SymbolKind.ofName name))

end Symbol

end RhythmChart
