/-! # Notes

A note stands at a position of a row, has a type and a length, and may carry codes for a loop or a
conditional that starts at its row, and commands.

* `NoteType.ofLetter?` and `NoteType.letter?` relate types and their letters;
* `NoteType.isJudgable` tells the types that a player has to hit. -/

namespace RhythmChart

/-- What a note is.  A token that is no type letter is kept as it is written. -/
inductive NoteType where
  | track
  | tap
  | hold
  | breaking
  | multi
  | other (token : String)
  deriving DecidableEq, Repr

namespace NoteType

/-- The type of a letter. -/
def ofLetter? : Char → Option NoteType
  | '0' => some .track
  | 't' => some .tap
  | 'h' => some .hold
  | 'b' => some .breaking
  | 'm' => some .multi
  | _ => none

/-- The letter of a type. -/
def letter? : NoteType → Option Char
  | .track => some '0'
  | .tap => some 't'
  | .hold => some 'h'
  | .breaking => some 'b'
  | .multi => some 'm'
  | .other _ => none

/-- Whether notes of this type are judged. -/
def isJudgable : NoteType → Bool
  | .tap | .hold | .breaking | .multi => true
  | .track | .other _ => false

/-- A letter names the type it is read from. -/
theorem ofLetter?_eq_some_iff (c : Char) (t : NoteType) :
    ofLetter? c = some t ↔ t.letter? = some c := by
  constructor
  · intro h
    unfold ofLetter? at h
    split at h <;> simp only [Option.some.injEq, reduceCtorEq] at h <;> subst h <;> rfl
  · intro h
    cases t <;> simp only [letter?, Option.some.injEq, reduceCtorEq] at h <;> subst h <;> rfl

end NoteType

/-- One part of a multi note. -/
structure Layer where
  noteType : NoteType
  length : Float

/-- A named command with integer parameters. -/
structure Command where
  name : String
  params : List Int
  deriving DecidableEq, Repr

/-- A note of a chart.  `trigger` is its time when the rows are played once each, in order. -/
structure Note where
  row : Int
  position : Float
  noteType : NoteType
  length : Float
  indent : Nat
  trigger : Float
  loopCodes : List Nat
  branchCodes : List Bool
  commands : List Command
  layers : List Layer
  line : Nat

namespace Note

/-- Where the note ends in its row. -/
def finish (n : Note) : Float := n.position + n.length

/-- Whether the note carries loop codes, conditional codes or commands. -/
def hasStructure (n : Note) : Bool :=
  !n.loopCodes.isEmpty || !n.branchCodes.isEmpty || !n.commands.isEmpty

end Note

end RhythmChart
