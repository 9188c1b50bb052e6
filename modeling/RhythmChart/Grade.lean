/-! # Grades

How well a note was hit.  `Grade.all` is the order in which grades are counted and reported. -/

namespace RhythmChart

/-- A grade: dead on, a little or clearly early or late, or missed. -/
inductive Grade where
  | critical
  | patchedFast
  | patchedLate
  | fast
  | late
  | tooFast
  | tooLate
  deriving DecidableEq, Repr

namespace Grade

/-- All grades, in reporting order. -/
def all : List Grade := [critical, patchedFast, patchedLate, fast, late, tooFast, tooLate]

/-- The place of a grade in the reporting order. -/
def index : Grade → Nat
  | critical => 0
  | patchedFast => 1
  | patchedLate => 2
  | fast => 3
  | late => 4
  | tooFast => 5
  | tooLate => 6

/-- Whether the grade is a miss. -/
def isMiss : Grade → Bool
  | tooFast | tooLate => true
  | _ => false

/-- The grade in words. -/
def label : Grade → String
  | critical => "Critical"
  | patchedFast => "Fast (patched)"
  | patchedLate => "Late (patched)"
  | fast => "Fast"
  | late => "Late"
  | tooFast => "Too Fast"
  | tooLate => "Too Late"

/-- The grade as an identifier. -/
def name : Grade → String
  | critical => "Critical"
  | patchedFast => "PatchedFast"
  | patchedLate => "PatchedLate"
  | fast => "Fast"
  | late => "Late"
  | tooFast => "TooFast"
  | tooLate => "TooLate"

/-- Every grade stands at its index. -/
theorem all_getElem?_index (g : Grade) : all[g.index]? = some g := by cases g <;> rfl

end Grade

end RhythmChart
