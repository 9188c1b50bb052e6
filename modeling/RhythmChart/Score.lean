import RhythmChart.Assoc
import RhythmChart.Grade
import RhythmChart.Key

/-! # Scores

Counters over a run.

* `Score.applyGrade` moves combo and errors, `Score.tally` counts a finished note, `Score.record` does
  both;
* `Score.emptyPress` charges a press that hit nothing, unless its key produced an error shortly
  before. -/

namespace RhythmChart

/-- How many notes got each grade. -/
structure GradeCounts where
  critical : Nat := 0
  patchedFast : Nat := 0
  patchedLate : Nat := 0
  fast : Nat := 0
  late : Nat := 0
  tooFast : Nat := 0
  tooLate : Nat := 0
  deriving DecidableEq, Repr

namespace GradeCounts

/-- The count of a grade. -/
def get (c : GradeCounts) : Grade → Nat
  | .critical => c.critical
  | .patchedFast => c.patchedFast
  | .patchedLate => c.patchedLate
  | .fast => c.fast
  | .late => c.late
  | .tooFast => c.tooFast
  | .tooLate => c.tooLate

/-- One more note of a grade. -/
def add (c : GradeCounts) : Grade → GradeCounts
  | .critical => { c with critical := c.critical + 1 }
  | .patchedFast => { c with patchedFast := c.patchedFast + 1 }
  | .patchedLate => { c with patchedLate := c.patchedLate + 1 }
  | .fast => { c with fast := c.fast + 1 }
  | .late => { c with late := c.late + 1 }
  | .tooFast => { c with tooFast := c.tooFast + 1 }
  | .tooLate => { c with tooLate := c.tooLate + 1 }

/-- The counts in the order of `Grade.all`. -/
def toList (c : GradeCounts) : List Nat := Grade.all.map c.get

/-- Adding a note of one grade moves the count of that grade alone. -/
theorem get_add (c : GradeCounts) (g h : Grade) :
    (c.add g).get h = if g = h then c.get h + 1 else c.get h := by
  cases g <;> cases h <;> rfl

end GradeCounts

/-- The counters of a run.  `lastError` holds the time of the last error of each key. -/
structure Score where
  combo : Nat
  maxCombo : Nat
  errors : Nat
  judged : Nat
  emptyPresses : Nat
  grades : GradeCounts
  lastError : List (Key × Float)

namespace Score

/-- Nothing has happened. -/
def zero : Score := ⟨0, 0, 0, 0, 0, {}, []⟩

/-- The effect of a grade on combo and errors. -/
def applyGrade (s : Score) (g : Grade) : Score :=
  if g.isMiss then { s with combo := 0, errors := s.errors + 1 }
  else { s with combo := s.combo + 1, maxCombo := max s.maxCombo (s.combo + 1) }

/-- Counts a finished note. -/
def tally (s : Score) (g : Grade) : Score :=
  { s with judged := s.judged + 1, grades := s.grades.add g }

/-- Counts a finished note with its effect on combo and errors. -/
def record (s : Score) (g : Grade) : Score := (s.applyGrade g).tally g

/-- Remembers an error of a key. -/
def markError (s : Score) (k : Key) (time : Float) : Score :=
  { s with lastError := Assoc.put k time s.lastError }

/-- Whether an empty press of a key is charged: its last error, if any, lies longer back than the
cooldown. -/
def charges (s : Score) (k : Key) (time cooldown : Float) : Bool :=
  match s.lastError.lookup k with
  | some last => !decide (time - last ≤ cooldown)
  | none => true

/-- A press of a key that hit nothing. -/
def emptyPress (s : Score) (k : Key) (time cooldown : Float) : Score :=
  if s.charges k time cooldown then
    { s.markError k time with
      combo := 0, errors := s.errors + 1, emptyPresses := s.emptyPresses + 1 }
  else s

end Score

end RhythmChart
