import RhythmChart.Boundary
import RhythmChart.Schedule
import RhythmChart.Score
import RhythmChart.Windows

/-! # Live notes

A live note is a note in one visit of its row; a looped row has several.  Each is judged on its own.

* `Visit.liveNotes` stamps the notes of a visit;
* `LiveNote.ofVisit` finds the live notes of a visit by halving;
* `Board` is what judging changes: the live notes, the score, and the judgments so far. -/

namespace RhythmChart

/-- A note in one visit.  `result` is its grade once it is judged, `layersDone` counts the judged
layers of a multi note. -/
structure LiveNote where
  note : Nat
  visit : Nat
  row : Int
  position : Float
  trigger : Float
  result : Option Grade
  layersDone : Nat

namespace LiveNote

/-- Whether the note has its grade. -/
def isJudged (n : LiveNote) : Bool := n.result.isSome

/-- A note that is not judged yet. -/
def fresh (note visit : Nat) (row : Int) (position trigger : Float) : LiveNote :=
  ⟨note, visit, row, position, trigger, none, 0⟩

/-- The live notes of a visit; those of earlier visits stand before them, those of later visits
after. -/
def ofVisit (live : Array LiveNote) (seq : Nat) : Array LiveNote :=
  let first := boundary (fun n : LiveNote => decide (n.visit < seq)) live 0 live.size
  let after := boundary (fun n : LiveNote => decide (n.visit ≤ seq)) live 0 live.size
  live.extract first after

end LiveNote

/-- The live notes of a visit, in the order of its row. -/
def Visit.liveNotes (v : Visit) (c : Chart) (speed : Float) : List LiveNote :=
  (c.notesAt v.row).map fun n =>
    .fresh n.1 v.seq v.row n.2.position (v.start + n.2.position / speed)

/-- A grade given to a live note, or to one layer of it.  `delta` is the time of the note less the
time of the judgment. -/
structure Judgment where
  live : Nat
  note : Nat
  row : Int
  position : Float
  grade : Grade
  delta : Float
  time : Float
  layer : Option Nat

/-- What judging changes.  Live notes are known by their indices. -/
structure Board where
  live : Array LiveNote
  score : Score
  judgments : Array Judgment

namespace Board

/-- Whether the note of a live note is judged at all. -/
def isJudgable (notes : Array Note) (n : LiveNote) : Bool :=
  notes[n.note]?.any fun note => note.noteType.isJudgable

/-- Announces a grade of the live note at `id`. -/
def announce (b : Board) (id : Nat) (n : LiveNote) (grade : Grade) (time : Float)
    (layer : Option Nat) : Board :=
  let judgment : Judgment :=
    ⟨id, n.note, n.row, n.position, grade, n.trigger - time, time, layer⟩
  { b with judgments := b.judgments.push judgment }

/-- Gives the live note at `id` its grade and announces it. -/
def settle (b : Board) (id : Nat) (n : LiveNote) (grade : Grade) (time : Float) : Board :=
  { b with live := b.live.modify id fun n => { n with result := some grade } }.announce
    id n grade time none

/-- Changes the score. -/
def mapScore (b : Board) (f : Score → Score) : Board := { b with score := f b.score }

end Board

end RhythmChart
