import RhythmChart.Boundary
import RhythmChart.Chart.Diagnostic
import RhythmChart.Number.Binary64
import RhythmChart.Text.Cut

/-! # Charts

A chart is a list of notes and the rows that hold them.  Rows are kept by falling id, the order in
which they are played; a row knows its notes by their indices, ordered by position.

* `Chart.ofParts` collects the rows that are declared or used by a note;
* the indent of a row is the least indent of its notes, or the declared one if it has none;
* the extent of a row is the largest end of its notes, and at least `0`;
* `Chart.rowIndex?` finds a row by halving. -/

namespace RhythmChart

/-- A row: its notes as indices into the notes of the chart, ordered by position. -/
structure Row where
  id : Int
  indent : Nat
  extent : Float
  notes : List Nat

/-- A chart.  The rows are ordered by falling id. -/
structure Chart where
  notes : Array Note
  rows : Array Row
  metadata : List (String × String)
  diagnostics : List Diagnostic

namespace Row

/-- The indices of the notes in row `id`, ordered by position; equal positions keep their order. -/
def members (notes : List (Note × Nat)) (id : Int) : List (Note × Nat) :=
  (notes.filter fun n => n.1.row == id).mergeSort fun a b =>
    Number.totalLe a.1.position b.1.position

/-- The largest end among notes, and at least `0`.  An end that is no number does not count. -/
def extentOf (notes : List Note) : Float :=
  notes.foldl (fun extent n => Number.raise extent n.finish) 0.0

/-- The least indent among notes. -/
def leastIndent? (notes : List Note) : Option Nat := (notes.map Note.indent).min?

/-- The indent first declared for a row, `0` if it is not declared. -/
def declaredIndent (declared : List (Int × Nat)) (id : Int) : Nat := (declared.lookup id).getD 0

/-- The row `id` of a chart with the given notes and declared rows. -/
def ofMembers (declared : List (Int × Nat)) (notes : List (Note × Nat)) (id : Int) : Row :=
  let inRow := members notes id
  { id := id
    indent := (leastIndent? (inRow.map Prod.fst)).getD (declaredIndent declared id)
    extent := extentOf (inRow.map Prod.fst)
    notes := inRow.map Prod.snd }

end Row

namespace Chart

/-- The distinct members of a list of ids, in falling order. -/
def fallingIds (ids : List Int) : List Int :=
  ids.eraseDups.mergeSort fun a b => decide (b ≤ a)

/-- The chart of the given notes, with a row for each id that is declared or used. -/
def ofParts (notes : Array Note) (declared : List (Int × Nat)) (metadata : List (String × String))
    (diagnostics : List Diagnostic) : Chart :=
  let ids := fallingIds (declared.map Prod.fst ++ notes.toList.map Note.row)
  let indexed := notes.toList.zipIdx
  { notes, metadata, diagnostics
    rows := (ids.map (Row.ofMembers declared indexed)).toArray }

/-- The index of row `id`. -/
def rowIndex? (c : Chart) (id : Int) : Option Nat :=
  let i := boundary (fun r : Row => decide (id < r.id)) c.rows 0 c.rows.size
  match c.rows[i]? with
  | some r => if r.id = id then some i else none
  | none => none

/-- The row `id`. -/
def row? (c : Chart) (id : Int) : Option Row := (c.rowIndex? id).bind fun i => c.rows[i]?

/-- The row that is played first. -/
def firstRow? (c : Chart) : Option Row := c.rows[0]?

/-- The notes of a row with their indices, by position. -/
def notesOf (c : Chart) (r : Row) : List (Nat × Note) :=
  r.notes.filterMap fun i => c.notes[i]?.map fun n => (i, n)

/-- The notes of row `id` with their indices, by position. -/
def notesAt (c : Chart) (id : Int) : List (Nat × Note) :=
  match c.row? id with
  | some r => c.notesOf r
  | none => []

/-- The first value given for a key, whose case does not matter. -/
def metadata? (c : Chart) (key : String) : Option String :=
  (c.metadata.find? fun entry => Text.sameLetters entry.1.toList key.toList).map Prod.snd

/-- How many notes are of a type that is judged. -/
def judgableCount (c : Chart) : Nat :=
  c.notes.toList.countP fun n => n.noteType.isJudgable

end Chart

end RhythmChart
