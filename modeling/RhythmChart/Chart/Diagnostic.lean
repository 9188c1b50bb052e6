import RhythmChart.Cell.Content

/-! # Diagnostics

The faults of a chart text.  A line with a fault is skipped, or, for a remark on a cell, read with
the replacement that the remark names. -/

namespace RhythmChart

/-- A fault of one line. -/
inductive Fault where
  | tabLevel (text : List Char)
  | rowId (line : List Char)
  | repeatedRow (row : Int)
  | unrecognized (line : List Char)
  | outsideRow (line : List Char)
  | position (text : List Char)
  | remark (r : CellRemark)
  | cell (error : CellError) (line : List Char)

namespace Fault

/-- The kind of a fault. -/
def kind : Fault → FaultKind
  | .tabLevel _ | .position _ | .remark _ => .malformedNumber
  | .rowId _ | .unrecognized _ => .unknownRowSyntax
  | .repeatedRow _ => .duplicateRow
  | .outsideRow _ => .noteOutsideRow
  | .cell error _ => error.kind

/-- The wording of a fault. -/
def message : Fault → String
  | .tabLevel text => s!"malformed tab level '{String.ofList text}'"
  | .rowId line => s!"malformed row id: '{String.ofList line}'"
  | .repeatedRow row => s!"row {row} declared again, appending to it"
  | .unrecognized line => s!"unrecognized line '{String.ofList line}'"
  | .outsideRow line => s!"note before any row header: '{String.ofList line}'"
  | .position text => s!"malformed position '{String.ofList text}'"
  | .remark r => r.message
  | .cell error line => s!"{error.message} in '{String.ofList line}'"

end Fault

/-- A fault and the number of its line, counted from one. -/
structure Diagnostic where
  line : Nat
  fault : Fault

end RhythmChart
