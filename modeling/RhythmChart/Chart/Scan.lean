import RhythmChart.Chart.Rows

/-! # Reading chart texts

A chart text is read line by line.  Lines before a section header do not count; `# Main` holds row
headers `-<id>:`, indents `tab:<n>` and notes `<position>:[<cell>]`; `# Meta` holds `key: value`
lines.  Everything after `//` is a comment.

* `MainLine.ofText` recognises a line of `# Main` by its form alone;
* `Scan` is what has been read so far, `Scan.line` reads one more line;
* a line that cannot be used leaves a diagnostic and nothing else;
* `Chart.ofText` never fails. -/

namespace RhythmChart

/-- The section that a line belongs to. -/
inductive Section where
  | outside
  | main
  | metadata
  deriving DecidableEq, Repr

/-- The section of a header, the text after `#`. -/
def Section.ofHeader (header : List Char) : Section :=
  let name := Text.trim header
  if Text.sameLetters name "main".toList then .main
  else if Text.sameLetters name "meta".toList then .metadata
  else .outside

/-- The forms of a line in `# Main`. -/
inductive MainLine where
  | tab (level : List Char)
  | header (id : List Char)
  | note (position cell : List Char)
  | unrecognized
  deriving DecidableEq, Repr

namespace MainLine

/-- The id of a row header: a line that starts with a minus sign, ends with a colon and holds no
bracket. -/
def headerId? (line : List Char) : Option (List Char) :=
  (Text.beforeLast? ':' line).bind fun body =>
    if body.head? = some '-' ∧ !body.contains '[' then some (Text.trim body) else none

/-- The position and the cell of a note line. -/
def noteParts? (line : List Char) : Option (List Char × List Char) :=
  (Text.cutAt? ':' line).bind fun (position, rest) =>
    ((Text.afterPrefix? ['['] (Text.trim rest)).bind (Text.beforeLast? ']')).map fun cell =>
      (Text.trim position, cell)

/-- The form of a line. -/
def ofText (line : List Char) : MainLine :=
  match Text.afterPrefix? "tab:".toList line, headerId? line, noteParts? line with
  | some level, _, _ => .tab (Text.trim level)
  | none, some id, _ => .header id
  | none, none, some (position, cell) => .note position cell
  | none, none, none => .unrecognized

end MainLine

/-- What has been read of a chart text.  `tab` is the indent in effect; `declared` holds the rows in
the order of their headers, with the indent in effect when each was closed. -/
structure Scan where
  part : Section
  row : Option Int
  tab : Nat
  notes : Array Note
  declared : List (Int × Nat)
  metadata : Array (String × String)
  diagnostics : Array Diagnostic

namespace Scan

/-- Nothing is read. -/
def start : Scan := ⟨.outside, none, 0, #[], [], #[], #[]⟩

/-- Records a fault. -/
def report (s : Scan) (line : Nat) (fault : Fault) : Scan :=
  { s with diagnostics := s.diagnostics.push ⟨line, fault⟩ }

/-- Gives the open row the indent in effect. -/
def closeRow (s : Scan) : Scan :=
  match s.row with
  | none => s
  | some id =>
    { s with declared := s.declared.map fun entry => if entry.1 = id then (id, s.tab) else entry }

/-- A position: a finite number that is not negative. -/
def position? (text : List Char) : Option Float :=
  (Number.float? text).filter fun x => x.isFinite && decide (0.0 ≤ x)

/-- The note of a cell. -/
def noteOf (row : Int) (indent line : Nat) (position : Float) (cell : Cell) : Note :=
  { row, position, indent, line
    noteType := cell.noteType
    length := cell.length
    trigger := 0.0
    loopCodes := cell.loopCodes
    branchCodes := cell.branchCodes
    commands := cell.commands
    layers := cell.layers }

/-- Opens a row.  The indent starts again at `0`. -/
def openRow (s : Scan) (line : Nat) (id : Int) : Scan :=
  let s := s.closeRow
  let s := if s.declared.any fun entry => entry.1 == id then s.report line (.repeatedRow id)
    else { s with declared := s.declared ++ [(id, 0)] }
  { s with row := some id, tab := 0 }

/-- Adds a note to the open row. -/
def addNote (s : Scan) (line : Nat) (text position cell : List Char) : Scan :=
  match s.row, position? position, Cell.read cell with
  | none, _, _ => s.report line (.outsideRow text)
  | some _, none, _ => s.report line (.position position)
  | some _, some _, .error e => s.report line (.cell e text)
  | some row, some p, .ok (cell, remarks) =>
    let s := remarks.foldl (fun s r => s.report line (.remark r)) s
    { s with notes := s.notes.push (noteOf row s.tab line p cell) }

/-- Reads a line of `# Main`. -/
def mainLine (s : Scan) (line : Nat) (text : List Char) : Scan :=
  match MainLine.ofText text with
  | .tab level =>
    match Number.count? level with
    | some n => { s with tab := n }
    | none => s.report line (.tabLevel level)
  | .header id =>
    match Number.int32? id with
    | some id => s.openRow line id
    | none => s.report line (.rowId text)
  | .note position cell => s.addNote line text position cell
  | .unrecognized => s.report line (.unrecognized text)

/-- Reads a line of `# Meta`. -/
def metadataLine (s : Scan) (text : List Char) : Scan :=
  match Text.cutAt? ':' text with
  | some (key, value) =>
    let entry := (String.ofList (Text.trim key), String.ofList (Text.trim value))
    { s with metadata := s.metadata.push entry }
  | none => s

/-- Reads a line that is neither blank nor a comment. -/
def content (s : Scan) (line : Nat) (text : List Char) : Scan :=
  match text with
  | '#' :: header => { s.closeRow with row := none, part := Section.ofHeader header }
  | _ =>
    match s.part with
    | .outside => s
    | .metadata => s.metadataLine text
    | .main => s.mainLine line text

/-- Reads the line with the given number. -/
def line (s : Scan) (number : Nat) (raw : List Char) : Scan :=
  let text := Text.trim (Text.uncommented raw)
  if text.isEmpty then s else s.content number text

/-- Reads numbered lines. -/
def lines (s : Scan) (numbered : List (List Char × Nat)) : Scan :=
  numbered.foldl (fun s l => s.line l.2 l.1) s

/-- The chart of what was read. -/
def chart (s : Scan) : Chart :=
  Chart.ofParts s.notes s.closeRow.declared s.metadata.toList s.diagnostics.toList

end Scan

namespace Chart

/-- The chart of a list of lines. -/
def ofLines (lines : List (List Char)) : Chart := (Scan.start.lines (lines.zipIdx 1)).chart

/-- The chart of a text. -/
def ofText (text : String) : Chart := ofLines (Text.lines text.toList)

end Chart

end RhythmChart
