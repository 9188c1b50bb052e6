import RhythmChart.Cell.Split
import RhythmChart.Fault
import RhythmChart.Number.Shortest

/-! # Cells

The text between the brackets of a note line: a length, a type and symbols.

* A blank cell and `0` are a track of length one, a bare number is a track of that length, any other
  text without `;` is a type;
* `<length>;<type and symbols>` is the full form;
* `Cell.read` gives the cell and the remarks on its symbols, or the reason why it is dropped. -/

namespace RhythmChart

/-- What a cell says about its note. -/
structure Cell where
  noteType : NoteType
  length : Float
  loopCodes : List Nat
  branchCodes : List Bool
  commands : List Command
  layers : List Layer

/-- Why a cell is dropped. -/
inductive CellError where
  | invalidLength (value : Float)
  | malformedLength (text : List Char)
  | unknownLayer
  | malformedLayerLength
  | symbolWithoutLength
  | symbols (error : SplitError)

namespace CellError

/-- The kind of a cell error. -/
def kind : CellError → FaultKind
  | .invalidLength _ | .malformedLength _ | .unknownLayer | .malformedLayerLength => .malformedNumber
  | .symbolWithoutLength | .symbols _ => .malformedSymbol

/-- The wording of a cell error. -/
def message : CellError → String
  | .invalidLength value => s!"invalid length {String.ofList (Number.positional value)}"
  | .malformedLength text => s!"malformed length '{String.ofList text}'"
  | .unknownLayer => "unknown layer type"
  | .malformedLayerLength => "malformed layer length"
  | .symbolWithoutLength => "structural symbols need an explicit '<length>;' prefix"
  | .symbols error => error.message

end CellError

namespace Cell

/-- A cell without symbols. -/
def plain (noteType : NoteType) (length : Float) : Cell := ⟨noteType, length, [], [], [], []⟩

/-- A length: a finite number that is not negative. -/
def length? (s : List Char) : Option Float :=
  (Number.float? (Text.trim s)).filter fun x => x.isFinite && decide (0.0 ≤ x)

/-- One layer of a multi note: a type letter other than `m`, and a length or nothing. -/
def readLayer (part : List Char) : Except CellError Layer :=
  match part with
  | [] => .error .unknownLayer
  | c :: rest =>
    match NoteType.ofLetter? c with
    | none | some .multi => .error .unknownLayer
    | some t =>
      if rest.isEmpty then .ok ⟨t, 1.0⟩
      else match length? rest with
        | some l => .ok ⟨t, l⟩
        | none => .error .malformedLayerLength

/-- The layers of a comma-separated list, blank entries left out. -/
def readLayers (s : List Char) : Except CellError (List Layer) :=
  (((Text.fields ',' s).map Text.trim).filter fun p => !p.isEmpty).mapM readLayer

/-- The layer list of a token `m(...)`. -/
def layerList? (token : List Char) : Option (List Char) :=
  (Text.afterPrefix? "m(".toList token).bind (Text.beforeLast? ')')

/-- A type token: one type letter, `m(...)`, or any other text, which is kept as it is. -/
def typeToken (token : List Char) : Except CellError (NoteType × List Layer) :=
  match (Text.single? token).bind NoteType.ofLetter?, layerList? token with
  | some t, _ => .ok (t, [])
  | none, some list => (readLayers list).map fun ls => (.multi, ls)
  | none, none => .ok (.other (String.ofList token), [])

/-- Adds the meaning of one symbol.  Only the first loop and the first conditional count. -/
def absorb (acc : Cell × List CellRemark) (raw : RawSymbol) : Cell × List CellRemark :=
  let (cell, remarks) := acc
  let remarks := remarks ++ Symbol.remarks raw.name raw.body
  match Symbol.read raw.name raw.body with
  | .loop counts =>
    if cell.loopCodes.isEmpty then ({ cell with loopCodes := counts }, remarks)
    else (cell, remarks ++ [.secondLoop])
  | .branch codes =>
    if cell.branchCodes.isEmpty then ({ cell with branchCodes := codes }, remarks)
    else (cell, remarks ++ [.secondConditional])
  | .command command => ({ cell with commands := cell.commands ++ [command] }, remarks)

/-- A cell without `;`: a length of a track, or a type of length one. -/
def readShort (content : List Char) : Except CellError Cell :=
  match Number.float? content with
  | some v =>
    match length? content with
    | some l => .ok (plain .track l)
    | none => .error (.invalidLength v)
  | none =>
    if content.contains '\x7b' || content.contains '\x7d' then .error .symbolWithoutLength
    else (typeToken content).map fun (t, ls) => { plain t 1.0 with layers := ls }

/-- A cell with `;`: a length, then a type, a track if there is none, and symbols. -/
def readFull (lengthText rest : List Char) : Except CellError (Cell × List CellRemark) :=
  match length? lengthText with
  | none => .error (.malformedLength (Text.trim lengthText))
  | some length =>
    match splitSymbols rest with
    | .error e => .error (.symbols e)
    | .ok (token, raws) =>
      let typed := if token.isEmpty then .ok (.track, []) else typeToken token
      typed.map fun (t, ls) => raws.foldl absorb ({ plain t length with layers := ls }, [])

/-- Reads the content of a cell. -/
def read (text : List Char) : Except CellError (Cell × List CellRemark) :=
  let content := Text.trim text
  if content.isEmpty || content == ['0'] then .ok (plain .track 1.0, [])
  else match Text.cutAt? ';' content with
    | none => (readShort content).map fun c => (c, [])
    | some (lengthText, rest) => readFull lengthText rest

end Cell

end RhythmChart
