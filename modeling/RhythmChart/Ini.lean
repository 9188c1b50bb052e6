import RhythmChart.Assoc
import RhythmChart.Text.Cut

/-! # Sectioned settings

A settings text has section headers `[name]` and entries `key=value`; `;` and `#` start comment
lines.  Entries before the first header belong to the section without name.

* `Ini.line` reads one line;
* `Ini.get?` gives the last value of a key in a section. -/

namespace RhythmChart

/-- The entries of each section, and the section that is being read. -/
structure Ini where
  sections : List (List Char × List (List Char × List Char))
  current : List Char
  deriving Repr

namespace Ini

/-- No section is read. -/
def empty : Ini := ⟨[], []⟩

/-- The entries of a section. -/
def section? (d : Ini) (name : List Char) : Option (List (List Char × List Char)) :=
  d.sections.lookup name

/-- The value of a key in a section. -/
def get? (d : Ini) (name key : List Char) : Option (List Char) :=
  (d.section? name).bind fun entries => entries.lookup key

/-- The name in a section header. -/
def header? (line : List Char) : Option (List Char) :=
  ((Text.afterPrefix? ['['] line).bind (Text.beforeLast? ']')).map Text.trim

/-- Begins a section, or goes on with one that was begun before. -/
def openSection (d : Ini) (name : List Char) : Ini :=
  { sections := Assoc.put name ((d.section? name).getD []) d.sections, current := name }

/-- Sets a key of the current section. -/
def set (d : Ini) (key value : List Char) : Ini :=
  let entries := (d.section? d.current).getD []
  { d with sections := Assoc.put d.current (Assoc.put key value entries) d.sections }

/-- Whether a trimmed line says nothing. -/
def isSilent (line : List Char) : Bool :=
  line.isEmpty || line.head? == some ';' || line.head? == some '#'

/-- Reads a line. -/
def line (d : Ini) (raw : List Char) : Ini :=
  let text := Text.trim raw
  if isSilent text then d
  else
    match header? text with
    | some name => d.openSection name
    | none =>
      match Text.cutAt? '=' text with
      | none => d
      | some (key, value) =>
        let key := Text.trim key
        if key.isEmpty then d else d.set key (Text.trim value)

/-- Reads a settings text. -/
def ofText (text : List Char) : Ini := (Text.lines text).foldl line empty

end Ini

end RhythmChart
