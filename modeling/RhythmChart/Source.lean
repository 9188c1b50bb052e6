import RhythmChart.Chart.Scan
import RhythmChart.Config
import RhythmChart.Replay

/-! # Files

Charts, replays and configurations as the bytes of files.  A file may be missing, and its bytes may
be no text. -/

namespace RhythmChart

/-- The bytes of a file; `none` if there is no such file. -/
abbrev Source := Option ByteArray

/-- Why a file has no text. -/
inductive SourceError where
  | notFound
  | notText
  deriving DecidableEq, Repr

/-- The wording of an error. -/
def SourceError.message : SourceError → String
  | .notFound => "No such file or directory (os error 2)"
  | .notText => "stream did not contain valid UTF-8"

namespace Source

/-- The text of a file in UTF-8. -/
def text (s : Source) : Except SourceError String :=
  match s with
  | none => .error .notFound
  | some bytes =>
    match String.fromUTF8? bytes with
    | some t => .ok t
    | none => .error .notText

/-- The chart in a file. -/
def chart (s : Source) : Except SourceError Chart := s.text.map Chart.ofText

/-- The edges of the replay in a file. -/
def replay (s : Source) : Except SourceError (List Edge) :=
  s.text.map fun t => Replay.edges t.toList

/-- The file after the configuration is loaded: a missing one is written with the defaults. -/
def withDefaults (s : Source) : Source :=
  some (s.getD (String.ofList Config.standard.text).toUTF8)

/-- The configuration in a file.  A missing file counts as the one that is written in its place, and
bytes that are no text as the defaults. -/
def config (s : Source) : Config :=
  match Source.text s.withDefaults with
  | .ok t => Config.ofText t.toList
  | .error _ => .standard

end Source

end RhythmChart
