import RhythmChart.Keyboard
import RhythmChart.Notice
import RhythmChart.Number.Decimal

/-! # Replays

A replay is a text with one edge per line, `<time> <key> down|up`; `#` starts a comment.

* `Replay.edge` reads a line or says what is wrong with it;
* `Replay.edges` gives the edges of a text by time, `Replay.notices` what was skipped. -/

namespace RhythmChart

namespace Replay

/-- What is wrong with a line. -/
inductive LineError where
  | invalidTime
  | missingKey
  | unknownKey
  | missingDirection
  | badDirection
  | trailing
  deriving DecidableEq, Repr

/-- The wording of an error. -/
def LineError.message : LineError → String
  | .invalidTime => "invalid time"
  | .missingKey => "missing key"
  | .unknownKey => "unknown key"
  | .missingDirection => "missing direction"
  | .badDirection => "direction must be 'down' or 'up'"
  | .trailing => "trailing fields"

/-- A finite time. -/
def time? (s : List Char) : Option Float := (Number.float? s).filter Float.isFinite

/-- A direction: `down` or `up` in any case. -/
def direction? (s : List Char) : Option Bool :=
  if Text.sameLetters s "down".toList then some true
  else if Text.sameLetters s "up".toList then some false
  else none

/-- The direction field of a line and what follows it. -/
def directionOf : List (List Char) → Except LineError Bool
  | [] => .error .missingDirection
  | direction :: rest =>
    match direction? direction with
    | none => .error .badDirection
    | some pressed => if rest.isEmpty then .ok pressed else .error .trailing

/-- The edge of a line, given its first field and the others.  Fields are read from the left, and the
first one that is missing or wrong is reported. -/
def edge (time : List Char) (rest : List (List Char)) : Except LineError Edge :=
  match time? time, rest with
  | none, _ => .error .invalidTime
  | some _, [] => .error .missingKey
  | some t, key :: rest =>
    match Key.ofName? key with
    | none => .error .unknownKey
    | some k => (directionOf rest).map fun pressed => ⟨k, pressed, t⟩

/-- The edge of a line, if it holds anything besides a comment. -/
def line? (raw : List Char) : Option (Except LineError Edge) :=
  match Text.words (Text.before '#' raw) with
  | [] => none
  | time :: rest => some (edge time rest)

/-- The edge of a line that holds one. -/
def lineEdge? (raw : List Char) : Option Edge :=
  match line? raw with
  | some (.ok e) => some e
  | _ => none

/-- Edges by time; equal times keep their order. -/
def byTime (edges : List Edge) : List Edge :=
  edges.mergeSort fun a b => Number.totalLe a.time b.time

/-- The edges of a text, by time. -/
def edges (text : List Char) : List Edge := byTime ((Text.lines text).filterMap lineEdge?)

/-- One notice for each line that was skipped because of an error. -/
def notices (text : List Char) : List Notice :=
  ((Text.lines text).zipIdx 1).filterMap fun l =>
    match line? l.1 with
    | some (.error e) =>
      let shown := String.ofList (Text.trim l.1)
      some (.warning s!"replay line {l.2}: {e.message}: '{shown}'")
    | _ => none

end Replay

end RhythmChart
