import RhythmChart.Document
import RhythmChart.Playback

/-! # Reports

What is told about a playback: a summary of the score, and one line per live note. -/

namespace RhythmChart

/-- A live note with what the chart says about it. -/
structure NoteReport where
  live : LiveNote
  noteType : NoteType
  length : Float

/-- The result of a playback. -/
structure Summary where
  score : Score
  grades : List (Grade × Nat)
  rowVisits : Nat
  commandsFired : Nat
  diagnostics : Nat
  endTime : Float
  finished : Bool

namespace Playback

/-- The live notes stamped so far, in visit order. -/
def noteReports (p : Playback) : List NoteReport :=
  p.playhead.live.toList.filterMap fun n =>
    p.chart.notes[n.note]?.map fun note => ⟨n, note.noteType, note.length⟩

/-- The result so far. -/
def summary (p : Playback) : Summary :=
  { score := p.score
    grades := Grade.all.map fun g => (g, p.score.grades.get g)
    rowVisits := p.rowVisits
    commandsFired := p.commandsFired
    diagnostics := p.chart.diagnostics.length
    endTime := p.playhead.time
    finished := p.isFinished }

end Playback

/-- A note type in the output. -/
def NoteType.document : NoteType → Document
  | .track => .text "track"
  | .tap => .text "tap"
  | .hold => .text "hold"
  | .breaking => .text "break"
  | .multi => .text "multi"
  | .other token => .record [("other", .text token)]

/-- A note report in the output. -/
def NoteReport.document (r : NoteReport) : Document :=
  .record
    [("visit", .count r.live.visit),
      ("row", .integer r.live.row),
      ("position", .number r.live.position),
      ("note_type", r.noteType.document),
      ("length", .number r.length),
      ("trigger_time", .number r.live.trigger),
      ("is_judged", .flag r.live.isJudged),
      ("result", .ofOption (r.live.result.map fun g => .text g.name))]

/-- A score in the output. -/
def Score.document (s : Score) : Document :=
  .record
    [("combo", .count s.combo),
      ("max_combo", .count s.maxCombo),
      ("errors", .count s.errors),
      ("total_judged", .count s.judged),
      ("empty_presses", .count s.emptyPresses),
      ("grade_counts", .list (s.grades.toList.map .count))]

/-- A summary in the output. -/
def Summary.document (s : Summary) : Document :=
  .record
    [("score", s.score.document),
      ("grades", .list (s.grades.map fun g => .list [.text g.1.label, .count g.2])),
      ("row_visits", .count s.rowVisits),
      ("commands_fired", .count s.commandsFired),
      ("diagnostics", .count s.diagnostics),
      ("end_time", .number s.endTime),
      ("finished", .flag s.finished)]

/-- The output of a run: the summary, and the notes if they are asked for. -/
def Playback.document (p : Playback) (withNotes : Bool) : Document :=
  let notes := if withNotes then [("notes", .list (p.noteReports.map NoteReport.document))] else []
  .record (("summary", p.summary.document) :: notes)

end RhythmChart
