import RhythmChart.Keymap
import RhythmChart.Number.Decimal
import RhythmChart.Schedule
import RhythmChart.Windows

/-! # Playback settings

How a chart is played.  The metadata of a chart, `speed` and `offset`, wins over what was configured
if it is a usable number. -/

namespace RhythmChart

/-- Speed in grid units per second, the time at which the first row begins, the timing windows, and
the judged keys. -/
structure Settings where
  speed : Float
  start : Float
  windows : Windows
  keymap : Keymap

namespace Settings

/-- The settings that are used unless others are given. -/
def standard : Settings := ⟨defaultSpeed, 0.0, .standard, .standard⟩

/-- The number given in the metadata of a chart for a key. -/
def metadataNumber? (c : Chart) (key : String) : Option Float :=
  (c.metadata? key).bind fun v => Number.float? (Text.trim v.toList)

/-- The speed of a chart, if it gives a usable one. -/
def chartSpeed? (c : Chart) : Option Float :=
  (metadataNumber? c "speed").filter fun x => x.isFinite && decide (0.0 < x)

/-- The start of a chart, if it gives a usable one. -/
def chartStart? (c : Chart) : Option Float :=
  (metadataNumber? c "offset").filter Float.isFinite

/-- The settings with what the chart says about itself. -/
def forChart (s : Settings) (c : Chart) : Settings :=
  { s with speed := (chartSpeed? c).getD s.speed, start := (chartStart? c).getD s.start }

end Settings

end RhythmChart
