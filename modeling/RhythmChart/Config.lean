import RhythmChart.Ini
import RhythmChart.LogLevel
import RhythmChart.Number.Shortest
import RhythmChart.Settings

/-! # Configuration

What a settings text configures.  A key that is missing or has no usable value keeps its default.

* `Config.ofIni` reads a configuration;
* `Config.text` writes one, with numbers in the fewest digits that read back. -/

namespace RhythmChart

/-- A configuration.  `tickRate` is the number of ticks per second. -/
structure Config where
  logLevel : LogLevel
  speed : Float
  start : Float
  tickRate : Nat
  windows : Windows
  keymap : Keymap

namespace Config

/-- The configuration that is used unless another is given. -/
def standard : Config := ⟨.warn, defaultSpeed, 0.0, 240, .standard, .standard⟩

/-- The value of a key in a section. -/
def value? (d : Ini) (name key : String) : Option (List Char) := d.get? name.toList key.toList

/-- The number given for a key. -/
def number? (d : Ini) (name key : String) : Option Float := (value? d name key).bind Number.float?

/-- A time span in the section of the windows: a finite number that is not negative. -/
def seconds (d : Ini) (key : String) (default : Float) : Float :=
  ((number? d "Timing" key).filter fun x => x.isFinite && decide (0.0 ≤ x)).getD default

/-- The windows of a settings text, put into order. -/
def windowsOf (d : Ini) : Windows :=
  let w := Windows.standard
  Windows.clamped
    { enter := seconds d "EnterWindowSeconds" w.enter
      exit := seconds d "ExitWindowSeconds" w.exit
      patched := seconds d "PatchedWindowSeconds" w.patched
      fixed := seconds d "FixedWindowSeconds" w.fixed
      holdGrace := seconds d "HoldGraceSeconds" w.holdGrace
      holdEarly := seconds d "HoldEarlyReleaseSeconds" w.holdEarly
      cooldown := seconds d "ErrorCooldownSeconds" w.cooldown }

/-- The tick rate of a settings text, from one to ten thousand. -/
def tickRate? (d : Ini) : Option Nat :=
  ((value? d "Playback" "TickRate").bind Number.count?).map fun n => max 1 (min n 10000)

/-- The configuration of a settings text. -/
def ofIni (d : Ini) : Config :=
  let usual := standard
  { logLevel := ((value? d "Options" "LogLevel").bind LogLevel.ofName?).getD usual.logLevel
    speed := ((number? d "Playback" "Speed").filter fun x =>
      x.isFinite && decide (0.0 < x)).getD usual.speed
    start := ((number? d "Playback" "StartOffsetSeconds").filter Float.isFinite).getD usual.start
    tickRate := (tickRate? d).getD usual.tickRate
    windows := windowsOf d
    keymap := match (value? d "Keymaps" "Judge").bind Keymap.read? with
      | some keys => ⟨keys⟩
      | none => usual.keymap }

/-- The configuration of a text. -/
def ofText (text : List Char) : Config := ofIni (Ini.ofText text)

/-- How the configuration says a chart is played. -/
def settings (c : Config) : Settings := ⟨c.speed, c.start, c.windows, c.keymap⟩

/-- An entry with its line end. -/
def entry (key : String) (value : List Char) : List Char := key.toList ++ '=' :: value ++ ['\n']

/-- A section with a blank line after it. -/
def sectionText (name : String) (entries : List (List Char)) : List Char :=
  '[' :: name.toList ++ "]\n".toList ++ entries.flatten ++ ['\n']

/-- The settings text of a configuration. -/
def text (c : Config) : List Char :=
  let w := c.windows
  let number (key : String) (x : Float) : List Char := entry key (Number.positional x)
  sectionText "Options" [entry "LogLevel" c.logLevel.name.toList] ++
  sectionText "Playback"
    [number "Speed" c.speed, number "StartOffsetSeconds" c.start,
      entry "TickRate" (Number.naturalText c.tickRate)] ++
  sectionText "Timing"
    [number "EnterWindowSeconds" w.enter, number "ErrorCooldownSeconds" w.cooldown,
      number "ExitWindowSeconds" w.exit, number "FixedWindowSeconds" w.fixed,
      number "HoldEarlyReleaseSeconds" w.holdEarly, number "HoldGraceSeconds" w.holdGrace,
      number "PatchedWindowSeconds" w.patched] ++
  sectionText "Keymaps" [entry "Judge" c.keymap.text]

end Config

end RhythmChart
