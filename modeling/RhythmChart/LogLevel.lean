import RhythmChart.Text.Cut

/-! # Log levels

How much is reported while the program runs. -/

namespace RhythmChart

/-- A log level, from nothing to everything. -/
inductive LogLevel where
  | off
  | error
  | warn
  | info
  | debug
  | trace
  deriving DecidableEq, Repr

namespace LogLevel

/-- All levels. -/
def all : List LogLevel := [off, error, warn, info, debug, trace]

/-- The name of a level. -/
def name : LogLevel → String
  | off => "Off"
  | error => "Error"
  | warn => "Warn"
  | info => "Info"
  | debug => "Debug"
  | trace => "Trace"

/-- The level of a name in any case; `warning` is another name of `warn`. -/
def ofName? (text : List Char) : Option LogLevel :=
  let s := Text.trim text
  if Text.sameLetters s "warning".toList then some warn
  else all.find? fun l => Text.sameLetters s l.name.toList

end LogLevel

end RhythmChart
