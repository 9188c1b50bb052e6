import RhythmChart.Cli

/-! # The program

Reads the files that a command line names, plays the chart, and prints the result. -/

namespace RhythmChart

/-- The bytes of a file; `none` if it cannot be read. -/
def readSource (path : String) : IO Source := do
  try
    let bytes ← IO.FS.readBinFile path
    return some bytes
  catch _ => return none

/-- The settings file of a run.  A missing one is written with the defaults. -/
def readSettings (path : String) : IO Source := do
  let source ← readSource path
  if source.isNone then
    try
      IO.FS.writeFile path (String.ofList Config.standard.text)
    catch e => IO.eprintln s!"settings are not written: {e}"
  return source

/-- Reports a file that has no text. -/
def reportSource (path : String) (source : Source) : IO Unit := do
  match source.text with
  | .error e => IO.eprintln s!"{path}: {e.message}"
  | .ok _ => return ()

/-- Plays the chart that an invocation names. -/
def play (i : Invocation) : IO UInt32 := do
  let config ← readSettings i.config
  let chart ← readSource i.chart
  reportSource i.chart chart
  let replay ← match i.replay with
    | some path => do
      let source ← readSource path
      reportSource path source
      pure source
    | none => pure none
  let outcome := i.run config chart replay
  if let some document := outcome.output then
    IO.println document.render
  return UInt32.ofNat outcome.exitCode

end RhythmChart

open RhythmChart in
/-- Runs the program with the given arguments. -/
def main (arguments : List String) : IO UInt32 := do
  match Request.ofArguments arguments with
  | .error e =>
    IO.eprintln e.message
    return 2
  | .ok .help =>
    IO.println usage
    return 0
  | .ok .version =>
    IO.println version
    return 0
  | .ok (.play i) => play i
