import RhythmChart.Autoplay
import RhythmChart.Report
import RhythmChart.Source

/-! # The command line

`<chart> [--replay <file> | --autoplay] [--config <file>] [--notes]` plays a chart to its end and
reports the result.

* `Request.ofArguments` reads the arguments; a wrong use is told apart from a request for help;
* `Invocation.run` plays the chart of given files and gives the exit code and the output. -/

namespace RhythmChart

/-- What is asked for on the command line. -/
structure Invocation where
  chart : String
  replay : Option String
  autoplay : Bool
  config : String
  notes : Bool
  deriving DecidableEq, Repr

/-- The arguments ask to play a chart, or only for information. -/
inductive Request where
  | play (invocation : Invocation)
  | help
  | version
  deriving DecidableEq, Repr

/-- Why arguments are refused. -/
inductive UsageError where
  | missingChart
  | missingValue (option : String)
  | unexpectedValue (option : String)
  | unexpected (argument : String)
  | repeated (option : String)
  | conflict
  deriving DecidableEq, Repr

/-- The wording of a refusal. -/
def UsageError.message : UsageError → String
  | .missingChart => "a chart file is required"
  | .missingValue option => s!"a value is required for '{option}'"
  | .unexpectedValue option => s!"'{option}' takes no value"
  | .unexpected argument => s!"unexpected argument '{argument}'"
  | .repeated option => s!"'{option}' cannot be used more than once"
  | .conflict => "'--replay' cannot be used with '--autoplay'"

/-- How the program is used. -/
def usage : String :=
  "Usage: [OPTIONS] <CHART>\n\n" ++
  "  --replay <FILE>  replay with '<time> <key> down|up' lines\n" ++
  "  --autoplay       hit every note dead on\n" ++
  "  --config <FILE>  settings, created with defaults when missing\n" ++
  "  --notes          include the result of every note\n" ++
  "  -h, --help       print help\n" ++
  "  -V, --version    print version"

/-- The version of the program. -/
def version : String := "0.1.0"

/-- The settings file that is used unless another is given. -/
def defaultConfigFile : String := "rhythmchart.ini"

/-- An option that takes a value. -/
inductive FileOption where
  | replay
  | config
  deriving DecidableEq, Repr

/-- How an option is written. -/
def FileOption.name : FileOption → String
  | .replay => "--replay"
  | .config => "--config"

/-- The arguments read so far.  `awaiting` is an option whose value comes next, `plain` says that only
files follow, and `information` holds a request that ends reading. -/
structure Arguments where
  chart : Option String
  replay : Option String
  config : Option String
  autoplay : Bool
  notes : Bool
  awaiting : Option FileOption
  plain : Bool
  information : Option Request

namespace Arguments

/-- Nothing is read. -/
def none : Arguments := ⟨.none, .none, .none, false, false, .none, false, .none⟩

/-- Takes the file of the chart.  There is only one, and its name is not empty. -/
def takeChart (a : Arguments) (file : String) : Except UsageError Arguments :=
  if file.isEmpty then .error (.missingValue "<CHART>")
  else if a.chart.isSome then .error (.unexpected file)
  else .ok { a with chart := some file }

/-- Takes the value of an option.  An option is given at most once, and its value is not empty. -/
def takeFile (a : Arguments) (option : FileOption) (file : String) :
    Except UsageError Arguments :=
  let a := { a with awaiting := .none }
  if file.isEmpty then .error (.missingValue option.name)
  else match option with
    | .replay =>
      if a.replay.isSome then .error (.repeated option.name) else .ok { a with replay := some file }
    | .config =>
      if a.config.isSome then .error (.repeated option.name) else .ok { a with config := some file }

/-- Takes an option by its name and the value written with it. -/
def takeOption (a : Arguments) (name : String) (value? : Option String) :
    Except UsageError Arguments :=
  let fileOption (option : FileOption) : Except UsageError Arguments :=
    match value? with
    | some file => a.takeFile option file
    | .none => .ok { a with awaiting := some option }
  let flag (isSet : Bool) (set : Arguments) : Except UsageError Arguments :=
    if value?.isSome then .error (.unexpectedValue name)
    else if isSet then .error (.repeated name)
    else .ok set
  match name with
  | "--replay" => fileOption .replay
  | "--config" => fileOption .config
  | "--autoplay" => flag a.autoplay { a with autoplay := true }
  | "--notes" => flag a.notes { a with notes := true }
  | "--help" => flag false { a with information := some .help }
  | "--version" => flag false { a with information := some .version }
  | _ => .error (.unexpected name)

/-- Takes an argument that starts with one dash: the first letter decides. -/
def takeShort (a : Arguments) (argument : String) : Except UsageError Arguments :=
  match argument.toList with
  | _ :: 'h' :: _ => .ok { a with information := some .help }
  | _ :: 'V' :: _ => .ok { a with information := some .version }
  | _ => .error (.unexpected argument)

/-- Whether an argument is an option: it starts with a dash and is more than that. -/
def isOption (argument : String) : Bool :=
  match argument.toList with
  | '-' :: _ :: _ => true
  | _ => false

/-- Takes an option with what is written after its first equals sign. -/
def takeLong (a : Arguments) (argument : String) : Except UsageError Arguments :=
  match Text.cutAt? '=' argument.toList with
  | some (name, value) => a.takeOption (String.ofList name) (some (String.ofList value))
  | .none => a.takeOption argument .none

/-- Takes one argument.  Nothing is read after a request for information. -/
def take (a : Arguments) (argument : String) : Except UsageError Arguments :=
  if a.information.isSome then .ok a
  else if a.plain then a.takeChart argument
  else match a.awaiting with
    | some option =>
      if isOption argument then .error (.missingValue option.name) else a.takeFile option argument
    | .none =>
      if argument = "--" then .ok { a with plain := true }
      else match Text.afterPrefix? "--".toList argument.toList, isOption argument with
        | some _, _ => a.takeLong argument
        | .none, true => a.takeShort argument
        | .none, false => a.takeChart argument

/-- The request of all arguments. -/
def request (a : Arguments) : Except UsageError Request :=
  match a.information, a.awaiting, a.chart with
  | some information, _, _ => .ok information
  | .none, some option, _ => .error (.missingValue option.name)
  | .none, .none, .none => .error .missingChart
  | .none, .none, some chart =>
    if a.replay.isSome ∧ a.autoplay then .error .conflict
    else .ok (.play
      { chart, replay := a.replay, autoplay := a.autoplay, notes := a.notes
        config := a.config.getD defaultConfigFile })

end Arguments

/-- The request of a command line. -/
def Request.ofArguments (arguments : List String) : Except UsageError Request :=
  match arguments.foldlM Arguments.take Arguments.none with
  | .ok a => a.request
  | .error e => .error e

/-- The end of a run: the exit code, and the output if there is any. -/
structure Outcome where
  exitCode : Nat
  output : Option Document

namespace Invocation

/-- The playback time after which a run is stopped, in seconds. -/
def maxSeconds : Float := 3600.0

/-- Plays at most the given number of ticks of `dt` seconds, until the playback is finished or has
taken too long.  Judgments and events are not kept. -/
def playOut (dt : Float) : Nat → Playback → Playback
  | 0, p => p
  | steps + 1, p =>
    let p := (p.tick dt).takeJudgments.2.takeEvents.2
    if p.isFinished ∨ maxSeconds < p.playhead.time then p else playOut dt steps p

/-- The number of ticks that are played at most: enough to pass the longest playback time. -/
def maxTicks (tickRate : Nat) : Nat := 3601 * tickRate + 1

/-- Plays a chart with the given edges to its end. -/
def playChart (c : Chart) (config : Config) (edges : List Edge) : Playback :=
  let p := edges.foldl Playback.queueEdge (.ofChart c config.settings)
  playOut (1.0 / config.tickRate.toFloat) (maxTicks config.tickRate) p

/-- The edges that an invocation asks for. -/
def edges (i : Invocation) (c : Chart) (config : Config) (replay : Source) :
    Except SourceError (List Edge) :=
  if i.replay.isSome then replay.replay
  else if i.autoplay then
    let settings := config.settings.forChart c
    .ok (Autoplay.ofChart c settings.speed settings.start settings.keymap).ordered
  else .ok []

/-- Plays the chart of the given files.  Files that cannot be read end the run with code one, except
for the settings. -/
def run (i : Invocation) (configFile chartFile replayFile : Source) : Outcome :=
  let config := configFile.config
  match chartFile.chart with
  | .error _ => ⟨1, none⟩
  | .ok c =>
    match i.edges c config replayFile with
    | .error _ => ⟨1, none⟩
    | .ok edges => ⟨0, some ((playChart c config edges).document i.notes)⟩

end Invocation

/-- The outcome of a command line, given what its files hold. -/
def Outcome.ofArguments (arguments : List String) (files : String → Source) : Outcome :=
  match Request.ofArguments arguments with
  | .error _ => ⟨2, none⟩
  | .ok .help => ⟨0, none⟩
  | .ok .version => ⟨0, none⟩
  | .ok (.play i) => i.run (files i.config) (files i.chart) (i.replay.bind files)

end RhythmChart
