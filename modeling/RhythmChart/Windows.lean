import RhythmChart.Grade
import RhythmChart.Number.Binary64

/-! # Timing windows

How far from its time a note may be hit, in seconds.

* `Windows.clamped` puts the windows into order, `fixed ≤ patched ≤ exit ≤ enter`;
* `Windows.grade` grades a signed offset; positive is early. -/

namespace RhythmChart

/-- The windows around a note, the tolerances of holds, and the least time between two errors of one
key, in seconds. -/
structure Windows where
  enter : Float
  exit : Float
  patched : Float
  fixed : Float
  holdGrace : Float
  holdEarly : Float
  cooldown : Float

namespace Windows

/-- The windows that are used unless others are given. -/
def standard : Windows := ⟨0.16, 0.10, 0.06, 0.03, 0.10, 0.10, 0.20⟩

/-- The windows with each at least as wide as the next smaller one, and nothing negative. -/
def clamped (w : Windows) : Windows :=
  let fixed := Number.raise 0.0 w.fixed
  let patched := Number.raise fixed w.patched
  let exit := Number.raise patched w.exit
  let enter := Number.raise exit w.enter
  { enter, exit, patched, fixed
    holdGrace := Number.raise 0.0 w.holdGrace
    holdEarly := Number.raise 0.0 w.holdEarly
    cooldown := Number.raise 0.0 w.cooldown }

/-- The four windows around a note in milliseconds, from the narrowest to the widest. -/
def milliseconds (w : Windows) : List Float :=
  [w.fixed * 1000.0, w.patched * 1000.0, w.exit * 1000.0, w.enter * 1000.0]

/-- The grade of an offset, the time of the note less the time of the input.  Outside the exit window
it is a miss. -/
def grade (w : Windows) (offset : Float) : Grade :=
  let early : Bool := 0.0 < offset
  if offset.abs ≤ w.fixed then .critical
  else if offset.abs ≤ w.patched then (if early then .patchedFast else .patchedLate)
  else if offset.abs ≤ w.exit then (if early then .fast else .late)
  else if early then .tooFast
  else .tooLate

end Windows

end RhythmChart
