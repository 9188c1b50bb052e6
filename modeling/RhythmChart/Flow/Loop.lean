import RhythmChart.Flow.Construct
import RhythmChart.Number.Integer

/-! # Loops

A loop plays its body several times.  Its codes are pass counts: a loop inside another loop uses one
code for each pass of that loop, an outermost loop plays the sum of its codes.

* `Loop.encounter` sets the passes when the anchor is visited;
* `Loop.enterBody` and `Loop.finishPass` use them up;
* `Loop.finishVisit` and `Loop.advance` end the use of a code; a loop without codes left is
  exhausted and never entered again. -/

namespace RhythmChart

/-- What a loop is doing. -/
inductive LoopVisit where
  /-- The anchor was not seen since the last code advance. -/
  | idle
  | running
  /-- The passes of the current code are used up. -/
  | finished
  deriving DecidableEq, Repr

/-- A loop and its progress: `pointer` is the place of the current code, `runs` counts the passes
that were completed. -/
structure Loop extends Construct where
  codes : List Nat
  pointer : Nat
  passesLeft : Nat
  visit : LoopVisit
  exhausted : Bool
  runs : Nat
  deriving DecidableEq, Repr

namespace Loop

/-- The sum of two counts, cut to 32 bits. -/
def addCounts (a b : Nat) : Nat := min (a + b) Number.maxCount

/-- A loop that has not been visited. -/
def fresh (site : Construct) (codes : List Nat) : Loop :=
  { site with
    codes, pointer := 0, passesLeft := 0, visit := .idle, runs := 0
    exhausted := site.body.isNone || codes.isEmpty }

/-- The code under the pointer. -/
def currentCode? (l : Loop) : Option Nat := l.codes[l.pointer]?

/-- The passes that a visit of the anchor grants. -/
def granted (l : Loop) : Nat :=
  if l.parent.isSome then l.currentCode?.getD 0
  else (l.codes.drop l.pointer).foldl addCounts 0

/-- The anchor is visited. -/
def encounter (l : Loop) : Loop :=
  if l.exhausted then l else { l with passesLeft := l.granted, visit := .running }

/-- Whether navigation has to skip the body. -/
def blocksEntry (l : Loop) : Bool :=
  l.exhausted || l.visit != .running || l.passesLeft == 0

/-- The body is entered from outside. -/
def enterBody (l : Loop) : Loop := { l with passesLeft := l.passesLeft - 1 }

/-- The visit of a running loop ends.  An outermost loop and a loop on its last code are exhausted by
that. -/
def finishVisit (l : Loop) : Loop :=
  if l.visit = .running then
    if l.parent.isNone || l.codes.length ≤ l.pointer + 1 then
      { l with visit := .finished, pointer := l.codes.length, exhausted := true }
    else { l with visit := .finished }
  else l

/-- Whether the body is played again when a pass ends. -/
def repeats (l : Loop) : Bool := decide (0 < l.passesLeft)

/-- A pass ends: the next one begins if there is one left, else the visit ends. -/
def finishPass (l : Loop) : Loop :=
  let l := { l with runs := addCounts l.runs 1 }
  if l.repeats then { l with passesLeft := l.passesLeft - 1 } else l.finishVisit

/-- The loop around starts another pass: the next code becomes current. -/
def advance (l : Loop) : Loop :=
  if l.exhausted then l
  else
    { l with
      pointer := l.pointer + 1, passesLeft := 0, visit := .idle
      exhausted := decide (l.codes.length ≤ l.pointer + 1) }

end Loop

/-- The innermost loop whose indent is below `indent` and whose body holds row index `i`. -/
def enclosing? (loops : List Loop) (i indent : Nat) : Option Nat :=
  (innermost? Loop.toConstruct (fun l => decide (l.indent < indent) && l.covers i) loops).map
    Prod.fst

/-- The loops whose body holds `start` but not `landing`, innermost first.  No landing means that
navigation runs off the end. -/
def exitedBy (loops : List Loop) (start : Nat) (landing : Option Nat) : List Nat :=
  innermostFirst Loop.toConstruct
    (fun l => l.covers start && landing.all fun t => !l.covers t) loops

/-- The loops whose body ends at row index `i`, innermost first. -/
def endingAt (loops : List Loop) (i : Nat) : List Nat :=
  innermostFirst Loop.toConstruct (fun l => l.endsAt i) loops

end RhythmChart
