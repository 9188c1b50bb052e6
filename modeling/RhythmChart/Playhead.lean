import RhythmChart.Live

/-! # The playhead

The playhead moves through the visits of a chart as time passes.

* `Playhead.planUntil` plans visits ahead of it and stamps their live notes;
* `Playhead.fire` announces the row that is entered and its commands;
* `Playhead.resolve` leaves every row whose end has passed;
* when the last visit is left the playhead halts, but time goes on. -/

namespace RhythmChart

/-- Something that happens as the playhead moves. -/
inductive Event where
  | entered (row : Int) (visit : Nat) (time : Float)
  | command (row : Int) (visit : Nat) (command : Command) (time : Float)
  | moved (navigation : Navigation)
  | halted (row : Int) (time : Float)

/-- Where the playhead stopped; a chart without rows has no row to stop at. -/
structure Halt where
  row : Option Int
  position : Float

/-- The playhead.  `visits` holds all planned visits, of which the first `left` are left; the next
one is current.  `fired` is the visit whose entry was announced last. -/
structure Playhead where
  planner : Planner
  visits : Array Visit
  left : Nat
  live : Array LiveNote
  fired : Option Nat
  time : Float
  halt : Option Halt

namespace Playhead

/-- The most visits that are planned but not left. -/
def maxAhead : Nat := 4096

/-- The most rows that are left in one go. -/
def maxEnds : Nat := 100000

/-- The speed in grid units per second. -/
def speed (h : Playhead) : Float := h.planner.speed

/-- Whether there is a row to play. -/
def isActive (h : Playhead) : Bool := h.halt.isNone

/-- The visit that the playhead is in. -/
def current? (h : Playhead) : Option Visit := h.visits[h.left]?

/-- How many visits are planned but not left. -/
def ahead (h : Playhead) : Nat := h.visits.size - h.left

/-- The row that the playhead is in, or stopped at. -/
def row? (h : Playhead) : Option Int :=
  match h.halt with
  | some stop => stop.row
  | none => h.current?.map Visit.row

/-- The position in the current row; negative before the first row begins. -/
def position (h : Playhead) : Float :=
  match h.halt, h.current? with
  | some stop, _ => stop.position
  | none, some v => (h.time - v.start) * h.speed
  | none, none => 0.0

/-- Plans one more visit. -/
def planVisit (h : Playhead) (v : Visit) (planner : Planner) (c : Chart) : Playhead :=
  { h with
    planner
    visits := h.visits.push v
    live := h.live ++ v.liveNotes c planner.speed }

/-- Plans at most the given number of visits, as long as they start by `limit`. -/
def planSome (c : Chart) (limit : Float) : Nat → Playhead → Playhead
  | 0, h => h
  | steps + 1, h =>
    if h.planner.isFinished then h
    else if h.planner.horizon ≤ limit then
      match h.planner.next c with
      | (some v, planner) => planSome c limit steps (h.planVisit v planner c)
      | (none, planner) => { h with planner }
    else h

/-- Plans visits until one starts after `limit`, or the bound on visits ahead is reached. -/
def planUntil (h : Playhead) (c : Chart) (limit : Float) : Playhead :=
  planSome c limit (maxAhead - h.ahead) h

/-- The playhead at time `0`, with the first row beginning at `start`. -/
def ofChart (c : Chart) (speed start : Float) : Playhead :=
  let h : Playhead :=
    { planner := .ofChart c speed start, visits := #[], left := 0, live := #[], fired := none,
      time := 0.0, halt := none }
  let h := h.planUntil c start
  if h.visits.isEmpty then { h with halt := some ⟨none, 0.0⟩ } else h

/-- The live notes of a visit. -/
def notesOfVisit (h : Playhead) (seq : Nat) : Array LiveNote := LiveNote.ofVisit h.live seq

/-- The playhead with other live notes. -/
def withLive (h : Playhead) (live : Array LiveNote) : Playhead := { h with live }

/-- The events of entering a row: the entry, then the commands of its notes in order. -/
def entryEvents (v : Visit) (c : Chart) (time : Float) : List Event :=
  .entered v.row v.seq time ::
    (c.notesAt v.row).flatMap fun n =>
      n.2.commands.map fun command => .command v.row v.seq command time

/-- Announces the current row, once, when its start is reached. -/
def fire (h : Playhead) (c : Chart) (events : Array Event) : Playhead × Array Event :=
  match h.halt, h.current? with
  | none, some v =>
    if h.fired = some v.seq ∨ h.time < v.start then (h, events)
    else ({ h with fired := some v.seq }, events ++ entryEvents v c h.time)
  | _, _ => (h, events)

/-- Time goes on by `dt`, if that is finite and positive. -/
def advance (h : Playhead) (dt : Float) : Playhead :=
  if dt.isFinite ∧ 0.0 < dt then { h with time := h.time + dt } else h

/-- Leaves the visit `v`.  When no visit is planned after it, more are planned; when there are none,
the playhead halts. -/
def leave (h : Playhead) (v : Visit) (c : Chart) (events : Array Event) :
    Playhead × Array Event :=
  let h := { h with left := h.left + 1 }
  let events := events.push (.moved v.exit)
  let h := if v.exit.target.isSome ∧ h.ahead = 0 then h.planUntil c h.time else h
  if h.ahead = 0 then
    ({ h with halt := some ⟨some v.row, v.duration * h.speed⟩ }, events.push (.halted v.row h.time))
  else (h, events)

/-- Leaves at most the given number of rows whose end has passed. -/
def resolveSome (c : Chart) : Nat → Playhead → Array Event → Playhead × Array Event
  | 0, h, events => (h, events)
  | ends + 1, h, events =>
    match h.halt, h.current? with
    | none, some v =>
      if h.time ≤ v.finish then (h, events)
      else
        let (h, events) := h.fire c events
        let (h, events) := h.leave v c events
        resolveSome c ends h events
    | _, _ => (h, events)

/-- Leaves every row whose end has passed, and announces the row that is reached. -/
def resolve (h : Playhead) (c : Chart) (events : Array Event) : Playhead × Array Event :=
  let (h, events) := resolveSome c maxEnds h events
  h.fire c events

end Playhead

end RhythmChart
