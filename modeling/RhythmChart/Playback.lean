import RhythmChart.Holds
import RhythmChart.Keyboard
import RhythmChart.Playhead
import RhythmChart.Settings

/-! # Playback

A chart is played tick by tick.  Key edges wait, ordered by time, until a tick reaches them; then the
queue and the holds judge them, and the playhead moves on.

* `Stage` is the part that judges: the queue, the holds, and the board they share;
* `Playback.queueEdge` adds an edge, `Playback.tick` plays one tick;
* `Playback.isFinished` says that the playhead has halted and nothing waits to be judged. -/

namespace RhythmChart

/-! ### Judging -/

/-- What judging works with: the queue, the holds, and the board. -/
structure Stage where
  judge : Judge
  holds : Holds
  board : Board

/-- What judging looks at: the notes of the chart, the speed, and the current visit. -/
structure Scene where
  notes : Array Note
  speed : Float
  visit : Option Nat

namespace Stage

/-- Whether a live note is a hold. -/
def isHold (notes : Array Note) (live : Array LiveNote) (id : Nat) : Bool :=
  (live[id]?).any fun n => (notes[n.note]?).any fun note => note.noteType == .hold

/-- Brings the queue to time `now` and tracks the holds that entered it. -/
def maintain (s : Stage) (scene : Scene) (now : Float) : Stage :=
  let (judge, board, entered) := s.judge.maintain now scene.notes s.board
  let holds := (entered.filter (isHold scene.notes board.live)).foldl
    (fun (t : Holds) id => t.track id board.live scene.notes scene.speed) s.holds
  ⟨judge, holds, board⟩

/-- Brings the holds to time `now`. -/
def updateHolds (s : Stage) (now : Float) : Stage :=
  let (holds, board) := s.holds.update now s.board
  { s with holds, board }

/-- Brings queue and holds to time `now`. -/
def settleTime (s : Stage) (scene : Scene) (now : Float) : Stage :=
  (s.maintain scene now).updateHolds now

/-- Whether a judgable note of the current visit is near `time`. -/
def isNear (s : Stage) (scene : Scene) (time : Float) : Bool :=
  scene.visit.any fun seq =>
    Judge.isNear s.judge.windows time (LiveNote.ofVisit s.board.live seq) scene.notes

/-- Charges an empty press, unless a note of the current visit is near. -/
def chargeEmpty (s : Stage) (scene : Scene) (key : Key) (time : Float) : Stage :=
  if s.isNear scene time then s
  else
    let cooldown := s.judge.windows.cooldown
    { s with board := s.board.mapScore fun score => score.emptyPress key time cooldown }

/-- A press that resumes no hold: it judges a note, begins a hold, or is empty. -/
def hit (s : Stage) (scene : Scene) (key : Key) (time : Float) : Stage :=
  match s.judge.press time scene.notes s.board with
  | (.judged, judge, board) => { s with judge, board }
  | (.unmatched, judge, board) => chargeEmpty { s with judge, board } scene key time
  | (.hold id, judge, board) =>
    let (started, holds, board) := s.holds.start id key time scene.notes scene.speed board
    if started then ⟨judge.remove id, holds, board⟩
    else chargeEmpty ⟨judge, holds, board⟩ scene key time

/-- A judged key is pressed. -/
def press (s : Stage) (scene : Scene) (key : Key) (time : Float) : Stage :=
  let s := s.settleTime scene time
  let (resumed, holds) := s.holds.resume key time
  let (holds, board) := holds.crossTalk key time s.board
  let s := { s with holds, board }
  if resumed then s else s.hit scene key time

/-- A judged key is released. -/
def release (s : Stage) (key : Key) (time : Float) : Stage :=
  let s := s.updateHolds time
  let (holds, board) := s.holds.release key time s.board
  { s with holds, board }

/-- An accepted edge of a judged key. -/
def edge (s : Stage) (scene : Scene) (e : Edge) : Stage :=
  if e.pressed then s.press scene e.key e.time else s.release e.key e.time

end Stage

/-! ### Playing -/

/-- A chart that is being played.  `edges` holds the queued edges by time, of which the first
`handled` are handled. -/
structure Playback where
  chart : Chart
  keymap : Keymap
  playhead : Playhead
  judge : Judge
  holds : Holds
  score : Score
  judgments : Array Judgment
  keyboard : Keyboard
  edges : Array Edge
  handled : Nat
  events : Array Event
  rowVisits : Nat
  commandsFired : Nat

/-- Whether a playback goes on. -/
inductive Status where
  | playing
  | finished
  deriving DecidableEq, Repr

namespace Playback

/-- How far past the entry window visits are planned, in seconds. -/
def planMargin : Float := 0.5

/-- A playback before its first tick. -/
def ofChart (c : Chart) (settings : Settings) : Playback :=
  let settings := settings.forChart c
  let speed := usableSpeed settings.speed
  let windows := settings.windows.clamped
  let (chart, _) := c.stamped speed settings.start
  { chart
    keymap := settings.keymap
    playhead := .ofChart chart speed settings.start
    judge := .fresh windows
    holds := .fresh windows
    score := .zero
    judgments := #[]
    keyboard := .atRest
    edges := #[]
    handled := 0
    events := #[]
    rowVisits := 0
    commandsFired := 0 }

/-- Whether the playhead has halted and no note waits to be judged. -/
def isFinished (p : Playback) : Bool :=
  !p.playhead.isActive && p.judge.queue.isEmpty && p.holds.engagedCount == 0

/-- Queues an edge after the waiting ones that are not later.  An edge without a finite time is
dropped. -/
def queueEdge (p : Playback) (e : Edge) : Playback :=
  if e.time.isFinite then
    let place := boundary (fun x : Edge => decide (x.time ≤ e.time)) p.edges p.handled p.edges.size
    { p with edges := p.edges.insertIdxIfInBounds place e }
  else p

/-- The edges that wait to be handled, in order. -/
def waiting (p : Playback) : List Edge := p.edges.toList.drop p.handled

/-- Handles the waiting edges that are due at `now`, from place `i` on. -/
def handleEdges (keymap : Keymap) (scene : Scene) (now : Float) (edges : Array Edge) (i : Nat)
    (keyboard : Keyboard) (stage : Stage) : Nat × Keyboard × Stage :=
  if h : i < edges.size then
    let e := edges[i]
    if now < e.time then (i, keyboard, stage)
    else if keyboard.accepts e then
      let stage := if keymap.isJudge e.key then stage.edge scene e else stage
      handleEdges keymap scene now edges (i + 1) (keyboard.apply e) stage
    else handleEdges keymap scene now edges (i + 1) keyboard stage
  else (i, keyboard, stage)
termination_by edges.size - i

/-- The number of rows that events enter. -/
def entries (events : Array Event) : Nat :=
  events.foldl (fun n e => match e with
    | .entered _ _ _ => n + 1
    | _ => n) 0

/-- The number of commands among events. -/
def commands (events : Array Event) : Nat :=
  events.foldl (fun n e => match e with
    | .command _ _ _ _ => n + 1
    | _ => n) 0

/-- Hands the live notes, the score and the judgments over to judging.  What stays behind is empty, so
that there is only one owner. -/
def lend (p : Playback) : Stage × Playback :=
  let live := p.playhead.live
  let judgments := p.judgments
  (⟨p.judge, p.holds, ⟨live, p.score, judgments⟩⟩,
    { p with playhead := p.playhead.withLive #[], judgments := #[] })

/-- Takes back what was handed over. -/
def takeBack (p : Playback) (s : Stage) : Playback :=
  { p with
    judge := s.judge
    holds := s.holds
    score := s.board.score
    judgments := s.board.judgments
    playhead := p.playhead.withLive s.board.live }

/-- The judging half of a tick, at the time of the playhead: edges first, then what time alone does. -/
def judgeTick (p : Playback) : Playback :=
  let now := p.playhead.time
  let scene : Scene := ⟨p.chart.notes, p.playhead.speed, p.playhead.current?.map Visit.seq⟩
  let (stage, p) := p.lend
  let (handled, keyboard, stage) :=
    handleEdges p.keymap scene now p.edges p.handled p.keyboard stage
  { p.takeBack (stage.settleTime scene now) with handled, keyboard }

/-- The moving half of a tick. -/
def moveTick (p : Playback) (dt : Float) : Playback :=
  let (playhead, events) := p.playhead.fire p.chart #[]
  let (playhead, events) := (playhead.advance dt).resolve p.chart events
  { p with
    playhead
    events := p.events ++ events
    rowVisits := p.rowVisits + entries events
    commandsFired := p.commandsFired + commands events }

/-- Plans the visits that may be entered soon. -/
def planAhead (p : Playback) : Playback :=
  let limit := p.playhead.time + p.judge.windows.enter + planMargin
  { p with playhead := p.playhead.planUntil p.chart limit }

/-- Plays `dt` seconds. -/
def tick (p : Playback) (dt : Float) : Playback := (p.planAhead.judgeTick).moveTick dt

/-- Whether the playback is over. -/
def status (p : Playback) : Status := if p.isFinished then .finished else .playing

/-- The judgments since they were last taken. -/
def takeJudgments (p : Playback) : Array Judgment × Playback :=
  (p.judgments, { p with judgments := #[] })

/-- The events since they were last taken. -/
def takeEvents (p : Playback) : Array Event × Playback := (p.events, { p with events := #[] })

/-- Plays ticks of `dt` seconds until the playback is finished, the time has reached `limit`, or the
given number of ticks is played.  Gives the last status and the number of ticks. -/
def run (dt limit : Float) : Nat → Playback → Status → Nat → Playback × Status × Nat
  | 0, p, last, ticks => (p, last, ticks)
  | steps + 1, p, last, ticks =>
    if p.playhead.time < limit then
      let p := p.tick dt
      if p.isFinished then (p, .finished, ticks + 1)
      else run dt limit steps p .playing (ticks + 1)
    else (p, last, ticks)

end Playback

end RhythmChart
