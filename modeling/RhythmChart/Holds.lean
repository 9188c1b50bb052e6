import RhythmChart.Judge

/-! # Holds

A hold is pressed, kept down until near its end, and released.  Between the queue and its grade it
goes through three phases: `idle` until it is pressed, `holding` while its key is down, and `guarded`
for a short time after an early release, in which the same key may come back.

* `Holds.track` registers a queued hold, `Holds.start` begins it;
* `Holds.release`, `Holds.resume` and `Holds.crossTalk` react to keys, `Holds.update` to time;
* a hold that has its grade is dropped. -/

namespace RhythmChart

/-- What a tracked hold is doing.  `entry` is the grade of the press that began it. -/
inductive HoldPhase where
  | idle
  | holding (key : Key) (entry : Grade)
  | guarded (key : Key) (entry : Grade) (released : Float)

namespace HoldPhase

/-- The key that drives the hold. -/
def key? : HoldPhase → Option Key
  | idle => none
  | holding k _ => some k
  | guarded k _ _ => some k

/-- The grade of the press that began the hold. -/
def entry? : HoldPhase → Option Grade
  | idle => none
  | holding _ g => some g
  | guarded _ g _ => some g

/-- When the key was released, while it may come back. -/
def released? : HoldPhase → Option Float
  | guarded _ _ r => some r
  | _ => none

/-- Whether a key drives the hold. -/
def isEngaged (p : HoldPhase) : Bool := p.key?.isSome

end HoldPhase

/-- A tracked hold: its live note, its phase, and when it is due and over. -/
structure Hold where
  live : Nat
  phase : HoldPhase
  trigger : Float
  finish : Float

/-- What a change does to a hold: it goes on, or it gets a grade at a time, or it is dropped because
its live note is judged already. -/
inductive HoldFate where
  | goOn (h : Hold)
  | grade (g : Grade) (time : Float)
  | drop

/-- The tracked holds, in the order in which they were queued. -/
structure Holds where
  windows : Windows
  holds : List Hold

namespace Holds

/-- No hold is tracked. -/
def fresh (windows : Windows) : Holds := ⟨windows, []⟩

/-- The hold of a live note. -/
def find? (t : Holds) (id : Nat) : Option Hold := t.holds.find? fun h => h.live == id

/-- How many holds are driven by a key. -/
def engagedCount (t : Holds) : Nat := t.holds.countP fun h => h.phase.isEngaged

/-- Registers the hold of a live note, unless it is registered. -/
def track (t : Holds) (id : Nat) (live : Array LiveNote) (notes : Array Note) (speed : Float) :
    Holds :=
  match t.find? id, live[id]? with
  | none, some n =>
    let length := (notes[n.note]?.map Note.length).getD 0.0
    { t with holds := t.holds ++ [⟨id, .idle, n.trigger, n.trigger + length / speed⟩] }
  | _, _ => t

/-- Gives a hold its grade.  A miss counts as an error of the key that drove it. -/
def finishHold (h : Hold) (g : Grade) (time : Float) (b : Board) : Board :=
  let b := b.mapScore fun s => s.record g
  let b := match g.isMiss, h.phase.key? with
    | true, some k => b.mapScore fun s => s.markError k time
    | _, _ => b
  match b.live[h.live]? with
  | some n => b.settle h.live n g time
  | none => b

/-- Applies a change to each hold in order. -/
def sweep (fate : Board → Hold → HoldFate) : List Hold → Board → List Hold × Board
  | [], b => ([], b)
  | h :: rest, b =>
    match fate b h with
    | .goOn h =>
      let (kept, b) := sweep fate rest b
      (h :: kept, b)
    | .grade g time => sweep fate rest (finishHold h g time b)
    | .drop => sweep fate rest b

/-- Applies a change to the tracked holds. -/
def change (t : Holds) (fate : Board → Hold → HoldFate) (b : Board) : Holds × Board :=
  let (holds, b) := sweep fate t.holds b
  ({ t with holds }, b)

/-- What time does to a hold.  A hold whose key is down is over at its end.  A released one is over
at its end if that comes before the grace period is over, and is missed when that period is over. -/
def timeFate (w : Windows) (now : Float) (b : Board) (h : Hold) : HoldFate :=
  match h.phase with
  | .idle => if (b.live[h.live]?).any LiveNote.isJudged then .drop else .goOn h
  | .holding _ _ => if h.finish ≤ now then .grade .critical h.finish else .goOn h
  | .guarded _ _ released =>
    let expires := released + w.holdGrace
    if h.finish ≤ expires ∧ h.finish ≤ now then .grade .critical h.finish
    else if w.holdGrace < now - released then .grade .tooLate expires
    else .goOn h

/-- Time has come to `now`. -/
def update (t : Holds) (now : Float) (b : Board) : Holds × Board :=
  t.change (timeFate t.windows now) b

/-- Whether a hold waits for a key that comes back at `time`. -/
def canResume (w : Windows) (key : Key) (time : Float) (h : Hold) : Bool :=
  match h.phase with
  | .guarded k _ released => k == key && decide (time - released ≤ w.holdGrace)
  | _ => false

/-- The phase of a hold whose key comes back. -/
def resumed (h : Hold) : Hold :=
  match h.phase with
  | .guarded k g _ => { h with phase := .holding k g }
  | _ => h

/-- Applies a function to the first element that satisfies a test. -/
def modifyFirst (test : Hold → Bool) (f : Hold → Hold) : List Hold → List Hold
  | [] => []
  | h :: rest => if test h then f h :: rest else h :: modifyFirst test f rest

/-- The key of a released hold is pressed again.  Also tells whether there was such a hold. -/
def resume (t : Holds) (key : Key) (time : Float) : Bool × Holds :=
  let test := canResume t.windows key time
  (t.holds.any test, { t with holds := modifyFirst test resumed t.holds })

/-- What a press of `key` does to a released hold: another key than its own makes it a miss. -/
def crossFate (key : Key) (time : Float) (_ : Board) (h : Hold) : HoldFate :=
  match h.phase with
  | .guarded k _ _ => if k = key then .goOn h else .grade .tooLate time
  | _ => .goOn h

/-- A judged key is pressed while holds wait for theirs. -/
def crossTalk (t : Holds) (key : Key) (time : Float) (b : Board) : Holds × Board :=
  t.change (crossFate key time) b

/-- What a release of `key` does to a hold: near its end the hold is complete, before that it waits
for the key to come back. -/
def releaseFate (w : Windows) (key : Key) (time : Float) (_ : Board) (h : Hold) : HoldFate :=
  match h.phase with
  | .holding k g =>
    if k = key then
      if h.finish - w.holdEarly ≤ time then .grade .critical time
      else .goOn { h with phase := .guarded k g time }
    else .goOn h
  | _ => .goOn h

/-- A key is released. -/
def release (t : Holds) (key : Key) (time : Float) (b : Board) : Holds × Board :=
  t.change (releaseFate t.windows key time) b

/-- Whether a key drives a hold. -/
def isBusy (t : Holds) (key : Key) : Bool := t.holds.any fun h => h.phase.key? == some key

/-- Begins the hold of a live note.  Also tells whether it began: the key must be free, the hold idle,
and the press inside its exit window. -/
def start (t : Holds) (id : Nat) (key : Key) (time : Float) (notes : Array Note) (speed : Float)
    (b : Board) : Bool × Holds × Board :=
  if t.isBusy key then (false, t, b)
  else
    let t := t.track id b.live notes speed
    match t.find? id with
    | none => (false, t, b)
    | some h =>
      if h.phase.isEngaged ∨ t.windows.exit < (h.trigger - time).abs then (false, t, b)
      else
        let grade := t.windows.grade (h.trigger - time)
        let begun := modifyFirst (fun h => h.live == id)
          (fun h => { h with phase := .holding key grade }) t.holds
        (true, { t with holds := begun }, b.mapScore fun s => s.applyGrade grade)

end Holds

end RhythmChart
