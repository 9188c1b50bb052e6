import RhythmChart.Live

/-! # The judgment queue

Live notes enter a queue when the time comes near them and leave it when they are pressed, or when
their exit window closes.  A press goes to the first note of the queue whose exit window holds it.

* `Judge.maintain` lets notes in and drops the ones that are too late;
* `Judge.press` judges a tap, one layer of a multi note, or names the hold that the press belongs to. -/

namespace RhythmChart

/-- The queue of live notes that wait for a press.  `nextLive` is the first live note not yet
considered; `worst` holds the largest offset so far, with its grade, of each multi note that is partly
judged. -/
structure Judge where
  windows : Windows
  queue : List Nat
  nextLive : Nat
  worst : List (Nat × Float × Grade)

/-- What became of a press. -/
inductive Press where
  | judged
  | hold (id : Nat)
  | unmatched
  deriving DecidableEq, Repr

namespace Judge

/-- The most queued notes that are looked at in one go. -/
def maxScan : Nat := 10000

/-- An empty queue before the first live note. -/
def fresh (windows : Windows) : Judge := ⟨windows, [], 0, []⟩

/-- Takes a live note out of the queue. -/
def remove (j : Judge) (id : Nat) : Judge := { j with queue := j.queue.filter fun q => q != id }

/-- The live notes from index `i` on that the time has come near to: those to be queued, and the first
index after them. -/
def arrivals (enter now : Float) (live : Array LiveNote) (notes : Array Note) (i : Nat)
    (entered : Array Nat) : Array Nat × Nat :=
  if h : i < live.size then
    let n := live[i]
    if enter < n.trigger - now then (entered, i)
    else
      let entered :=
        if Board.isJudgable notes n && !n.isJudged then entered.push i else entered
      arrivals enter now live notes (i + 1) entered
  else (entered, i)
termination_by live.size - i

/-- The queue from the front on, once the notes whose exit window has closed are missed.  At most the
given number of notes is looked at. -/
def expire (windows : Windows) (now : Float) : Nat → List Nat → List (Nat × Float × Grade) →
    Board → List Nat × List (Nat × Float × Grade) × Board
  | _, [], worst, b => ([], worst, b)
  | 0, queue, worst, b => (queue, worst, b)
  | scans + 1, id :: queue, worst, b =>
    match b.live[id]? with
    | none => expire windows now scans queue worst b
    | some n =>
      if n.isJudged then expire windows now scans queue worst b
      else if now - n.trigger ≤ windows.exit then (id :: queue, worst, b)
      else
        let grade := windows.grade (n.trigger - now)
        expire windows now scans queue (Assoc.drop id worst)
          ((b.mapScore fun s => s.record grade).settle id n grade now)

/-- Queues the notes that have come near and misses those whose exit window has closed.  Also gives
the live notes that were queued. -/
def maintain (j : Judge) (now : Float) (notes : Array Note) (b : Board) :
    Judge × Board × List Nat :=
  let (arrived, nextLive) := arrivals j.windows.enter now b.live notes j.nextLive #[]
  let entered := arrived.toList
  let queued := if entered.isEmpty then j.queue else j.queue ++ entered
  let (queue, worst, b) := expire j.windows now maxScan queued j.worst b
  ({ j with queue, worst, nextLive }, b, entered)

/-- Whether a press at `time` can go to a live note. -/
def reaches (windows : Windows) (time : Float) (n : LiveNote) : Bool :=
  !n.isJudged && decide ((n.trigger - time).abs ≤ windows.exit)

/-- The first queued live note that a press at `time` can go to. -/
def target? (j : Judge) (time : Float) (b : Board) : Option Nat :=
  (j.queue.take maxScan).find? fun id => (b.live[id]?).any (reaches j.windows time)

/-- The larger of two offsets, the first one when they are equal. -/
def worse (old new : Float × Grade) : Float × Grade := if old.1 < new.1 then new else old

/-- Judges one layer of a multi note, and the note itself with its worst layer when that was the last
one. -/
def pressLayer (j : Judge) (time : Float) (layers id : Nat) (n : LiveNote) (b : Board) :
    Judge × Board :=
  let grade := j.windows.grade (n.trigger - time)
  let b := { b with live := b.live.modify id fun n => { n with layersDone := n.layersDone + 1 } }
  let b := (b.mapScore fun s => s.applyGrade grade).announce id n grade time (some n.layersDone)
  let layer := ((n.trigger - time).abs, grade)
  let worst := match j.worst.lookup id with
    | some old => worse old layer
    | none => layer
  if layers ≤ n.layersDone + 1 then
    ({ j with queue := j.queue.erase id, worst := Assoc.drop id j.worst },
      (b.mapScore fun s => s.tally worst.2).settle id n worst.2 time)
  else ({ j with worst := Assoc.put id worst j.worst }, b)

/-- Judges a note that takes one press. -/
def pressSingle (j : Judge) (time : Float) (id : Nat) (n : LiveNote) (b : Board) : Judge × Board :=
  let grade := j.windows.grade (n.trigger - time)
  ({ j with queue := j.queue.erase id }, (b.mapScore fun s => s.record grade).settle id n grade time)

/-- A press at `time`.  At most one note, or one layer, is judged. -/
def press (j : Judge) (time : Float) (notes : Array Note) (b : Board) : Press × Judge × Board :=
  match j.target? time b with
  | none => (.unmatched, j, b)
  | some id =>
    match b.live[id]? with
    | none => (.unmatched, j, b)
    | some n =>
      match notes[n.note]? with
      | none => (.unmatched, j, b)
      | some note =>
        if note.noteType = .hold then (.hold id, j, b)
        else if note.noteType = .multi ∧ !note.layers.isEmpty then
          (.judged, j.pressLayer time note.layers.length id n b)
        else (.judged, j.pressSingle time id n b)

/-- Whether a judgable live note among `live` lies within the exit window of `time`, judged or not. -/
def isNear (windows : Windows) (time : Float) (live : Array LiveNote) (notes : Array Note) : Bool :=
  live.any fun n =>
    decide ((n.trigger - time).abs ≤ windows.exit) && Board.isJudgable notes n

end Judge

end RhythmChart
