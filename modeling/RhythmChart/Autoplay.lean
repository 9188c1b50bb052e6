import RhythmChart.Keyboard
import RhythmChart.Keymap
import RhythmChart.Schedule

/-! # Autoplay

The edges that hit every judgable note of a chart dead on.

* `Note.presses` gives the presses that a note needs, as pairs of times;
* `Rotation` hands out keys in turn, skipping those that are still down;
* `Autoplay.ofChart` follows the whole traversal.  At equal times releases come before presses, so
  that a key can be used again at once. -/

namespace RhythmChart

/-- How long the key of a note other than a hold is kept down, in seconds. -/
def tapSeconds : Float := 0.03

/-- The time between the presses of the layers of a multi note, in seconds. -/
def layerSeconds : Float := 0.005

/-- The presses that a note needs when it is due at `time`: when the key goes down, and when it comes
up. -/
def Note.presses (n : Note) (speed time : Float) : List (Float × Float) :=
  if n.noteType = .hold then [(time, time + n.length / speed)]
  else if n.noteType = .multi ∧ !n.layers.isEmpty then
    (List.range n.layers.length).map fun i =>
      let down := time + layerSeconds * i.toFloat
      (down, down + tapSeconds)
  else if n.noteType.isJudgable then [(time, time + tapSeconds)]
  else []

/-- Keys with the time until which each is down, and the place of the key whose turn it is. -/
structure Rotation where
  keys : Array (Key × Float)
  turn : Nat

namespace Rotation

/-- All keys are up. -/
def ofKeys (keys : List Key) : Rotation :=
  ⟨(keys.map fun k => (k, -Number.infinity)).toArray, 0⟩

/-- The place of the first key that is up at `time`, from the key whose turn it is. -/
def free? (r : Rotation) (time : Float) : Option Nat :=
  ((List.range r.keys.size).map fun i => (r.turn + i) % r.keys.size).find? fun i =>
    (r.keys[i]?).any fun k => decide (k.2 ≤ time)

/-- Takes a key that is up at `down` and keeps it down until `up`. -/
def take? (r : Rotation) (down up : Float) : Option (Key × Rotation) :=
  (r.free? down).bind fun i =>
    (r.keys[i]?).map fun k =>
      (k.1, ⟨r.keys.modify i fun k => (k.1, up), (i + 1) % r.keys.size⟩)

end Rotation

/-- A script: the edges in the order in which they were found, and how many presses found no key. -/
structure Autoplay where
  edges : Array Edge
  skipped : Nat
  rotation : Rotation

namespace Autoplay

/-- Adds a press. -/
def press (a : Autoplay) (times : Float × Float) : Autoplay :=
  match a.rotation.take? times.1 times.2 with
  | some (k, rotation) =>
    { a with rotation, edges := (a.edges.push (.down k times.1)).push (.up k times.2) }
  | none => { a with skipped := a.skipped + 1 }

/-- Adds the presses of a visit. -/
def visit (c : Chart) (speed : Float) (a : Autoplay) (v : Visit) : Autoplay :=
  (c.notesAt v.row).foldl
    (fun a n => (n.2.presses speed (v.start + n.2.position / speed)).foldl press a) a

/-- The script of a chart, before it is ordered. -/
def ofChart (c : Chart) (speed start : Float) (keymap : Keymap) : Autoplay :=
  let speed := usableSpeed speed
  (Plan.ofChart c speed start).visits.foldl (visit c speed) ⟨#[], 0, .ofKeys keymap.judge⟩

/-- Whether an edge stands before another one or level with it: by time, then releases first. -/
def edgeLe (a b : Edge) : Bool :=
  decide (Number.orderKey a.time < Number.orderKey b.time ∨
    Number.orderKey a.time = Number.orderKey b.time ∧ (a.pressed = true → b.pressed = true))

/-- The edges of the script in playing order. -/
def ordered (a : Autoplay) : List Edge := a.edges.toList.mergeSort edgeLe

/-- The notice that presses were left out. -/
def notices (a : Autoplay) : List Notice :=
  if 0 < a.skipped then [.warning s!"autoplay ran out of free keys for {a.skipped} presses"] else []

end Autoplay

end RhythmChart
