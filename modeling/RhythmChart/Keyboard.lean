import RhythmChart.Key

/-! # Key transitions

An edge is a press or a release of a key at a time.  `Keyboard` knows which keys are down and
accepts only the edges that change that, so that key repeat never reaches the judgment. -/

namespace RhythmChart

/-- A press or a release of a key, at a time in seconds of playback. -/
structure Edge where
  key : Key
  pressed : Bool
  time : Float

/-- A press. -/
def Edge.down (key : Key) (time : Float) : Edge := ⟨key, true, time⟩

/-- A release. -/
def Edge.up (key : Key) (time : Float) : Edge := ⟨key, false, time⟩

/-- The keys that are down, each once. -/
structure Keyboard where
  held : List Key
  deriving Repr

namespace Keyboard

/-- No key is down. -/
def atRest : Keyboard := ⟨[]⟩

/-- Whether a key is down. -/
def isDown (b : Keyboard) (k : Key) : Bool := b.held.contains k

/-- Whether an edge changes the state of its key. -/
def accepts (b : Keyboard) (e : Edge) : Bool := b.isDown e.key != e.pressed

/-- The keyboard after an edge.  A press of a key that is down and a release of one that is up
change nothing. -/
def apply (b : Keyboard) (e : Edge) : Keyboard :=
  if b.accepts e then
    if e.pressed then ⟨e.key :: b.held⟩ else ⟨b.held.erase e.key⟩
  else b

/-- How many keys are down. -/
def heldCount (b : Keyboard) : Nat := b.held.length

end Keyboard

end RhythmChart
