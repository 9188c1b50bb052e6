import RhythmChart.Key
import RhythmChart.Notice

/-! # Key bindings

The keys that are judged, as an ordered list without repetition when it was read from text.

* `Keymap.read` reads a comma-separated list of key names and says which it did not know;
* `Keymap.text` writes the list back. -/

namespace RhythmChart

/-- The keys whose presses and releases are judged, in binding order. -/
structure Keymap where
  judge : List Key
  deriving DecidableEq, Repr

namespace Keymap

/-- The bindings that hold unless others are given. -/
def standard : Keymap := ⟨[⟨'d'⟩, ⟨'f'⟩, ⟨'j'⟩, ⟨'k'⟩]⟩

/-- Whether presses of a key are judged. -/
def isJudge (m : Keymap) (k : Key) : Bool := m.judge.contains k

/-- The names in a comma-separated list, blanks around them and empty ones dropped. -/
def names (text : List Char) : List (List Char) :=
  ((Text.fields ',' text).map Text.trim).filter fun n => !n.isEmpty

/-- Adds a key at the end unless it is there. -/
def addKey (keys : List Key) (k : Key) : List Key :=
  if keys.contains k then keys else keys ++ [k]

/-- The keys of a binding list, each once, in the order of their first names. -/
def keysOf (text : List Char) : List Key :=
  ((names text).filterMap Key.ofName?).foldl addKey []

/-- The bindings that a text lists; `none` if it names no key. -/
def read? (text : List Char) : Option (List Key) :=
  match keysOf text with
  | [] => none
  | k :: keys => some (k :: keys)

/-- One notice for each name in a binding list that is no key. -/
def notices (text : List Char) : List Notice :=
  ((names text).filter fun n => (Key.ofName? n).isNone).map fun n =>
    .warning s!"unknown key binding '{String.ofList n}' ignored"

/-- The bindings as a comma-separated list of key names. -/
def text (m : Keymap) : List Char := Text.joinWith [','] (m.judge.map Key.name)

end Keymap

end RhythmChart
