/-! # Blanks

The characters with the Unicode property White_Space, and what is cut by them.  A text is a
list of characters.

* `isBlank` decides the property from its table of ranges;
* `trim` drops the blanks at both ends;
* `words` gives the maximal blank-free pieces, in order. -/

namespace RhythmChart.Text

/-- Code point ranges of the Unicode property White_Space, both ends included. -/
def blankRanges : List (Nat × Nat) :=
  [(0x09, 0x0D), (0x20, 0x20), (0x85, 0x85), (0xA0, 0xA0), (0x1680, 0x1680), (0x2000, 0x200A),
    (0x2028, 0x2029), (0x202F, 0x202F), (0x205F, 0x205F), (0x3000, 0x3000)]

/-- Whether a character has the property White_Space. -/
def isBlank (c : Char) : Bool :=
  blankRanges.any fun r => decide (r.1 ≤ c.toNat ∧ c.toNat ≤ r.2)

/-- The text without its leading blanks. -/
def trimStart (s : List Char) : List Char := s.dropWhile isBlank

/-- The text without its trailing blanks. -/
def trimEnd (s : List Char) : List Char := (s.reverse.dropWhile isBlank).reverse

/-- The text without the blanks at its ends. -/
def trim (s : List Char) : List Char := trimEnd (trimStart s)

/-- The text without any of its blanks. -/
def unblanked (s : List Char) : List Char := s.filter fun c => !isBlank c

/-- One step of `pieces`, from the right: a separator opens a new piece. -/
def pieceStep (sep : Char → Bool) (c : Char) : List (List Char) → List (List Char)
  | [] => if sep c then [[], []] else [[c]]
  | piece :: rest => if sep c then [] :: piece :: rest else (c :: piece) :: rest

/-- The pieces between separators, in order; `n` separators make `n + 1` pieces. -/
def pieces (sep : Char → Bool) (s : List Char) : List (List Char) :=
  s.foldr (pieceStep sep) [[]]

/-- The maximal blank-free pieces of a text. -/
def words (s : List Char) : List (List Char) :=
  (pieces isBlank s).filter fun w => !w.isEmpty

/-- Every blank of core's character class is one here. -/
theorem isBlank_of_isWhitespace {c : Char} (h : c.isWhitespace = true) : isBlank c = true := by
  simp only [Char.isWhitespace, Bool.or_eq_true, decide_eq_true_eq] at h
  rcases h with ((rfl | rfl) | rfl) | rfl <;> decide

@[simp]
theorem pieces_nil (sep : Char → Bool) : pieces sep [] = [[]] := rfl

theorem pieces_cons (sep : Char → Bool) (c : Char) (s : List Char) :
    pieces sep (c :: s) = pieceStep sep c (pieces sep s) := rfl

/-- There is always a first piece. -/
theorem pieces_ne_nil (sep : Char → Bool) (s : List Char) : pieces sep s ≠ [] := by
  cases s with
  | nil => simp
  | cons c s =>
      rw [pieces_cons]
      cases pieces sep s <;> simp only [pieceStep] <;> split <;> simp

end RhythmChart.Text
