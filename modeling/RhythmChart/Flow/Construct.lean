import RhythmChart.Flow.Body

/-! # Constructs

What loops and conditionals have in common: the row they are anchored at, the indent they are
written with, their body, and the loop around them.

* `Construct.atOrInside` compares constructs by indent and then by place, so that of two nested ones
  the inner is the greater;
* `innermost?` finds the greatest among those that satisfy a test, `innermostFirst` orders them;
* `insert?` adds a construct unless its anchor is taken. -/

namespace RhythmChart

/-- A construct at a row.  `index` is the place of the anchor among the rows; without a body the
construct has no effect.  `parent` is the place of the innermost loop around it. -/
structure Construct where
  anchor : Int
  index : Nat
  indent : Nat
  body : Option Body
  parent : Option Nat
  deriving DecidableEq, Repr

namespace Construct

/-- Whether a row index lies in the body. -/
def covers (c : Construct) (i : Nat) : Bool := c.body.any fun b => b.contains i

/-- Whether the body starts at a row index. -/
def startsAt (c : Construct) (i : Nat) : Bool := c.body.any fun b => b.first == i

/-- Whether the body ends at a row index. -/
def endsAt (c : Construct) (i : Nat) : Bool := c.body.any fun b => b.last == i

/-- Whether `d` has at least the indent of `c` and, at the same indent, starts no earlier. -/
def atOrInside (c d : Construct) : Bool :=
  decide (c.indent < d.indent ∨ c.indent = d.indent ∧ c.index ≤ d.index)

end Construct

section Tables

variable {α : Type}

/-- The indices of the elements that satisfy a test, counted from `i`. -/
def indicesFrom (test : α → Bool) : List α → Nat → List Nat
  | [], _ => []
  | x :: xs, i => if test x then i :: indicesFrom test xs (i + 1) else indicesFrom test xs (i + 1)

/-- Continues the search for the innermost construct that satisfies a test, from place `i` on. -/
def innermostFrom (site : α → Construct) (test : α → Bool) :
    List α → Nat → Option (Nat × α) → Option (Nat × α)
  | [], _, best => best
  | x :: xs, i, best =>
    let better := test x && best.all fun b => (site b.2).atOrInside (site x)
    innermostFrom site test xs (i + 1) (if better then some (i, x) else best)

/-- The innermost construct of a table that satisfies a test, with its place.  Of two equally deep
ones the later is taken. -/
def innermost? (site : α → Construct) (test : α → Bool) (table : List α) : Option (Nat × α) :=
  innermostFrom site test table 0 none

/-- The places of the constructs of a table that satisfy a test, innermost first. -/
def innermostFirst (site : α → Construct) (test : α → Bool) (table : List α) : List Nat :=
  (indicesFrom test table 0).mergeSort fun i j =>
    match table[i]?, table[j]? with
    | some a, some b => (site b).atOrInside (site a)
    | _, _ => true

/-- The place of the construct anchored at a row. -/
def anchoredAt? (site : α → Construct) (table : List α) (row : Int) : Option Nat :=
  table.findIdx? fun x => (site x).anchor == row

/-- Adds a construct at the end, unless one is anchored at the same row. -/
def insert? (site : α → Construct) (table : List α) (x : α) : Option (List α) :=
  if table.any fun y => (site y).anchor == (site x).anchor then none else some (table ++ [x])

/-- The first construct of each anchor, in order. -/
def firstPerAnchor (site : α → Construct) (xs : List α) : List α :=
  xs.foldl (fun table x => (insert? site table x).getD table) []

end Tables

end RhythmChart
