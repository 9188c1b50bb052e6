import RhythmChart.Chart.Rows

/-! # Bodies

The body of a construct is the run of rows right after its anchor that are indented deeper than the
construct itself.

* `Body.find` gives the maximal such run or the reason why there is none;
* `Body.findTimed` asks in addition that playing the body takes time. -/

namespace RhythmChart

/-- A run of rows, by the indices of its first and its last row. -/
structure Body where
  first : Nat
  last : Nat
  deriving DecidableEq, Repr

namespace Body

/-- Whether a row index lies in the body. -/
def contains (b : Body) (i : Nat) : Bool := decide (b.first ≤ i ∧ i ≤ b.last)

/-- How many rows the body has. -/
def size (b : Body) : Nat := b.last + 1 - b.first

/-- The index after the body; it may be the number of rows. -/
def after (b : Body) : Nat := b.last + 1

/-- Why a construct has no body. -/
inductive Failure where
  | lastRow
  | notDeeper
  | noTime
  deriving DecidableEq, Repr

/-- The wording of a failure. -/
def Failure.message : Failure → String
  | .lastRow => "anchor is the last row"
  | .notDeeper => "no deeper-indented row follows the anchor"
  | .noTime => "body takes no time"

/-- The last index reached from `i` over rows indented deeper than `indent`. -/
def reach (rows : Array Row) (indent i : Nat) : Nat :=
  match h : rows[i + 1]? with
  | some r => if indent < r.indent then reach rows indent (i + 1) else i
  | none => i
termination_by rows.size - i
decreasing_by
  have := (Array.getElem?_eq_some_iff.mp h).1
  omega

/-- The body of a construct that is anchored at row index `anchor` with the given indent. -/
def find (rows : Array Row) (anchor indent : Nat) : Except Failure Body :=
  match rows[anchor + 1]? with
  | none => .error .lastRow
  | some r =>
    if indent < r.indent then .ok ⟨anchor + 1, reach rows indent (anchor + 1)⟩
    else .error .notDeeper

/-- The total extent of the rows of a body. -/
def extent (rows : Array Row) (b : Body) : Float :=
  (rows.extract b.first b.after).foldl (fun total r => total + r.extent) 0.0

/-- The body of a construct if it takes time. -/
def findTimed (rows : Array Row) (anchor indent : Nat) : Except Failure Body :=
  match find rows anchor indent with
  | .error e => .error e
  | .ok b => if 0.0 < extent rows b then .ok b else .error .noTime

end Body

/-- The body that was found, if any. -/
def bodyOf? : Except Body.Failure Body → Option Body
  | .ok b => some b
  | .error _ => none

end RhythmChart
