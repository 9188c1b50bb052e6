import RhythmChart.Flow.Construct

/-! # Conditionals

A conditional reads one code per visit of its anchor and plays its body on `1`.  Past the end of the
codes it reads `0`. -/

namespace RhythmChart

/-- What the last code said; `pending` until one is read. -/
inductive Decision where
  | pending
  | enter
  | skip
  deriving DecidableEq, Repr

/-- A conditional; `pointer` is the place of the next code. -/
structure Conditional extends Construct where
  codes : List Bool
  pointer : Nat
  decision : Decision
  deriving DecidableEq, Repr

namespace Conditional

/-- A conditional that has not been visited. -/
def fresh (site : Construct) (codes : List Bool) : Conditional :=
  { site with codes, pointer := 0, decision := .pending }

/-- The decision of the next code. -/
def nextDecision (c : Conditional) : Decision :=
  if c.codes[c.pointer]?.getD false then .enter else .skip

/-- The anchor is visited. -/
def encounter (c : Conditional) : Conditional :=
  if c.body.isNone then c
  else { c with decision := c.nextDecision, pointer := c.pointer + 1 }

/-- The loop around starts another pass. -/
def reset (c : Conditional) : Conditional := { c with decision := .pending }

/-- Whether the conditional skips row index `i`. -/
def skips (c : Conditional) (i : Nat) : Bool := c.decision == .skip && c.covers i

end Conditional

/-- The innermost conditional that skips `target` while `start` is outside its body. -/
def innermostSkipping? (conditionals : List Conditional) (start target : Nat) :
    Option (Nat × Conditional) :=
  innermost? Conditional.toConstruct (fun c => c.skips target && !c.covers start) conditionals

end RhythmChart
