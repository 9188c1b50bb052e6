import RhythmChart.Flow.Traversal

/-! # Schedules

When rows and notes are due.  Speed is in grid units per second.

* `Chart.stamped` gives every note its time when each row is played once, in order, and the time at
  which the last row ends;
* `Planner` follows the traversal and gives each visit of a row its own start: a visit starts when
  the one before it ends;
* `Plan.ofChart` is the whole traversal, cut after `Planner.maxVisits` visits. -/

namespace RhythmChart

/-- The speed that is used when none, or none that is usable, is given. -/
def defaultSpeed : Float := 4.0

/-- A usable speed: finite and positive, else the default. -/
def usableSpeed (speed : Float) : Float :=
  if speed.isFinite ∧ 0.0 < speed then speed else defaultSpeed

/-! ### The first pass -/

/-- Stamps the notes of the rows in order, the first row starting at `start`, and gives the end of
the last row. -/
def stampRows (speed : Float) : List Row → Float → Array Note → Array Note × Float
  | [], start, notes => (notes, start)
  | row :: rest, start, notes =>
    let stamped := row.notes.foldl (fun (ns : Array Note) i =>
      ns.modify i fun n => { n with trigger := start + n.position / speed }) notes
    stampRows speed rest (start + row.extent / speed) stamped

/-- The chart with the times of its first pass, and the time at which its last row ends. -/
def Chart.stamped (c : Chart) (speed start : Float) : Chart × Float :=
  let (notes, finish) := stampRows (usableSpeed speed) c.rows.toList start c.notes
  ({ c with notes }, finish)

/-! ### Visits -/

/-- One visit of a row.  `seq` counts visits from zero; `exit` is how navigation left the row. -/
structure Visit where
  seq : Nat
  row : Int
  start : Float
  duration : Float
  exit : Navigation

/-- When the visit ends. -/
def Visit.finish (v : Visit) : Float := v.start + v.duration

/-- The state of planning: `horizon` is the start of the next visit, `planned` the number of visits
so far. -/
structure Planner where
  traversal : Traversal
  speed : Float
  nextRow : Option Int
  horizon : Float
  planned : Nat

namespace Planner

/-- The most visits that are planned. -/
def maxVisits : Nat := 1000000

/-- Nothing is planned; the first row begins at `start`. -/
def ofChart (c : Chart) (speed start : Float) : Planner :=
  let traversal := Traversal.ofChart c
  { traversal, speed := usableSpeed speed, nextRow := traversal.firstRow?, horizon := start,
    planned := 0 }

/-- Whether there is no next visit. -/
def isFinished (p : Planner) : Bool := p.nextRow.isNone

/-- Ends the traversal. -/
def stop (p : Planner) : Planner := { p with nextRow := none }

/-- The visit of a row that begins at the horizon, and the state after it. -/
def visit (p : Planner) (row : Row) : Visit × Planner :=
  let (traversal, exit) := p.traversal.visit row.id
  let v : Visit := ⟨p.planned, row.id, p.horizon, row.extent / p.speed, exit⟩
  (v, { p with traversal, nextRow := exit.target, horizon := v.finish, planned := p.planned + 1 })

/-- Plans the next visit.  Planning ends when there is none left, or when the bound is reached. -/
def next (p : Planner) (c : Chart) : Option Visit × Planner :=
  match p.nextRow.bind c.row? with
  | none => (none, p.stop)
  | some row =>
    if maxVisits ≤ p.planned then (none, p.stop)
    else
      let (v, p) := p.visit row
      (some v, p)

/-- The notices of planning one more visit: those of leaving its row, or that the bound is reached. -/
def nextNotices (p : Planner) (c : Chart) : List Notice :=
  match p.nextRow.bind c.row? with
  | none => []
  | some row =>
    if maxVisits ≤ p.planned then
      [.error s!"traversal exceeded {maxVisits} row visits, stopping at row {row.id}"]
    else
      (p.traversal.arrive row.id).departNotices row.id (p.traversal.visit row.id).2

end Planner

/-- The planned visits, and what there was to report. -/
structure Plan where
  visits : Array Visit
  notices : Array Notice

namespace Plan

/-- Plans up to `steps` more visits.  Only the last visit of a traversal and the bound give
notices. -/
def extend (c : Chart) : Nat → Planner → Plan → Plan
  | 0, _, plan => plan
  | steps + 1, p, plan =>
    match p.next c with
    | (none, _) => { plan with notices := plan.notices ++ p.nextNotices c }
    | (some v, q) =>
      let notices := if v.exit.target.isNone then plan.notices ++ p.nextNotices c else plan.notices
      extend c steps q ⟨plan.visits.push v, notices⟩

/-- The whole traversal of a chart. -/
def ofChart (c : Chart) (speed start : Float) : Plan :=
  extend c (Planner.maxVisits + 1) (Planner.ofChart c speed start)
    ⟨#[], (Traversal.chartNotices c).toArray⟩

end Plan

end RhythmChart
