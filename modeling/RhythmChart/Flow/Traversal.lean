import RhythmChart.Flow.Conditional
import RhythmChart.Flow.Loop
import RhythmChart.Notice

/-! # Traversal

The order in which rows are played.  Each visit of a row is an `arrive` and a `depart`; the
departure decides where to go.  The first rule that applies wins:

1. the next row lies in the body of an untaken conditional: go on after that body,
2. the next row lies in the body of a loop without passes left: go on after that body,
3. the row ends the body of a loop with passes left: go back to the start of that body,
4. go to the row whose id is one less, if the chart has it.

A skip may land in another body that is skipped; `extendSkip` goes on until it does not.  A skip that
leaves a loop body ends a pass of that loop all the same. -/

namespace RhythmChart

/-- Why navigation went where it went. -/
inductive Reason where
  | next
  | branchSkip
  | loopSkip
  | loopBack
  | stop
  deriving DecidableEq, Repr

/-- A step from row to row.  Without a target the traversal is over. -/
structure Navigation where
  source : Int
  target : Option Int
  reason : Reason
  deriving DecidableEq, Repr

/-- What skips a row: the conditional or the loop at a place of its table. -/
inductive Skipper where
  | conditional (place : Nat)
  | loop (place : Nat)
  deriving DecidableEq, Repr

/-- A chain of skips: why it began, the row index where it lands, if any, everything that skipped,
and whether it was cut short. -/
structure SkipChain where
  reason : Reason
  landing : Option Nat
  skippers : List Skipper
  cut : Bool
  deriving DecidableEq, Repr

/-- The state of control flow: the row ids in playing order, and the constructs. -/
structure Traversal where
  rows : Array Int
  loops : List Loop
  conditionals : List Conditional

namespace Traversal

/-- The longest chain of skips that is followed. -/
def maxSkips : Nat := 256

/-! ### Building -/

/-- The rows of a chart with their places and notes. -/
def rowNotes (c : Chart) : List (Row × Nat × Note) :=
  c.rows.toList.zipIdx.flatMap fun r => (c.notesOf r.1).map fun n => (r.1, r.2, n.2)

/-- The loop that a note starts, if it has loop codes. -/
def loopOf? (c : Chart) (entry : Row × Nat × Note) : Option Loop :=
  let (row, i, note) := entry
  if note.loopCodes.isEmpty then none
  else
    let body := bodyOf? (Body.findTimed c.rows i note.indent)
    some (.fresh ⟨row.id, i, note.indent, body, none⟩ note.loopCodes)

/-- The conditional that a note starts, if it has conditional codes. -/
def conditionalOf? (c : Chart) (entry : Row × Nat × Note) : Option Conditional :=
  let (row, i, note) := entry
  if note.branchCodes.isEmpty then none
  else
    let body := bodyOf? (Body.find c.rows i note.indent)
    some (.fresh ⟨row.id, i, note.indent, body, none⟩ note.branchCodes)

/-- The traversal of a chart before its first visit.  A row has at most one loop and one
conditional, those of its first notes that have codes. -/
def ofChart (c : Chart) : Traversal :=
  let entries := rowNotes c
  let loops := firstPerAnchor Loop.toConstruct (entries.filterMap (loopOf? c))
  let conditionals :=
    firstPerAnchor Conditional.toConstruct (entries.filterMap (conditionalOf? c))
  { rows := c.rows.map Row.id
    loops := loops.map fun l => { l with parent := enclosing? loops l.index l.indent }
    conditionals :=
      conditionals.map fun b => { b with parent := enclosing? loops b.index b.indent } }

/-! ### Rows -/

/-- The place of a row. -/
def rowIndex? (t : Traversal) (row : Int) : Option Nat :=
  let i := boundary (fun id : Int => decide (row < id)) t.rows 0 t.rows.size
  match t.rows[i]? with
  | some id => if id = row then some i else none
  | none => none

/-- The row that is played first. -/
def firstRow? (t : Traversal) : Option Int := t.rows[0]?

/-- The loop anchored at a row. -/
def loopAt? (t : Traversal) (row : Int) : Option Loop :=
  t.loops.find? fun l => l.anchor == row

/-- The conditional anchored at a row. -/
def conditionalAt? (t : Traversal) (row : Int) : Option Conditional :=
  t.conditionals.find? fun b => b.anchor == row

/-! ### Arriving -/

/-- A row is visited: the constructs anchored at it are encountered. -/
def arrive (t : Traversal) (row : Int) : Traversal :=
  { t with
    loops := t.loops.map fun l => if l.anchor = row then l.encounter else l
    conditionals := t.conditionals.map fun b => if b.anchor = row then b.encounter else b }

/-! ### Skipping -/

/-- The innermost construct that skips `target` when it is entered from `start`, and the place after
its body.  Conditionals come before loops. -/
def skipper? (t : Traversal) (start target : Nat) : Option (Skipper × Nat) :=
  match innermostSkipping? t.conditionals start target with
  | some (i, b) => some (.conditional i, (b.body.map Body.after).getD (target + 1))
  | none =>
    match innermost? Loop.toConstruct
        (fun l => l.covers target && !l.covers start && l.blocksEntry) t.loops with
    | some (i, l) => l.body.map fun b => (.loop i, b.after)
    | none => none

/-- Follows a chain of skips from a landing place: the final place, the further skippers, and
whether the bound cut the chain. -/
def extendSkip (t : Traversal) (start : Nat) : Nat → Nat → Nat × List Skipper × Bool
  | 0, place => (place, [], decide (place < t.rows.size))
  | steps + 1, place =>
    if place < t.rows.size then
      match t.skipper? start place with
      | some (by_, next) =>
        let (last, skippers, cut) := t.extendSkip start steps next
        (last, by_ :: skippers, cut)
      | none => (place, [], false)
    else (place, [], false)

/-- The reason that a skipper gives. -/
def reasonOf : Skipper → Reason
  | .conditional _ => .branchSkip
  | .loop _ => .loopSkip

/-- The chain of skips that begins when `target` is entered from `start`. -/
def skipChain? (t : Traversal) (start target : Nat) : Option SkipChain :=
  (t.skipper? start target).map fun (first, place) =>
    let (last, skippers, cut) := t.extendSkip start (maxSkips - 1) place
    { reason := reasonOf first
      landing := if last < t.rows.size then some last else none
      skippers := first :: skippers
      cut }

/-- Whether going from one row to another would skip the other. -/
def isSkipped (t : Traversal) (source row : Int) : Bool :=
  match t.rowIndex? source, t.rowIndex? row with
  | some s, some r => (t.skipper? s r).isSome
  | _, _ => false

/-- Where navigation lands when it goes from one row to another that is skipped; the inner `none`
stands for the end of the chart. -/
def jumpTarget? (t : Traversal) (source row : Int) : Option (Option Int) :=
  match t.rowIndex? source, t.rowIndex? row with
  | some s, some r => (t.skipChain? s r).map fun chain => chain.landing.bind fun i => t.rows[i]?
  | _, _ => none

/-- The start of the body that would be repeated when a row is left. -/
def loopBackTarget? (t : Traversal) (row : Int) : Option Int :=
  (t.rowIndex? row).bind fun i =>
    let ending := (endingAt t.loops i).filterMap fun j => t.loops[j]?
    (ending.find? fun l => l.visit == .running && l.repeats).bind fun l =>
      l.body.bind fun b => t.rows[b.first]?

/-! ### Departing -/

/-- Changes the loop at a place. -/
def modifyLoop (t : Traversal) (place : Nat) (f : Loop → Loop) : Traversal :=
  { t with loops := t.loops.modify place f }

/-- Loops whose body starts at `target` use up a pass when it is entered from `start`. -/
def enterBodies (t : Traversal) (start target : Nat) : Traversal :=
  { t with
    loops := t.loops.map fun l =>
      if l.startsAt target && !l.covers start && !l.blocksEntry then l.enterBody else l }

/-- The loop at a place starts another pass: what is directly inside it is advanced. -/
def nextPass (t : Traversal) (place : Nat) : Traversal :=
  { t with
    loops := t.loops.map fun l => if l.parent = some place then l.advance else l
    conditionals := t.conditionals.map fun b => if b.parent = some place then b.reset else b }

/-- Ends a pass of each running loop of a list until one repeats; gives the start of its body. -/
def closePasses (t : Traversal) : List Nat → Traversal × Option Nat
  | [] => (t, none)
  | place :: places =>
    match t.loops[place]? with
    | none => t.closePasses places
    | some l =>
      if l.visit = .running then
        let closed := t.modifyLoop place Loop.finishPass
        match l.repeats, l.body with
        | true, some b => (closed.nextPass place, some b.first)
        | _, _ => closed.closePasses places
      else t.closePasses places

/-- Loops that were skipped end their visit. -/
def finishSkipped (t : Traversal) (skippers : List Skipper) : Traversal :=
  skippers.foldl (fun t s => match s with
    | .loop i => t.modifyLoop i Loop.finishVisit
    | .conditional _ => t) t

/-- The departure from place `start` along a chain of skips. -/
def departSkipping (t : Traversal) (row : Int) (start : Nat) (chain : SkipChain) :
    Traversal × Navigation :=
  let skipped := t.finishSkipped chain.skippers
  match skipped.closePasses (exitedBy skipped.loops start chain.landing) with
  | (t, some back) => (t, ⟨row, t.rows[back]?, .loopBack⟩)
  | (t, none) =>
    match chain.landing with
    | some place => (t.enterBodies start place, ⟨row, t.rows[place]?, chain.reason⟩)
    | none => (t, ⟨row, none, chain.reason⟩)

/-- The departure from place `start` when the next row, if there is one, is not skipped. -/
def departPlainly (t : Traversal) (row : Int) (start : Nat) (next : Option Nat) :
    Traversal × Navigation :=
  match t.closePasses (endingAt t.loops start) with
  | (t, some back) => (t, ⟨row, t.rows[back]?, .loopBack⟩)
  | (t, none) =>
    match next with
    | some place => (t.enterBodies start place, ⟨row, some (row - 1), .next⟩)
    | none => (t, ⟨row, none, .stop⟩)

/-- Leaves a row: decides where to go and keeps the books. -/
def depart (t : Traversal) (row : Int) : Traversal × Navigation :=
  match t.rowIndex? row with
  | none => (t, ⟨row, none, .stop⟩)
  | some start =>
    let next := t.rowIndex? (row - 1)
    match next.bind (t.skipChain? start) with
    | some chain => t.departSkipping row start chain
    | none => t.departPlainly row start next

/-- Visits a row: arrives at it and leaves it. -/
def visit (t : Traversal) (row : Int) : Traversal × Navigation := (t.arrive row).depart row

/-- Visits rows from `row` on until navigation has no target, but at most the given number; gives the
state at the end and the steps that were taken. -/
def walk : Nat → Traversal → Int → Traversal × List Navigation
  | 0, t, _ => (t, [])
  | steps + 1, t, row =>
    let (t, nav) := t.visit row
    match nav.target with
    | none => (t, [nav])
    | some next =>
      let (t, navs) := walk steps t next
      (t, nav :: navs)

/-! ### Notices -/

/-- The notice that a chain of skips was cut. -/
def cutNotice (start : Nat) : Notice :=
  .error s!"skip chain from row index {start} exceeded {maxSkips} steps, stopping"

/-- The notices of `jumpTarget?`. -/
def jumpNotices (t : Traversal) (source row : Int) : List Notice :=
  match t.rowIndex? source, t.rowIndex? row with
  | some s, some r => if (t.skipChain? s r).any SkipChain.cut then [cutNotice s] else []
  | _, _ => []

/-- The notices of a departure that answered `nav`. -/
def departNotices (t : Traversal) (row : Int) (nav : Navigation) : List Notice :=
  match t.rowIndex? row with
  | none => [.warning s!"leaving row {row} which is not part of the chart"]
  | some start =>
    match (t.rowIndex? (row - 1)).bind (t.skipChain? start) with
    | some chain => if chain.cut then [cutNotice start] else []
    | none =>
      let below := t.rows.size - (start + 1)
      if nav.reason = .stop ∧ 0 < below then
        [.warning s!"row {row}: next row {row - 1} does not exist, {below} later rows are unreachable"]
      else []

/-- The notices of `walk`. -/
def walkNotices : Nat → Traversal → Int → List Notice
  | 0, _, _ => []
  | steps + 1, t, row =>
    let (after, nav) := t.visit row
    let notices := (t.arrive row).departNotices row nav
    match nav.target with
    | none => notices
    | some next => notices ++ walkNotices steps after next

/-- The notices on the constructs of one note, given whether its row already has a loop and a
conditional. -/
def noteNotices (c : Chart) (hasLoop hasConditional : Bool) (entry : Row × Nat × Note) :
    List Notice :=
  let (row, i, note) := entry
  let place := s!"row {row.id} (line {note.line})"
  let loopNotices : List Notice :=
    if note.loopCodes.isEmpty then []
    else
      (match Body.findTimed c.rows i note.indent with
        | .error e => [.warning s!"loop at {place}: {e.message}, it will never repeat"]
        | .ok _ => []) ++
      if hasLoop then [.warning s!"{place}: extra loop ignored, one per row"] else []
  let conditionalNotices : List Notice :=
    if note.branchCodes.isEmpty then []
    else
      (match Body.find c.rows i note.indent with
        | .error e => [.warning s!"conditional at {place}: {e.message}, it will never skip"]
        | .ok _ => []) ++
      if hasConditional then [.warning s!"{place}: extra conditional ignored, one per row"] else []
  loopNotices ++ conditionalNotices

/-- The notices on the notes of one row, in order. -/
def rowNotices (c : Chart) : Bool → Bool → List (Row × Nat × Note) → List Notice
  | _, _, [] => []
  | hasLoop, hasConditional, e :: rest =>
    noteNotices c hasLoop hasConditional e ++
      rowNotices c (hasLoop || !e.2.2.loopCodes.isEmpty)
        (hasConditional || !e.2.2.branchCodes.isEmpty) rest

/-- The notices of `ofChart`: constructs that have no effect and constructs that are ignored. -/
def chartNotices (c : Chart) : List Notice :=
  c.rows.toList.zipIdx.flatMap fun r =>
    rowNotices c false false ((c.notesOf r.1).map fun n => (r.1, r.2, n.2))

end Traversal

end RhythmChart
