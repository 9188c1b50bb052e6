import RhythmChart.Proofs.Charts
import RhythmChart.Proofs.Timetable

/-! # Outlines of charts

Control flow and planning read of a row its id, its indent and its extent, and of its notes the indents and
the codes, in the order of the row.  Charts that agree in these are traversed alike.

Main statements.

* `Chart.outline`: the rows of a chart with what is read of their notes;
* `Traversal.ofChart_congr`: charts with the same outline have the same traversal;
* `Plan.visits_congr`: and the same visits at the same times. -/

namespace RhythmChart

/-- The row without the places of its notes. -/
def Row.frame (r : Row) : Row := { r with notes := [] }

namespace Chart

/-- The rows with what is read of their notes, in the order of the rows. -/
def outline {α : Type} (f : Note → α) (c : Chart) : List (Row × List α) :=
  c.rows.toList.map fun r => (r.frame, (c.notesOf r).map fun n => f n.2)

/-- What is read of notes can be read of more that is read of them. -/
theorem outline_comp {α β : Type} (g : α → β) (f : Note → α) (c : Chart) :
    c.outline (g ∘ f) = (c.outline f).map (Prod.map id (List.map g)) := by
  simp [outline, Function.comp_def]

end Chart

/-- The chart without the places of the notes of its rows. -/
def Chart.framed (c : Chart) : Chart := { c with rows := c.rows.map Row.frame }

/-- What control flow reads of a note. -/
structure Codes where
  indent : Nat
  loopCodes : List Nat
  branchCodes : List Bool

/-- The indent and the codes of a note. -/
def Note.codes (n : Note) : Codes := ⟨n.indent, n.loopCodes, n.branchCodes⟩

theorem Chart.rows_framed_congr {α : Type} {f : Note → α} {c c' : Chart} (h : c.outline f = c'.outline f) :
    c.framed.rows = c'.framed.rows := by
  have hframes : ∀ c : Chart, c.framed.rows.toList = (c.outline f).map Prod.fst := by
    intro c
    simp [framed, outline, Function.comp_def]
  apply Array.ext'
  rw [hframes, hframes, h]

/-! ### Bodies -/

namespace Body

theorem reach_frame (rows : Array Row) (indent i : Nat) :
    reach (rows.map Row.frame) indent i = reach rows indent i := by
  have hends : ∀ i, (∀ r, rows[i + 1]? = some r → r.indent ≤ indent) →
      reach (rows.map Row.frame) indent i = reach rows indent i := by
    intro i h
    rw [reach_of_not_deeper h]
    apply reach_of_not_deeper
    intro r hr
    rw [Array.getElem?_map] at hr
    obtain ⟨r', hr', rfl⟩ := Option.map_eq_some_iff.mp hr
    exact h r' hr'
  induction i using reach.induct rows indent with
  | case1 i r hr hdeep ih =>
      have hframe : (rows.map Row.frame)[i + 1]? = some r.frame := by simp [hr]
      rw [reach_of_deeper hr hdeep, reach_of_deeper hframe hdeep, ih]
  | case2 i r hr hdeep =>
      apply hends
      intro r' hr'
      obtain rfl := Option.some.inj (hr.symm.trans hr')
      omega
  | case3 i hnone =>
      apply hends
      intro r hr
      rw [hnone] at hr
      cases hr

theorem find_frame (rows : Array Row) (anchor indent : Nat) :
    find (rows.map Row.frame) anchor indent = find rows anchor indent := by
  unfold find
  rw [Array.getElem?_map, reach_frame]
  cases rows[anchor + 1]? <;> rfl

theorem findTimed_frame (rows : Array Row) (anchor indent : Nat) :
    findTimed (rows.map Row.frame) anchor indent = findTimed rows anchor indent := by
  have hextent : ∀ b, extent (rows.map Row.frame) b = extent rows b := by
    intro b
    unfold extent
    rw [← Array.map_extract, Array.foldl_map]
    rfl
  simp only [findTimed, find_frame, hextent]

end Body

/-! ### Traversals -/

namespace Traversal

/-- What is made of the notes of a chart, it is made of the outline if it is made of that of each note. -/
theorem filterMap_rowNotes {α β : Type} {f : Note → α} {g : Row × Nat × Note → Option β}
    {h : Row → Nat → α → Option β} (hg : ∀ r i n, g (r, i, n) = h r.frame i (f n)) (c : Chart) :
    (rowNotes c).filterMap g =
      (c.outline f).zipIdx.flatMap fun r => r.1.2.filterMap (h r.1.1 r.2) := by
  unfold rowNotes Chart.outline
  rw [List.filterMap_flatMap, List.zipIdx_map, List.flatMap_map]
  refine congrArg (List.flatMap · c.rows.toList.zipIdx) (funext fun r => ?_)
  simp [List.filterMap_map, hg]

/-- The loop that codes start at a row. -/
def loopOfCodes? (rows : Array Row) (r : Row) (i : Nat) (n : Codes) : Option Loop :=
  if n.loopCodes.isEmpty then none
  else some (.fresh ⟨r.id, i, n.indent, bodyOf? (Body.findTimed rows i n.indent), none⟩ n.loopCodes)

/-- The conditional that codes start at a row. -/
def conditionalOfCodes? (rows : Array Row) (r : Row) (i : Nat) (n : Codes) : Option Conditional :=
  if n.branchCodes.isEmpty then none
  else some (.fresh ⟨r.id, i, n.indent, bodyOf? (Body.find rows i n.indent), none⟩ n.branchCodes)

theorem loopOf?_eq (c : Chart) (r : Row) (i : Nat) (n : Note) :
    loopOf? c (r, i, n) = loopOfCodes? c.framed.rows r.frame i n.codes := by
  unfold loopOfCodes? Chart.framed
  rw [Body.findTimed_frame]
  rfl

theorem conditionalOf?_eq (c : Chart) (r : Row) (i : Nat) (n : Note) :
    conditionalOf? c (r, i, n) = conditionalOfCodes? c.framed.rows r.frame i n.codes := by
  unfold conditionalOfCodes? Chart.framed
  rw [Body.find_frame]
  rfl

/-- Charts with the same outline have the same traversal. -/
theorem ofChart_congr {c c' : Chart} (h : c.outline Note.codes = c'.outline Note.codes) :
    ofChart c = ofChart c' := by
  have hrows : c.framed.rows = c'.framed.rows := Chart.rows_framed_congr h
  have hids : c.rows.map Row.id = c'.rows.map Row.id := by
    have hid : ∀ c : Chart, c.rows.map Row.id = c.framed.rows.map Row.id := by
      intro c
      simp [Chart.framed, Row.frame, Function.comp_def]
    rw [hid c, hid c', hrows]
  have hloops : (rowNotes c).filterMap (loopOf? c) = (rowNotes c').filterMap (loopOf? c') := by
    rw [filterMap_rowNotes (loopOf?_eq c), filterMap_rowNotes (loopOf?_eq c'), h, hrows]
  have hconditionals : (rowNotes c).filterMap (conditionalOf? c) =
      (rowNotes c').filterMap (conditionalOf? c') := by
    rw [filterMap_rowNotes (conditionalOf?_eq c), filterMap_rowNotes (conditionalOf?_eq c'), h, hrows]
  unfold ofChart
  dsimp only
  rw [hloops, hconditionals, hids]

end Traversal

/-! ### Plans -/

/-- A row is found by the ids of the rows. -/
theorem Chart.row?_framed (c : Chart) (id : Int) : c.framed.row? id = (c.row? id).map Row.frame := by
  have hindex : c.framed.rowIndex? id = c.rowIndex? id := by
    have hplace : boundary (fun r => decide (id < r.id)) c.framed.rows 0 c.framed.rows.size =
        boundary (fun r => decide (id < r.id)) c.rows 0 c.rows.size := by
      unfold framed
      rw [boundary_map, Array.size_map]
      rfl
    unfold rowIndex?
    rw [hplace]
    unfold framed
    dsimp only
    rw [Array.getElem?_map]
    cases c.rows[boundary (fun r => decide (id < r.id)) c.rows 0 c.rows.size]? <;> rfl
  unfold row?
  rw [hindex]
  cases c.rowIndex? id with
  | none => rfl
  | some i => exact Array.getElem?_map

namespace Planner

/-- A visit reads no more of its row than the frame. -/
theorem next_framed (c : Chart) (p : Planner) : p.next c.framed = p.next c := by
  unfold next
  cases p.nextRow with
  | none => rfl
  | some id =>
      rw [Option.bind_some, Option.bind_some, Chart.row?_framed]
      cases c.row? id with
      | none => rfl
      | some r => rfl

theorem next_congr {c c' : Chart} (h : c.framed.rows = c'.framed.rows) (p : Planner) :
    p.next c = p.next c' := by
  have hrow : c.framed.row? = c'.framed.row? := by
    funext id
    unfold Chart.row? Chart.rowIndex?
    rw [h]
  rw [← next_framed c, ← next_framed c']
  unfold next
  rw [hrow]

theorem coming_congr {c c' : Chart} (h : c.framed.rows = c'.framed.rows) (steps : Nat) (p : Planner) :
    coming c steps p = coming c' steps p := by
  induction steps generalizing p with
  | zero => rfl
  | succ steps ih =>
      unfold coming
      rw [next_congr h]
      split
      next v q _ => rw [ih]
      next => rfl

end Planner

/-- Charts with the same outline have the same visits at the same times. -/
theorem Plan.visits_congr {c c' : Chart} (h : c.outline Note.codes = c'.outline Note.codes)
    (speed start : Float) : (Plan.ofChart c speed start).visits = (Plan.ofChart c' speed start).visits := by
  have hplanner : Planner.ofChart c speed start = Planner.ofChart c' speed start := by
    unfold Planner.ofChart
    rw [Traversal.ofChart_congr h]
  apply Array.ext'
  rw [Planner.visits_ofChart, Planner.visits_ofChart, hplanner]
  exact Planner.coming_congr (Chart.rows_framed_congr h) _ _

end RhythmChart
