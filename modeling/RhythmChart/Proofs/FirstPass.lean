import RhythmChart.Proofs.Flow.Movement
import RhythmChart.Proofs.Rows
import RhythmChart.Proofs.Timetable

/-! # The first pass

When nothing in a chart is repeated or skipped, the traversal plays each row once.  The times that the
notes of the rows are stamped with are then those of their visits: both add up the same durations in the
same order, whatever they are rounded to and whether they are numbers at all.

Main statements.

* `rowStarts`: the rows with the times at which they begin when each is played once;
* `getElem?_stampRows` and `finish_stampRows`: the stamped times are counted from these;
* `Traversal.visit_plain`: without loops and conditionals a visit leads to the next row;
* `Planner.rest_plain`: so the visits are those of the rows, each at its beginning;
* `Plan.first_pass`: the times of the first pass are those of the traversal. -/

namespace RhythmChart

/-! ### Stamped times -/

/-- The rows with the times at which they begin, the first one at `start`, when each is played once. -/
def rowStarts (speed : Float) : List Row → Float → List (Row × Float)
  | [], _ => []
  | row :: rest, start => (row, start) :: rowStarts speed rest (start + row.extent / speed)

theorem map_fst_rowStarts (speed : Float) (rows : List Row) (start : Float) :
    (rowStarts speed rows start).map Prod.fst = rows := by
  induction rows generalizing start with
  | nil => rfl
  | cons row rest ih => exact congrArg (row :: ·) (ih _)

/-- Stamping ends where the last row ends. -/
theorem finish_stampRows (speed : Float) (rows : List Row) (start : Float) (notes : Array Note) :
    (stampRows speed rows start notes).2 =
      ((rowStarts speed rows start).getLast?.map fun r => r.2 + r.1.extent / speed).getD start := by
  induction rows generalizing start notes with
  | nil => rfl
  | cons row rest ih =>
      rw [stampRows, ih, rowStarts, List.getLast?_cons]
      cases (rowStarts speed rest (start + row.extent / speed)).getLast? <;> rfl

/-- The notes of one row are stamped, and no others. -/
theorem getElem?_stamp (speed start : Float) (indices : List Nat) (notes : Array Note) (i : Nat) :
    (indices.foldl (fun (ns : Array Note) i =>
        ns.modify i fun n => { n with trigger := start + n.position / speed }) notes)[i]? =
      (notes[i]?).map fun n =>
        if i ∈ indices then { n with trigger := start + n.position / speed } else n := by
  induction indices generalizing notes with
  | nil => simp
  | cons k indices ih =>
      rw [List.foldl_cons, ih, Array.getElem?_modify]
      by_cases hk : k = i
      · subst hk
        cases notes[k]? <;> simp
      · simp [hk, Ne.symm hk]

theorem getElem?_stampRows_of_not_mem (speed : Float) {rows : List Row} {i : Nat}
    (h : ∀ r ∈ rows, i ∉ r.notes) (start : Float) (notes : Array Note) :
    (stampRows speed rows start notes).1[i]? = notes[i]? := by
  induction rows generalizing start notes with
  | nil => rfl
  | cons row rest ih =>
      rw [stampRows, ih fun r hr => h r (List.mem_cons_of_mem _ hr), getElem?_stamp]
      simp [h row List.mem_cons_self]

/-- A note that is in one row only is due at its distance from the beginning of that row. -/
theorem getElem?_stampRows (speed : Float) {rows : List Row}
    (hrows : rows.Pairwise fun a b => ∀ i ∈ a.notes, i ∉ b.notes) {start : Float} {r : Row × Float}
    (hr : r ∈ rowStarts speed rows start) {i : Nat} (hi : i ∈ r.1.notes) (notes : Array Note) :
    (stampRows speed rows start notes).1[i]? =
      (notes[i]?).map fun n => { n with trigger := r.2 + n.position / speed } := by
  induction rows generalizing start notes with
  | nil => cases hr
  | cons row rest ih =>
      obtain ⟨hrow, hrest⟩ := List.pairwise_cons.mp hrows
      rw [stampRows]
      rcases List.mem_cons.mp hr with rfl | hr
      · rw [getElem?_stampRows_of_not_mem speed fun r hr => hrow r hr i hi, getElem?_stamp]
        simp [hi]
      · -- Rows before that of the note leave it as it is.
        have hmem : r.1 ∈ rest := map_fst_rowStarts speed rest _ ▸ List.mem_map_of_mem hr
        have hnot : i ∉ row.notes := fun hin => hrow r.1 hmem i hin hi
        rw [ih hrest hr, getElem?_stamp]
        simp [hnot]

/-! ### Traversals without constructs -/

namespace Traversal

/-- Nothing is repeated or skipped. -/
structure Plain (t : Traversal) : Prop where
  loops : t.loops = []
  conditionals : t.conditionals = []

/-- Without codes there are no constructs. -/
theorem plain_ofChart {c : Chart} (h : ∀ n ∈ c.notes, n.loopCodes = [] ∧ n.branchCodes = []) :
    (ofChart c).Plain := by
  have hnone : ∀ {α : Type} (f : Row × Nat × Note → Option α),
      (∀ r i n, n.loopCodes = [] ∧ n.branchCodes = [] → f (r, i, n) = none) →
        (rowNotes c).filterMap f = [] := by
    intro α f hf
    refine List.filterMap_eq_nil_iff.mpr fun entry hentry => ?_
    obtain ⟨r, -, hr⟩ := List.mem_flatMap.mp hentry
    obtain ⟨m, hm, rfl⟩ := List.mem_map.mp hr
    obtain ⟨i, -, hi⟩ := List.mem_filterMap.mp hm
    obtain ⟨n, hn, rfl⟩ := Option.map_eq_some_iff.mp hi
    exact hf _ _ _ (h n (Array.mem_of_getElem? hn))
  constructor
  · unfold ofChart
    dsimp only
    rw [hnone (loopOf? c) fun r i n hn => by rw [loopOf?, hn.1]; rfl]
    rfl
  · unfold ofChart
    dsimp only
    rw [hnone (conditionalOf? c) fun r i n hn => by rw [conditionalOf?, hn.2]; rfl]
    rfl

variable {t : Traversal}

theorem Plain.arrive (h : t.Plain) (row : Int) : t.arrive row = t := by
  obtain ⟨rows, loops, conditionals⟩ := t
  obtain ⟨rfl, rfl⟩ := h
  rfl

/-- Without constructs the next row is played, if the chart has it. -/
theorem Plain.depart (h : t.Plain) {row : Int} {i : Nat} (hi : t.rowIndex? row = some i) :
    (t.depart row).1 = t ∧ (t.depart row).2.target =
      if (t.rowIndex? (row - 1)).isSome then some (row - 1) else none := by
  obtain ⟨rows, loops, conditionals⟩ := t
  obtain ⟨rfl, rfl⟩ := h
  have hskip : ∀ j, skipChain? (Traversal.mk rows [] []) i j = none := fun _ => rfl
  have hending : endingAt [] i = [] := by simp [endingAt, innermostFirst, indicesFrom]
  have hchain : ((Traversal.mk rows [] []).rowIndex? (row - 1)).bind
      (skipChain? (Traversal.mk rows [] []) i) = none :=
    Option.bind_eq_none_iff.mpr fun j _ => hskip j
  rw [depart_of_unchained hi hchain, departPlainly, hending]
  cases rowIndex? (Traversal.mk rows [] []) (row - 1) <;> exact ⟨rfl, rfl⟩

/-- Without constructs a visit of one of consecutive rows leads to the next one. -/
theorem visit_plain {c : Chart} (hL : (ofChart c).layout.Laminar) (hplain : (ofChart c).Plain)
    (hc : c.Consecutive) {i : Nat} {r : Row} (hr : c.rows[i]? = some r) :
    ((ofChart c).visit r.id).1 = ofChart c ∧
      ((ofChart c).visit r.id).2.target = (c.rows[i + 1]?).map Row.id := by
  have hrow : (ofChart c).rows[i]? = some r.id :=
    (getElem?_rows_ofChart c i).trans (congrArg (Option.map Row.id) hr)
  have hindex := rowIndex?_eq_some hL hrow
  rw [Traversal.visit, hplain.arrive]
  obtain ⟨hsame, htarget⟩ := hplain.depart hindex
  refine ⟨hsame, htarget.trans ?_⟩
  cases hnext : c.rows[i + 1]? with
  | some next =>
      have hid := hc.id_eq hr hnext
      have hrow' : (ofChart c).rows[i + 1]? = some (r.id - 1) :=
        hid ▸ (getElem?_rows_ofChart c (i + 1)).trans (congrArg (Option.map Row.id) hnext)
      rw [rowIndex?_eq_some hL hrow', ← hid]
      rfl
  | none =>
      cases hbelow : (ofChart c).rowIndex? (r.id - 1) with
      | none => rfl
      | some j =>
          obtain ⟨rfl, hlt⟩ := eq_succ_of_rowIndex? hL hrow hbelow
          have hsize := Array.getElem?_eq_none_iff.mp hnext
          have : (ofChart c).rows.size = c.rows.size := Array.size_map
          omega

end Traversal

/-! ### Visits -/

namespace Planner

open Traversal

/-- Without constructs the visits from a row on are those of the rows, each at its beginning. -/
theorem rest_plain {c : Chart} (hfalling : c.Falling) (hL : (Traversal.ofChart c).layout.Laminar)
    (hplain : (Traversal.ofChart c).Plain) (hc : c.Consecutive) (hsize : c.rows.size ≤ maxVisits)
    (before : List Row) {rest : List Row} (hrows : c.rows.toList = before ++ rest) {p : Planner}
    (htraversal : p.traversal = Traversal.ofChart c) (hnext : p.nextRow = rest.head?.map Row.id)
    (hplanned : p.planned = before.length) :
    (p.rest c).map (fun v => (v.row, v.start, v.duration)) =
      (rowStarts p.speed rest p.horizon).map fun r => (r.1.id, r.2, r.1.extent / p.speed) := by
  induction rest generalizing before p with
  | nil =>
      rw [rest_of_none]
      · rfl
      · rw [next_isFinished]
        rw [isFinished, hnext]
        rfl
  | cons row rest ih =>
      have hrow : c.rows[before.length]? = some row := by
        rw [← Array.getElem?_toList, hrows, List.getElem?_append_right (Nat.le_refl _), Nat.sub_self]
        rfl
      have hnextRow : c.rows[before.length + 1]? = rest.head? := by
        rw [← Array.getElem?_toList, hrows, List.getElem?_append_right (by omega),
          Nat.add_sub_cancel_left, List.head?_eq_getElem?]
        rfl
      have hlt := (Array.getElem?_eq_some_iff.mp hrow).1
      obtain ⟨hsame, htarget⟩ := visit_plain hL hplain hc hrow
      have hstep : p.next c = (some (p.visit row).1, (p.visit row).2) := by
        unfold next
        rw [hnext, List.head?_cons, Option.map_some, Option.bind_some, hfalling.row?_eq hrow]
        dsimp only
        rw [if_neg (by omega)]
      rw [rest_of_some hstep, List.map_cons, rowStarts, List.map_cons]
      refine congrArg₂ List.cons rfl ?_
      refine ih (before ++ [row]) (by simp [hrows]) ?_ ?_ ?_
      · change (p.traversal.visit row.id).1 = _
        rw [htraversal, hsame]
      · change (p.traversal.visit row.id).2.target = _
        rw [htraversal, htarget, hnextRow]
      · change p.planned + 1 = _
        rw [hplanned, List.length_append]
        rfl

end Planner

/-- When rows are consecutive and no note has codes, the traversal visits each row once, in order.  The
time that a note is stamped with is then that of its live note in the one visit of its row, and stamping
ends when the last visit does. -/
theorem Plan.first_pass (notes : Array Note) (declared : List (Int × Nat))
    (metadata : List (String × String)) (diagnostics : List Diagnostic) (speed start : Float) :
    let c := Chart.ofParts notes declared metadata diagnostics
    let stamped := c.stamped speed start
    let visits := (Plan.ofChart c speed start).visits.toList
    c.Consecutive → (∀ n ∈ notes, n.loopCodes = [] ∧ n.branchCodes = []) →
      c.rows.size ≤ Planner.maxVisits →
      visits.map Visit.row = c.rows.toList.map Row.id ∧
      (visits.map Visit.row).Pairwise (fun a b => b < a) ∧
      (∀ (i : Nat) (n : Note), notes[i]? = some n →
        ∃ v ∈ visits, v.row = n.row ∧
          (stamped.1.notes[i]?).map Note.trigger = some (v.start + n.position / usableSpeed speed) ∧
          .fresh i v.seq v.row n.position (v.start + n.position / usableSpeed speed) ∈
            v.liveNotes c (usableSpeed speed)) ∧
      stamped.2 = (visits.getLast?.map Visit.finish).getD start := by
  intro c stamped visits hc hplain hsize
  have hfalling : c.Falling := Chart.falling_ofParts notes declared metadata diagnostics
  have hindented : c.Indented := Chart.indented_ofParts notes declared metadata diagnostics
  have hL := Traversal.laminar_ofChart hindented hfalling
  have hvisits : visits.map (fun v => (v.row, v.start, v.duration)) =
      (rowStarts (usableSpeed speed) c.rows.toList start).map
        fun r => (r.1.id, r.2, r.1.extent / usableSpeed speed) := by
    unfold visits
    rw [Planner.visits_ofChart]
    refine Planner.rest_plain hfalling hL (Traversal.plain_ofChart hplain) hc hsize [] rfl rfl ?_ rfl
    change (Traversal.ofChart c).rows[0]? = _
    rw [List.head?_eq_getElem?, Array.getElem?_toList]
    exact Traversal.getElem?_rows_ofChart c 0
  have hrows : visits.map Visit.row = c.rows.toList.map Row.id := by
    have := congrArg (List.map Prod.fst) hvisits
    rw [List.map_map, List.map_map] at this
    rw [← map_fst_rowStarts (usableSpeed speed) c.rows.toList start, List.map_map]
    exact this
  refine ⟨hrows, ?_, fun i n hn => ?_, ?_⟩
  · rw [hrows]
    exact List.pairwise_map.mpr hfalling
  · obtain ⟨row, hrow, hid, hi⟩ : ∃ r ∈ c.rows.toList, r.id = n.row ∧ i ∈ r.notes :=
      Chart.exists_row_ofParts _ _ _ hn
    rw [← map_fst_rowStarts (usableSpeed speed) c.rows.toList start] at hrow
    obtain ⟨r, hr, rfl⟩ := List.mem_map.mp hrow
    obtain ⟨v, hv, hsame⟩ := List.mem_map.mp (hvisits ▸ List.mem_map_of_mem hr)
    obtain ⟨hvrow, hrest⟩ := Prod.mk.inj hsame
    obtain ⟨hvstart, -⟩ := Prod.mk.inj hrest
    have hrowOf : c.row? v.row = some r.1 := by
      have hmem : r.1 ∈ c.rows.toList :=
        map_fst_rowStarts (usableSpeed speed) c.rows.toList start ▸ List.mem_map_of_mem hr
      obtain ⟨k, hk⟩ := List.getElem?_of_mem hmem
      exact hvrow ▸ hfalling.row?_eq (Array.getElem?_toList ▸ hk)
    refine ⟨v, hv, hvrow.trans hid, ?_, List.mem_map.mpr ⟨(i, n), ?_, rfl⟩⟩
    · have htime := getElem?_stampRows (usableSpeed speed) (Chart.disjoint_rows_ofParts _ _ _) hr hi notes
      rw [hn, Option.map_some] at htime
      exact (congrArg (Option.map Note.trigger) htime).trans (by rw [hvstart]; rfl)
    · rw [Chart.notesAt_eq hrowOf]
      exact List.mem_filterMap.mpr ⟨i, hi, congrArg (Option.map _) hn⟩
  · have hlast := congrArg (fun l => (l.getLast?.map fun r : Int × Float × Float => r.2.1 + r.2.2).getD
      start) hvisits
    simp only [List.getLast?_map, Option.map_map] at hlast
    exact (finish_stampRows _ _ _ _).trans hlast.symm

/-- Two rows with notes, and one without notes between them. -/
def straightNotes : Array Note :=
  let plain : Note := ⟨-1, 0.5, .tap, 1.0, 0, 0.0, [], [], [], [], 0⟩
  #[plain, { plain with row := -3, position := 0.25 }]

/-- The rows as they are declared. -/
def straightRows : List (Int × Nat) := [(-1, 0), (-2, 0), (-3, 0)]

theorem Plan.first_pass_straightNotes :
    let c := Chart.ofParts straightNotes straightRows [] []
    let stamped := c.stamped 3.0 0.1
    let visits := (Plan.ofChart c 3.0 0.1).visits.toList
    c.Consecutive ∧ (∀ n ∈ straightNotes, n.loopCodes = [] ∧ n.branchCodes = []) ∧
      c.rows.size ≤ Planner.maxVisits ∧
      visits.map Visit.row = c.rows.toList.map Row.id ∧
      (visits.map Visit.row).Pairwise (fun a b => b < a) ∧
      (∀ (i : Nat) (n : Note), straightNotes[i]? = some n →
        ∃ v ∈ visits, v.row = n.row ∧
          (stamped.1.notes[i]?).map Note.trigger = some (v.start + n.position / usableSpeed 3.0) ∧
          .fresh i v.seq v.row n.position (v.start + n.position / usableSpeed 3.0) ∈
            v.liveNotes c (usableSpeed 3.0)) ∧
      stamped.2 = (visits.getLast?.map Visit.finish).getD 0.1 := by
  have hstate : (Chart.ofParts straightNotes straightRows [] []).Consecutive ∧
      (Chart.ofParts straightNotes straightRows [] []).rows.size ≤ Planner.maxVisits := by
    rw [Chart.ofParts_eq [-1, -2, -3] (by decide +kernel) (by decide)]
    decide +kernel
  have hplain : ∀ n ∈ straightNotes, n.loopCodes = [] ∧ n.branchCodes = [] := by decide
  exact ⟨hstate.1, hplain, hstate.2,
    Plan.first_pass straightNotes straightRows [] [] 3.0 0.1 hstate.1 hplain hstate.2⟩

end RhythmChart
