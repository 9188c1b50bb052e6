import Mathlib.Tactic.Set
import RhythmChart.Proofs.Scanning

/-! # Rejected lines

A line of the main section that cannot be used leaves one diagnostic and nothing else.  The lines after it
are read as if it were not there, but for their numbers.

Main statements.

* `Scan.Unusable` lists the lines that cannot be used, each with its fault;
* `Scan.line_of_rejects`: a rejected line only leaves its diagnostic;
* `Scan.rejects_iff`: these are all the lines that leave a diagnostic and nothing else;
* `Chart.rows_ofParts_congr`: rows do not depend on the numbers of lines;
* `Chart.ofText_insert_rejected`: what a rejected line does to the chart. -/

namespace RhythmChart

/-! ### Rejecting -/

/-- Whether a fault costs its line.  A repeated row goes on, and a remark names a replacement. -/
def Fault.rejects : Fault → Bool
  | .repeatedRow _ | .remark _ => false
  | _ => true

namespace Scan

/-- A text that cannot be used as a line of the main section after the header of a row, if there is one, and
its fault. -/
inductive Unusable (row : Option Int) (text : List Char) : Fault → Prop
  | tabLevel {level : List Char} (hform : MainLine.ofText text = .tab level)
      (h : Number.count? level = none) : Unusable row text (.tabLevel level)
  | rowId {id : List Char} (hform : MainLine.ofText text = .header id)
      (h : Number.int32? id = none) : Unusable row text (.rowId text)
  | unrecognized (hform : MainLine.ofText text = .unrecognized) : Unusable row text (.unrecognized text)
  | outsideRow {position cell : List Char} (hform : MainLine.ofText text = .note position cell)
      (hrow : row = none) : Unusable row text (.outsideRow text)
  | position {own : Int} {position cell : List Char} (hform : MainLine.ofText text = .note position cell)
      (hrow : row = some own) (h : position? position = none) : Unusable row text (.position position)
  | cell {own : Int} {p : Float} {error : CellError} {position cell : List Char}
      (hform : MainLine.ofText text = .note position cell) (hrow : row = some own)
      (hposition : position? position = some p) (h : Cell.read cell = .error error) :
      Unusable row text (.cell error text)

/-- A line of the main section is rejected with a fault.  Blank lines, comments and headers of sections are
not. -/
structure Rejects (s : Scan) (raw : List Char) (fault : Fault) : Prop where
  main : s.part = .main
  content : stripped raw ≠ []
  untitled : (stripped raw).head? ≠ some '#'
  unusable : Unusable s.row (stripped raw) fault

theorem mainLine_of_unusable {s : Scan} {text : List Char} {fault : Fault}
    (h : Unusable s.row text fault) (number : Nat) :
    s.mainLine number text = s.report number fault := by
  unfold mainLine
  cases h with
  | tabLevel hform h => simp only [hform, h]
  | rowId hform h => simp only [hform, h]
  | unrecognized hform => simp only [hform]
  | outsideRow hform hrow => simp only [hform, addNote, hrow]
  | position hform hrow h => simp only [hform, addNote, hrow, h]
  | cell hform hrow hposition h => simp only [hform, addNote, hrow, hposition, h]

/-- A rejected line only leaves its diagnostic. -/
theorem line_of_rejects {s : Scan} {raw : List Char} {fault : Fault} (h : s.Rejects raw fault)
    (number : Nat) : s.line number raw = s.report number fault := by
  rw [line_main h.main h.untitled, if_neg h.content, mainLine_of_unusable h.unusable]

end Scan

/-- What a line of the main section leaves that costs it, it leaves because it cannot be used. -/
theorem Scan.unusable_of_mem {s : Scan} {number : Nat} {text : List Char} {fault : Fault}
    (hfault : fault.rejects = true)
    (h : ⟨number, fault⟩ ∈ (s.bare.mainLine number text).diagnostics) : Unusable s.row text fault := by
  have hnothing : ⟨number, fault⟩ ∉ s.bare.diagnostics := Array.not_mem_empty _
  have hfirst : ∀ g : Fault, ⟨number, fault⟩ ∈ s.bare.diagnostics.push ⟨number, g⟩ → fault = g := by
    intro g hg
    exact (Diagnostic.mk.inj ((Array.mem_push.mp hg).resolve_left hnothing)).2
  unfold mainLine at h
  cases hform : MainLine.ofText text with
  | tab level =>
      cases hlevel : Number.count? level with
      | none =>
          simp only [hform, hlevel] at h
          exact hfirst _ h ▸ Unusable.tabLevel hform hlevel
      | some n =>
          simp only [hform, hlevel] at h
          exact absurd h hnothing
  | header id =>
      cases hid : Number.int32? id with
      | none =>
          simp only [hform, hid] at h
          exact hfirst _ h ▸ Unusable.rowId hform hid
      | some id =>
          -- A row is opened with no more than a remark on its repetition.
          simp only [hform, hid, openRow] at h
          rw [closeRow_eq] at h
          split at h
          · rw [hfirst _ h] at hfault
            cases hfault
          · exact absurd h hnothing
  | note position cell =>
      simp only [hform, addNote] at h
      have hrow : s.bare.row = s.row := rfl
      rw [hrow] at h
      cases hrow : s.row with
      | none =>
          simp only [hrow] at h
          exact hfirst _ h ▸ Unusable.outsideRow hform rfl
      | some row =>
          cases hposition : position? position with
          | none =>
              simp only [hrow, hposition] at h
              exact hfirst _ h ▸ Unusable.position hform rfl hposition
          | some p =>
              cases hcell : Cell.read cell with
              | error e =>
                  simp only [hrow, hposition, hcell] at h
                  exact hfirst _ h ▸ Unusable.cell hform rfl hposition hcell
              | ok read =>
                  -- A note is added with no more than remarks on its cell.
                  obtain ⟨cell, remarks⟩ := read
                  simp only [hrow, hposition, hcell, foldl_report] at h
                  have hremark : ∃ r ∈ remarks, Fault.remark r = fault := by simpa [bare] using h
                  obtain ⟨r, -, rfl⟩ := hremark
                  cases hfault
  | unrecognized =>
      simp only [hform] at h
      exact hfirst _ h ▸ Unusable.unrecognized hform

/-- In the main section, a line leaves a diagnostic that costs a line exactly when it is rejected. -/
theorem Scan.rejects_iff {s : Scan} (hmain : s.part = .main) {raw : List Char} {fault : Fault}
    (hfault : fault.rejects = true) (number : Nat) :
    s.Rejects raw fault ↔ ⟨number, fault⟩ ∈ (s.bare.line number raw).diagnostics := by
  constructor
  · intro h
    have hbare : s.bare.Rejects raw fault := ⟨h.main, h.content, h.untitled, h.unusable⟩
    rw [line_of_rejects hbare]
    simp [report]
  · intro h
    have huntitled : (stripped raw).head? ≠ some '#' := by
      intro htitle
      obtain ⟨header, hheader⟩ := List.head?_eq_some_iff.mp htitle
      have hclosed : s.bare.closeRow.diagnostics = #[] := by
        rw [closeRow_eq]
        rfl
      rw [line_eq, hheader, if_neg (List.cons_ne_nil _ _)] at h
      simp [content, hclosed] at h
    rw [line_main (s := s.bare) hmain huntitled] at h
    split at h
    · simp [bare] at h
    next hcontent => exact ⟨hmain, hcontent, huntitled, unusable_of_mem hfault h⟩

/-! ### Rows -/

section Relocated

variable (f : Nat → Nat) (notes : Array Note)

theorem Row.members_relocated (row : Int) :
    members (notes.toList.map (Note.relocated f)).zipIdx row =
      (members notes.toList.zipIdx row).map (Prod.map (Note.relocated f) fun i => i) := by
  have hsort := List.map_mergeSort (f := Prod.map (Note.relocated f) fun i : Nat => i)
    (r := fun a b => Number.totalLe a.1.position b.1.position)
    (s := fun a b => Number.totalLe a.1.position b.1.position)
    (l := notes.toList.zipIdx.filter fun n => n.1.row == row) fun _ _ _ _ => rfl
  unfold members
  rw [hsort, List.zipIdx_map, List.filter_map]
  rfl

theorem Row.ofMembers_relocated (declared : List (Int × Nat)) (row : Int) :
    ofMembers declared (notes.toList.map (Note.relocated f)).zipIdx row =
      ofMembers declared notes.toList.zipIdx row := by
  simp [ofMembers, members_relocated, leastIndent?, extentOf, List.foldl_map, Function.comp_def]

/-- Rows do not depend on the numbers of lines. -/
theorem Chart.rows_ofParts_relocated (declared : List (Int × Nat))
    (metadata metadata' : List (String × String)) (diagnostics diagnostics' : List Diagnostic) :
    (ofParts (notes.map (Note.relocated f)) declared metadata diagnostics).rows =
      (ofParts notes declared metadata' diagnostics').rows := by
  have hids : (notes.toList.map (Note.relocated f)).map Note.row = notes.toList.map Note.row := by
    simp [Function.comp_def]
  simp [ofParts, Row.ofMembers_relocated, hids]

/-- Charts of notes that only differ in the numbers of their lines have the same rows. -/
theorem Chart.rows_ofParts_congr {notes notes' : Array Note}
    (h : notes.map Note.unnumbered = notes'.map Note.unnumbered) (declared : List (Int × Nat))
    (metadata metadata' : List (String × String)) (diagnostics diagnostics' : List Diagnostic) :
    (ofParts notes declared metadata diagnostics).rows =
      (ofParts notes' declared metadata' diagnostics').rows := by
  have hunnumbered : ∀ notes, (ofParts (notes.map Note.unnumbered) declared metadata diagnostics).rows =
      (ofParts notes declared metadata' diagnostics').rows := fun notes =>
    rows_ofParts_relocated (fun _ => 0) notes declared _ _ _ _
  rw [← hunnumbered notes', ← h]
  exact (rows_ofParts_relocated (fun _ => 0) notes declared _ _ _ _).symm

end Relocated

/-! ### Texts -/

/-- A line that is rejected after some lines adds its diagnostic to the chart.  Rows, notes and metadata stay
as they are without it, and the diagnostics of the lines after it move on by one line. -/
theorem Chart.ofText_insert_rejected {text text' : String} {before after : List (List Char)}
    {raw : List Char} {fault : Fault} (htext : Text.lines text.toList = before ++ raw :: after)
    (htext' : Text.lines text'.toList = before ++ after)
    (hraw : (Scan.start.lines (before.zipIdx 1)).Rejects raw fault) :
    let c := ofText text
    let c' := ofText text'
    c.rows = c'.rows ∧ c.notes.map Note.unnumbered = c'.notes.map Note.unnumbered ∧
      c.metadata = c'.metadata ∧
      ∃ earlier later, c'.diagnostics = earlier ++ later ∧ (∀ d ∈ earlier, d.line ≤ before.length) ∧
        (∀ d ∈ later, before.length < d.line) ∧
        c.diagnostics = earlier ++
          ⟨before.length + 1, fault⟩ :: later.map (Diagnostic.relocated (· + 1)) := by
  intro c c'
  set a := Scan.start.lines (before.zipIdx 1) with ha
  set b := a.bare.lines (after.zipIdx (before.length + 1)) with hb
  -- Either way the later lines are read after the earlier ones, which leave notes and diagnostics to them.
  have hplain : c' = (b.relocated id a.notes a.diagnostics).chart := by
    refine (ofText_of_lines htext').trans ?_
    rw [Scan.lines_append, ← ha, Nat.add_comm 1, Scan.lines_eq]
  have hinserted : c =
      (b.relocated (· + 1) a.notes (a.diagnostics.push ⟨before.length + 1, fault⟩)).chart := by
    have hshift : (after.zipIdx (before.length + 1)).map (Prod.map id (· + 1)) =
        after.zipIdx (before.length + 1 + 1) := List.zipIdx_succ.symm
    refine (ofText_of_lines htext).trans ?_
    rw [Scan.lines_append, ← ha, hb, Scan.relocated_lines, Scan.relocated_bare, hshift, Nat.add_comm 1,
      List.zipIdx_cons, Scan.lines_cons, Scan.line_of_rejects hraw]
    rfl
  have hnotes : (b.relocated (· + 1) a.notes (a.diagnostics.push ⟨before.length + 1, fault⟩)).notes.map
      Note.unnumbered = (b.relocated id a.notes a.diagnostics).notes.map Note.unnumbered := by
    simp [Scan.relocated, Function.comp_def]
  have hdeclared : (b.relocated (· + 1) a.notes
      (a.diagnostics.push ⟨before.length + 1, fault⟩)).closeRow.declared =
        (b.relocated id a.notes a.diagnostics).closeRow.declared := by
    rw [← Scan.relocated_closeRow, ← Scan.relocated_closeRow]
    rfl
  rw [hplain, hinserted]
  refine ⟨?_, hnotes, rfl, a.diagnostics.toList, b.diagnostics.toList, ?_, ?_, ?_, ?_⟩
  · unfold Scan.chart
    rw [hdeclared]
    exact rows_ofParts_congr hnotes _ _ _ _ _
  · simp [Scan.chart, Scan.relocated, ofParts]
  · intro d hd
    apply Scan.mem_diagnostics_lines (P := (· ≤ before.length)) Scan.start _ (Nat.zero_le _) d
    · exact Array.mem_toList_iff.mp hd
    · intro l hl
      have := List.snd_lt_of_mem_zipIdx hl
      omega
  · intro d hd
    apply Scan.mem_diagnostics_lines (P := (before.length < ·)) a _ (Nat.lt_succ_self _) d
    · exact Array.mem_toList_iff.mp hd
    · intro l hl
      have := List.le_snd_of_mem_zipIdx hl
      omega
  · simp [Scan.chart, Scan.relocated, ofParts]

theorem Chart.ofText_insert_rejected_sample :
    let before := ["# Main".toList, "-1:".toList, "x:[t]".toList]
    let c := ofText "# Main\n-1:\nx:[t]\n1:[t\n2:[1;h]\n-1:\n"
    let c' := ofText "# Main\n-1:\nx:[t]\n2:[1;h]\n-1:\n"
    (Scan.start.lines (before.zipIdx 1)).Rejects "1:[t".toList (.unrecognized "1:[t".toList) ∧
      c.rows = c'.rows ∧ c.notes.map Note.unnumbered = c'.notes.map Note.unnumbered ∧
      c.metadata = c'.metadata ∧
      ∃ earlier later, c'.diagnostics = earlier ++ later ∧ (∀ d ∈ earlier, d.line ≤ before.length) ∧
        (∀ d ∈ later, before.length < d.line) ∧
        c.diagnostics = earlier ++ ⟨4, .unrecognized "1:[t".toList⟩ ::
          later.map (Diagnostic.relocated (· + 1)) := by
  intro before c c'
  have hrejects : (Scan.start.lines (before.zipIdx 1)).Rejects "1:[t".toList
      (.unrecognized "1:[t".toList) :=
    ⟨by decide +kernel, by decide +kernel, by decide +kernel, .unrecognized (by decide +kernel)⟩
  have htext : Text.lines "# Main\n-1:\nx:[t]\n1:[t\n2:[1;h]\n-1:\n".toList =
      before ++ "1:[t".toList :: ["2:[1;h]".toList, "-1:".toList] := by decide +kernel
  have htext' : Text.lines "# Main\n-1:\nx:[t]\n2:[1;h]\n-1:\n".toList =
      before ++ ["2:[1;h]".toList, "-1:".toList] := by decide +kernel
  exact ⟨hrejects, ofText_insert_rejected htext htext' hrejects⟩

example : (Chart.ofText "# Main\n-1:\nx:[t]\n1:[t\n2:[1;h]\n-1:\n").diagnostics.map
    Diagnostic.line = [3, 4, 6] := by decide +kernel

end RhythmChart
