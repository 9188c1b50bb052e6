import Mathlib.Tactic.SplitIfs
import RhythmChart.Chart.Scan

/-! # What a scan does with a line

What is read of a line depends neither on the notes and the diagnostics that were read before it, nor on
the number of the line, which is only passed on to them.

Main statements.

* `Scan.relocated_lines`: lines with other numbers, read after other notes and diagnostics, give the same
  notes and diagnostics with these numbers;
* `Scan.lines_eq`: so reading adds to the notes and the diagnostics what is read without them;
* `Scan.openRow_fresh` and `Scan.declared_closeRow`: what a header does that opens a new row. -/

namespace RhythmChart

/-! ### Numbers of lines -/

/-- The note, read of another line. -/
def Note.relocated (f : Nat → Nat) (n : Note) : Note := { n with line := f n.line }

/-- The note without the number of its line. -/
def Note.unnumbered (n : Note) : Note := { n with line := 0 }

/-- The diagnostic of another line. -/
def Diagnostic.relocated (f : Nat → Nat) (d : Diagnostic) : Diagnostic := { d with line := f d.line }

@[simp]
theorem Note.row_relocated (f : Nat → Nat) (n : Note) : (n.relocated f).row = n.row := rfl

@[simp]
theorem Note.indent_relocated (f : Nat → Nat) (n : Note) : (n.relocated f).indent = n.indent := rfl

@[simp]
theorem Note.finish_relocated (f : Nat → Nat) (n : Note) : (n.relocated f).finish = n.finish := rfl

@[simp]
theorem Note.row_unnumbered (n : Note) : n.unnumbered.row = n.row := rfl

@[simp]
theorem Note.indent_unnumbered (n : Note) : n.unnumbered.indent = n.indent := rfl

@[simp]
theorem Note.finish_unnumbered (n : Note) : n.unnumbered.finish = n.finish := rfl

@[simp]
theorem Note.unnumbered_relocated (f : Nat → Nat) (n : Note) :
    (n.relocated f).unnumbered = n.unnumbered := rfl

@[simp]
theorem Note.relocated_id : Note.relocated id = id := rfl

@[simp]
theorem Diagnostic.relocated_id : Diagnostic.relocated id = id := rfl

namespace Scan

/-! ### Single lines -/

/-- What a line says, without its comment and the blanks around it. -/
def stripped (raw : List Char) : List Char := Text.trim (Text.uncommented raw)

theorem lines_cons (s : Scan) (raw : List Char) (number : Nat) (numbered : List (List Char × Nat)) :
    s.lines ((raw, number) :: numbered) = (s.line number raw).lines numbered := rfl

/-- A text is read in two parts. -/
theorem lines_append (s : Scan) (a b : List (List Char)) (number : Nat) :
    s.lines ((a ++ b).zipIdx number) =
      (s.lines (a.zipIdx number)).lines (b.zipIdx (number + a.length)) := by
  unfold lines
  rw [List.zipIdx_append, List.foldl_append]

theorem line_eq (s : Scan) (number : Nat) (raw : List Char) :
    s.line number raw = if stripped raw = [] then s else s.content number (stripped raw) := by
  change (if (stripped raw).isEmpty then s else s.content number (stripped raw)) = _
  cases stripped raw <;> rfl

theorem content_main {s : Scan} (hpart : s.part = .main) {c : Char} (hc : c ≠ '#') (rest : List Char)
    (number : Nat) : s.content number (c :: rest) = s.mainLine number (c :: rest) := by
  unfold content
  split
  · next heq => exact absurd (List.cons.inj heq).1 hc
  · rw [hpart]

/-- A line of the main section that does not begin as a header of a section. -/
theorem line_main {s : Scan} (hpart : s.part = .main) {raw : List Char}
    (huntitled : (stripped raw).head? ≠ some '#') (number : Nat) :
    s.line number raw = if stripped raw = [] then s else s.mainLine number (stripped raw) := by
  rw [line_eq]
  cases htext : stripped raw with
  | nil => rfl
  | cons c rest =>
      rw [htext] at huntitled
      exact content_main hpart (by simpa using huntitled) rest number

/-- Closing a row only settles its indent. -/
theorem closeRow_eq (s : Scan) : s.closeRow = { s with declared := s.closeRow.declared } := by
  unfold closeRow
  split <;> rfl

/-- The remarks on a cell are reported one after the other. -/
theorem foldl_report (line : Nat) (remarks : List CellRemark) (s : Scan) :
    remarks.foldl (fun s r => s.report line (.remark r)) s =
      { s with
        diagnostics := s.diagnostics ++ (remarks.map fun r => (⟨line, .remark r⟩ : Diagnostic)).toArray } := by
  induction remarks generalizing s with
  | nil => simp
  | cons r remarks ih =>
      rw [List.foldl_cons, ih]
      simp [report]

/-- Adding a note only adds to the notes and to the diagnostics. -/
theorem addNote_eq (s : Scan) (line : Nat) (text position cell : List Char) :
    s.addNote line text position cell =
      { s with
        notes := (s.addNote line text position cell).notes
        diagnostics := (s.addNote line text position cell).diagnostics } := by
  unfold addNote
  split
  · rfl
  · rfl
  · rfl
  · rw [foldl_report]

/-- A new row is opened without a remark. -/
theorem openRow_fresh {s : Scan} {id : Int} (h : id ∉ s.closeRow.declared.map Prod.fst) (number : Nat) :
    s.openRow number id =
      { s with declared := s.closeRow.declared ++ [(id, 0)], row := some id, tab := 0 } := by
  have hnone : (s.closeRow.declared.any fun entry => entry.1 == id) = false := by
    refine List.any_eq_false.mpr fun entry hentry heq => h ?_
    exact (beq_iff_eq.mp heq) ▸ List.mem_map_of_mem hentry
  unfold openRow
  dsimp only
  rw [hnone, closeRow_eq s]
  rfl

theorem declared_closeRow {s : Scan} {id : Int} {before : List (Int × Nat)} {indent : Nat}
    (hrow : s.row = some id) (hdeclared : s.declared = before ++ [(id, indent)])
    (hnew : id ∉ before.map Prod.fst) : s.closeRow.declared = before ++ [(id, s.tab)] := by
  have hbefore : before.map (fun entry => if entry.1 = id then (id, s.tab) else entry) = before := by
    refine (List.map_congr_left fun entry hentry => if_neg fun heq => hnew ?_).trans (List.map_id before)
    exact heq ▸ List.mem_map_of_mem hentry
  unfold closeRow
  rw [hrow]
  dsimp only
  rw [hdeclared, List.map_append, hbefore]
  simp

/-! ### Reading elsewhere -/

/-- The scan with other numbers of lines, after the given notes and diagnostics. -/
def relocated (f : Nat → Nat) (notes : Array Note) (diagnostics : Array Diagnostic) (s : Scan) : Scan :=
  { s with
    notes := notes ++ s.notes.map (Note.relocated f)
    diagnostics := diagnostics ++ s.diagnostics.map (Diagnostic.relocated f) }

/-- The scan without the notes and the diagnostics. -/
def bare (s : Scan) : Scan := { s with notes := #[], diagnostics := #[] }

theorem relocated_bare (s : Scan) (f : Nat → Nat) (notes : Array Note) (diagnostics : Array Diagnostic) :
    s.bare.relocated f notes diagnostics = { s with notes, diagnostics } := by
  simp [bare, relocated]

section Relocated

variable (f : Nat → Nat) (notes : Array Note) (diagnostics : Array Diagnostic) (s : Scan)

theorem relocated_report (line : Nat) (fault : Fault) :
    (s.report line fault).relocated f notes diagnostics =
      (s.relocated f notes diagnostics).report (f line) fault := by
  simp [relocated, report, Diagnostic.relocated]

theorem relocated_closeRow :
    s.closeRow.relocated f notes diagnostics = (s.relocated f notes diagnostics).closeRow := by
  obtain ⟨part, row, tab, ns, declared, metadata, ds⟩ := s
  cases row <;> rfl

theorem relocated_openRow (line : Nat) (row : Int) :
    (s.openRow line row).relocated f notes diagnostics =
      (s.relocated f notes diagnostics).openRow (f line) row := by
  unfold openRow
  rw [← relocated_closeRow]
  generalize s.closeRow = closed
  have hdeclared : (closed.relocated f notes diagnostics).declared = closed.declared := rfl
  dsimp only
  rw [hdeclared]
  by_cases h : (closed.declared.any fun entry => entry.1 == row) = true
  · simp only [if_pos h, ← relocated_report]
    rfl
  · simp only [if_neg h]
    rfl

theorem relocated_addNote (line : Nat) (text position cell : List Char) :
    (s.addNote line text position cell).relocated f notes diagnostics =
      (s.relocated f notes diagnostics).addNote (f line) text position cell := by
  have hrow : (s.relocated f notes diagnostics).row = s.row := rfl
  unfold addNote
  rw [hrow]
  cases s.row with
  | none => exact relocated_report f notes diagnostics s line _
  | some row =>
      cases position? position with
      | none => exact relocated_report f notes diagnostics s line _
      | some p =>
          cases Cell.read cell with
          | error e => exact relocated_report f notes diagnostics s line _
          | ok read =>
              obtain ⟨cell, remarks⟩ := read
              simp [foldl_report, relocated, Note.relocated, Diagnostic.relocated, noteOf, Function.comp_def]

theorem relocated_mainLine (line : Nat) (text : List Char) :
    (s.mainLine line text).relocated f notes diagnostics =
      (s.relocated f notes diagnostics).mainLine (f line) text := by
  unfold mainLine
  cases MainLine.ofText text with
  | tab level =>
      dsimp only
      cases Number.count? level with
      | none => exact relocated_report f notes diagnostics s line _
      | some n => rfl
  | header row =>
      dsimp only
      cases Number.int32? row with
      | none => exact relocated_report f notes diagnostics s line _
      | some row => exact relocated_openRow f notes diagnostics s line row
  | note position cell => exact relocated_addNote f notes diagnostics s line text position cell
  | unrecognized => exact relocated_report f notes diagnostics s line _

theorem relocated_content (line : Nat) (text : List Char) :
    (s.content line text).relocated f notes diagnostics =
      (s.relocated f notes diagnostics).content (f line) text := by
  have hpart : (s.relocated f notes diagnostics).part = s.part := rfl
  unfold content
  split
  · rw [← relocated_closeRow]
    rfl
  · rw [hpart]
    cases s.part with
    | outside => rfl
    | metadata =>
        unfold metadataLine
        cases Text.cutAt? ':' text <;> rfl
    | main => exact relocated_mainLine f notes diagnostics s line text

theorem relocated_line (number : Nat) (raw : List Char) :
    (s.line number raw).relocated f notes diagnostics =
      (s.relocated f notes diagnostics).line (f number) raw := by
  unfold line
  dsimp only
  split_ifs
  · rfl
  · exact relocated_content f notes diagnostics s number _

/-- Lines with other numbers, read after other notes and diagnostics. -/
theorem relocated_lines (numbered : List (List Char × Nat)) :
    (s.lines numbered).relocated f notes diagnostics =
      (s.relocated f notes diagnostics).lines (numbered.map (Prod.map id f)) := by
  induction numbered generalizing s with
  | nil => rfl
  | cons l numbered ih =>
      rw [lines_cons, ih, relocated_line, List.map_cons]
      rfl

end Relocated

/-- Reading adds to the notes and the diagnostics what is read without them. -/
theorem lines_eq (s : Scan) (numbered : List (List Char × Nat)) :
    s.lines numbered = (s.bare.lines numbered).relocated id s.notes s.diagnostics := by
  rw [relocated_lines, relocated_bare]
  simp

/-- The numbers of diagnostics are numbers of lines. -/
theorem mem_diagnostics_lines {P : Nat → Prop} [DecidablePred P] (s : Scan)
    {numbered : List (List Char × Nat)} (h : ∀ l ∈ numbered, P l.2) {n : Nat} (hn : P n) :
    ∀ d ∈ (s.bare.lines numbered).diagnostics, P d.line := by
  -- Renumbering by a function into `P` that fixes `P` changes nothing.
  have hfixed : numbered.map (Prod.map id fun m => if P m then m else n) = numbered := by
    refine (List.map_congr_left fun l hl => ?_).trans (List.map_id numbered)
    simp [Prod.map, h l hl]
  have hlines := relocated_lines (fun m => if P m then m else n) #[] #[] s.bare numbered
  rw [hfixed, relocated_bare] at hlines
  intro d hd
  have hd' : d ∈ ((s.bare.lines numbered).relocated (fun m => if P m then m else n) #[] #[]).diagnostics := by
    rw [hlines]
    exact hd
  simp only [relocated, Array.empty_append, Array.mem_map] at hd'
  obtain ⟨e, -, rfl⟩ := hd'
  simp only [Diagnostic.relocated]
  split_ifs with hp
  · exact hp
  · exact hn

end Scan

theorem Chart.ofText_of_lines {text : String} {lines : List (List Char)}
    (h : Text.lines text.toList = lines) : ofText text = (Scan.start.lines (lines.zipIdx 1)).chart := by
  rw [ofText, h]
  rfl

end RhythmChart
