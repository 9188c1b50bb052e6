import RhythmChart.Chart.Scan
import RhythmChart.Proofs.Binary64.Quotient
import RhythmChart.Proofs.Cells
import RhythmChart.Proofs.Flow.Sites
import RhythmChart.Proofs.Scanning

/-! # Charts that are written and read

How rows are written as a chart text, and that they are read back.

Main statements.

* `Draft.text` writes rows, `Draft.Writable` tells the rows that can be written;
* `Tidy.line`: a line without a comment and without blanks at its ends is read as it stands;
* `Scan.Holds.lines_draft`: reading the lines of one more row adds that row and nothing else;
* `Chart.drafts_ofText`: the rows of a text that was written are read back, by falling id. -/

namespace RhythmChart

open Binary64 Number Text

/-! ### Writing -/

/-- A note as it is written: its position, its indent and its cell. -/
structure Entry where
  position : Float
  indent : Nat
  cell : Cell

/-- A row as it is written. -/
structure Draft where
  id : Int
  indent : Nat
  entries : List Entry

/-- The line of an indent. -/
def tabText (indent : Nat) : List Char := "tab:".toList ++ naturalText indent

namespace Entry

/-- The line of a note. -/
def text (e : Entry) : List Char := positional e.position ++ ':' :: '[' :: (e.cell.text ++ [']'])

/-- A note is written after its indent. -/
def lines (e : Entry) : List (List Char) := [tabText e.indent, e.text]

/-- Positions are finite and not negative, indents have 32 bits. -/
def Writable (e : Entry) : Prop := IsLength e.position ∧ e.indent ≤ maxCount ∧ e.cell.Writable

instance (e : Entry) : Decidable e.Writable := inferInstanceAs (Decidable (_ ∧ _))

/-- Where the note ends. -/
def finish (e : Entry) : Float := e.position + e.cell.length

/-- A note that can be written ends at a number. -/
theorem isNumber_finish {e : Entry} (h : e.Writable) : IsNumber e.finish := by
  obtain ⟨⟨hposition, -⟩, -, ⟨hlength, -⟩, -⟩ := h
  have hle : e.position ≤ e.finish :=
    le_add_of_nonneg ((zero_le_iff _).mp hposition).1 (not_bot_of_zero_le hposition) hlength
  exact ((le_iff _ _).mp hle).2.1

/-- What a note was written as. -/
def ofNote (n : Note) : Entry :=
  ⟨n.position, n.indent, ⟨n.noteType, n.length, n.loopCodes, n.branchCodes, n.commands, n.layers⟩⟩

theorem finish_ofNote (n : Note) : (ofNote n).finish = n.finish := rfl

/-- The row of a note, and what it was written as. -/
def placed (n : Note) : Int × Entry := (n.row, ofNote n)

end Entry

namespace Draft

/-- The header of a row. -/
def header (d : Draft) : List Char := '-' :: (naturalText d.id.natAbs ++ [':'])

/-- The lines after the header; a row without notes has its own indent. -/
def body (d : Draft) : List (List Char) :=
  if d.entries.isEmpty then [tabText d.indent] else d.entries.flatMap Entry.lines

/-- The lines of a row. -/
def lines (d : Draft) : List (List Char) := d.header :: d.body

/-- The lines of a chart. -/
def chartLines (rows : List Draft) : List (List Char) := "# Main".toList :: rows.flatMap lines

/-- The text of a chart; each line is ended by a line feed. -/
def text (rows : List Draft) : String :=
  String.ofList ((chartLines rows).flatMap fun l => l ++ ['\n'])

/-- The indent of a row is the least of its notes. -/
def IsIndented (d : Draft) : Prop :=
  d.entries.isEmpty = true ∨ (d.entries.map Entry.indent).min? = some d.indent

/-- Ids are not positive and have 32 bits, and notes come by position. -/
structure Writable (d : Draft) : Prop where
  id : -2147483648 ≤ d.id ∧ d.id ≤ 0
  indent : d.indent ≤ maxCount
  entries : ∀ e ∈ d.entries, e.Writable
  sorted : d.entries.Pairwise fun a b => totalLe a.position b.position = true
  indented : d.IsIndented

instance (d : Draft) : Decidable d.IsIndented := inferInstanceAs (Decidable (_ ∨ _))

instance (d : Draft) : Decidable d.Writable :=
  decidable_of_iff ((-2147483648 ≤ d.id ∧ d.id ≤ 0) ∧ d.indent ≤ maxCount ∧
      (∀ e ∈ d.entries, e.Writable) ∧
      d.entries.Pairwise (fun a b => totalLe a.position b.position = true) ∧ d.IsIndented)
    ⟨fun ⟨hid, hindent, hentries, hsorted, hindented⟩ => ⟨hid, hindent, hentries, hsorted, hindented⟩,
      fun h => ⟨h.id, h.indent, h.entries, h.sorted, h.indented⟩⟩

/-- The notes of a row with its id. -/
def placed (d : Draft) : List (Int × Entry) := d.entries.map fun e => (d.id, e)

/-- The indent in effect after the lines of a row. -/
def lastIndent (d : Draft) : Nat := d.entries.foldl (fun _ e => e.indent) d.indent

/-- What a row of a chart was written as. -/
def ofRow (c : Chart) (r : Row) : Draft :=
  ⟨r.id, r.indent, (c.notesOf r).map fun n => Entry.ofNote n.2⟩

end Draft

/-! ### Lines -/

/-- The characters of lines. -/
def isLineChar (c : Char) : Bool := isCellChar c || c == ':' || c == '[' || c == ']'

theorem isLineChar_of_isCellChar {c : Char} (h : isCellChar c = true) : isLineChar c = true := by
  simp [isLineChar, h]

theorem isLineChar_of_isNumberChar {c : Char} (h : isNumberChar c = true) : isLineChar c = true :=
  isLineChar_of_isCellChar (isCellChar_of_isTokenChar (isTokenChar_of_isNumberChar h))

/-- A line without a comment, whose ends are not blank. -/
structure Tidy (l : List Char) : Prop where
  slash : '/' ∉ l
  feed : '\n' ∉ l
  first : ∃ c rest, l = c :: rest ∧ isBlank c = false
  last : ∀ c ∈ l.getLast?, isBlank c = false

theorem Tidy.of_isLineChar {l : List Char} (h : ∀ c ∈ l, isLineChar c = true)
    (hfirst : ∃ c rest, l = c :: rest ∧ isBlank c = false) (hlast : ∀ c ∈ l.getLast?, isBlank c = false) :
    Tidy l := ⟨not_mem_of_forall h rfl, not_mem_of_forall h rfl, hfirst, hlast⟩

/-- A line without a comment and without blanks at its ends is read as it stands. -/
theorem Tidy.line {l : List Char} (h : Tidy l) (s : Scan) (number : Nat) :
    s.line number l = s.content number l := by
  obtain ⟨c, rest, rfl, hc⟩ := h.first
  have htrim : trim (c :: rest) = c :: rest := by
    refine trim_of_ends (fun d hd => ?_) h.last
    cases hd
    exact hc
  unfold Scan.line
  rw [uncommented_of_not_mem h.slash, htrim]
  rfl

theorem tidy_title : Tidy "# Main".toList where
  slash := by simp
  feed := by simp
  first := ⟨'#', " Main".toList, rfl, rfl⟩
  last := fun c hc => by
    cases hc
    rfl

theorem tidy_tabText (n : Nat) : Tidy (tabText n) := by
  refine Tidy.of_isLineChar ?_ ⟨'t', _, rfl, rfl⟩ ?_
  · refine List.forall_mem_append.mpr ⟨List.all_eq_true.mp rfl, fun c hc => ?_⟩
    exact isLineChar_of_isNumberChar (isNumberChar_naturalText c hc)
  · rw [tabText, List.getLast?_append_of_ne_nil _ (naturalText_ne_nil n)]
    exact fun c hc => solid_of_isNumberChar isNumberChar_naturalText c (List.mem_of_mem_getLast? hc)

theorem Draft.tidy_header (d : Draft) : Tidy d.header := by
  refine Tidy.of_isLineChar ?_ ⟨'-', _, rfl, rfl⟩ fun c hc => ?_
  · refine List.forall_mem_cons.mpr ⟨rfl, List.forall_mem_append.mpr ⟨fun c hc => ?_, ?_⟩⟩
    · exact isLineChar_of_isNumberChar (isNumberChar_naturalText c hc)
    · exact List.forall_mem_singleton.mpr rfl
  · rw [header, ← List.cons_append, List.getLast?_concat] at hc
    cases hc
    rfl

/-- A number begins with a character that no other line begins with. -/
theorem exists_positional_cons {x : Float} (h : IsLength x) :
    ∃ c rest, positional x = c :: rest ∧ isNumberChar c = true := by
  obtain ⟨hne, hchars⟩ := isNumberChar_positional h.2
  obtain ⟨c, rest, heq⟩ := List.exists_cons_of_ne_nil hne
  exact ⟨c, rest, heq, hchars c (heq ▸ List.mem_cons_self)⟩

theorem Entry.tidy_text {e : Entry} (h : e.Writable) : Tidy e.text := by
  refine Tidy.of_isLineChar ?_ ?_ fun c hc => ?_
  · refine List.forall_mem_append.mpr ⟨fun c hc => ?_, List.forall_mem_cons.mpr ⟨rfl, ?_⟩⟩
    · exact isLineChar_of_isNumberChar ((isNumberChar_positional h.1.2).2 c hc)
    · refine List.forall_mem_cons.mpr ⟨rfl, List.forall_mem_append.mpr ⟨fun c hc => ?_, ?_⟩⟩
      · exact isLineChar_of_isCellChar (Cell.isCellChar_text h.2.2 c hc)
      · exact List.forall_mem_singleton.mpr rfl
  · obtain ⟨c, rest, heq, hc⟩ := exists_positional_cons h.1
    exact ⟨c, _, by rw [text, heq, List.cons_append], isBlank_of_isNumberChar hc⟩
  · rw [text, ← List.cons_append, ← List.cons_append, ← List.append_assoc, List.getLast?_concat] at hc
    cases hc
    rfl

theorem Draft.tidy_lines {d : Draft} (h : d.Writable) : ∀ l ∈ d.lines, Tidy l := by
  refine List.forall_mem_cons.mpr ⟨d.tidy_header, ?_⟩
  unfold body
  split_ifs
  · exact List.forall_mem_singleton.mpr (tidy_tabText d.indent)
  · refine List.forall_mem_flatMap.mpr fun e he => List.forall_mem_cons.mpr ⟨tidy_tabText e.indent, ?_⟩
    exact List.forall_mem_singleton.mpr (Entry.tidy_text (h.entries e he))

/-! ### Forms of lines -/

namespace MainLine

theorem ofText_tabText (n : Nat) : ofText (tabText n) = .tab (naturalText n) := by
  unfold ofText tabText
  rw [afterPrefix?_append]
  dsimp only
  rw [trim_of_solid (solid_of_isNumberChar isNumberChar_naturalText)]

/-- Only the line of an indent begins with a letter. -/
theorem afterPrefix?_tab {c : Char} (h : 't' ≠ c) (rest : List Char) :
    afterPrefix? "tab:".toList (c :: rest) = none := if_neg h

theorem ofText_header (d : Draft) : ofText d.header = .header ('-' :: naturalText d.id.natAbs) := by
  have hdigits : ∀ c ∈ '-' :: naturalText d.id.natAbs, isNumberChar c = true :=
    List.forall_mem_cons.mpr ⟨rfl, isNumberChar_naturalText⟩
  have hid : headerId? d.header = some ('-' :: naturalText d.id.natAbs) := by
    have hbracket : ('-' :: naturalText d.id.natAbs).contains '[' = false := by
      simpa using not_mem_of_forall hdigits (d := '[') rfl
    unfold headerId?
    rw [Draft.header, ← List.cons_append, beforeLast?_concat, Option.bind_some,
      if_pos ⟨rfl, by rw [hbracket]; rfl⟩, trim_of_solid (solid_of_isNumberChar hdigits)]
  have htab : afterPrefix? "tab:".toList d.header = none := afterPrefix?_tab (by decide) _
  unfold ofText
  rw [htab, hid]

theorem ofText_entry {e : Entry} (h : e.Writable) :
    ofText e.text = .note (positional e.position) e.cell.text := by
  obtain ⟨hne, hchars⟩ := isNumberChar_positional h.1.2
  have hparts : noteParts? e.text = some (positional e.position, e.cell.text) := by
    have hrest : trim ('[' :: (e.cell.text ++ [']'])) = '[' :: (e.cell.text ++ [']']) := by
      refine trim_of_ends (fun c hc => ?_) fun c hc => ?_
      · cases hc
        rfl
      · rw [← List.cons_append, List.getLast?_concat] at hc
        cases hc
        rfl
    unfold noteParts?
    rw [Entry.text, cutAt?_append (not_mem_of_forall hchars rfl), Option.bind_some]
    dsimp only
    rw [hrest, ← List.singleton_append (l := e.cell.text ++ [']']), afterPrefix?_append, Option.bind_some,
      beforeLast?_concat, Option.map_some, trim_of_solid (solid_of_isNumberChar hchars)]
  have hid : headerId? e.text = none := by
    unfold headerId?
    rw [Entry.text, ← List.cons_append, ← List.cons_append, ← List.append_assoc,
      beforeLast?_of_ne _ (by decide), Option.bind_none]
  have htab : afterPrefix? "tab:".toList e.text = none := by
    obtain ⟨c, rest, heq, hc⟩ := exists_positional_cons h.1
    rw [Entry.text, heq]
    refine afterPrefix?_tab (fun ht => ?_) _
    rw [← ht] at hc
    cases hc
  unfold ofText
  rw [htab, hid, hparts]

end MainLine

/-! ### Reading lines -/

namespace Scan

theorem line_tabText {s : Scan} (hpart : s.part = .main) {n : Nat} (hn : n ≤ maxCount) (number : Nat) :
    s.line number (tabText n) = { s with tab := n } := by
  have hcontent : s.content number (tabText n) = s.mainLine number (tabText n) :=
    content_main hpart (by decide) _ number
  rw [(tidy_tabText n).line, hcontent, mainLine, MainLine.ofText_tabText]
  dsimp only
  rw [count?_naturalText hn]

theorem line_header {s : Scan} (hpart : s.part = .main) {d : Draft} (h : d.Writable) (number : Nat) :
    s.line number d.header = s.openRow number d.id := by
  have hcontent : s.content number d.header = s.mainLine number d.header :=
    content_main hpart (by decide) _ number
  rw [d.tidy_header.line, hcontent, mainLine, MainLine.ofText_header]
  dsimp only
  rw [int32?_minus h.id.1 h.id.2]

theorem position?_positional {x : Float} (h : IsLength x) : position? (positional x) = some x := by
  unfold position?
  rw [float?_positional h.2]
  exact h.filter_some

theorem line_entry {s : Scan} (hpart : s.part = .main) {row : Int} (hrow : s.row = some row) {e : Entry}
    (h : e.Writable) (number : Nat) :
    s.line number e.text =
      { s with notes := s.notes.push (noteOf row s.tab number e.position e.cell) } := by
  have hcontent : s.content number e.text = s.mainLine number e.text := by
    obtain ⟨c, rest, heq, hc⟩ := exists_positional_cons h.1
    rw [Entry.text, heq]
    refine content_main hpart (fun hhash => ?_) _ number
    rw [hhash] at hc
    cases hc
  rw [(Entry.tidy_text h).line, hcontent, mainLine, MainLine.ofText_entry h]
  dsimp only
  unfold addNote
  rw [position?_positional h.1, Cell.read_text h.2.2]
  split
  · next heq => cases hrow.symm.trans heq
  · next h => cases h
  · next h => cases h
  · next heq hp hcell =>
      cases hrow.symm.trans heq
      cases hp
      cases hcell
      rfl

/-- The notes of a row are read one after the other. -/
theorem lines_entries {s : Scan} (hpart : s.part = .main) {row : Int} (hrow : s.row = some row)
    {entries : List Entry} (h : ∀ e ∈ entries, e.Writable) (number : Nat) :
    ∃ notes : Array Note, s.lines ((entries.flatMap Entry.lines).zipIdx number) =
        { s with notes, tab := entries.foldl (fun _ e => e.indent) s.tab } ∧
      notes.toList.map Entry.placed = s.notes.toList.map Entry.placed ++ entries.map fun e => (row, e) := by
  induction entries generalizing s number with
  | nil => exact ⟨s.notes, rfl, (List.append_nil _).symm⟩
  | cons e entries ih =>
      have he := h e List.mem_cons_self
      set note := noteOf row e.indent (number + 1) e.position e.cell
      -- The first line sets the indent that the second one reads.
      have hfirst : s.lines (e.lines.zipIdx number) =
          { s with tab := e.indent, notes := s.notes.push note } := by
        change (s.line number (tabText e.indent)).line (number + 1) e.text = _
        rw [line_tabText hpart he.2.1, line_entry (s := { s with tab := e.indent }) hpart hrow he]
      rw [List.flatMap_cons, lines_append, hfirst]
      obtain ⟨notes, hrest, hnotes⟩ := ih (s := { s with tab := e.indent, notes := s.notes.push note })
        hpart hrow (fun k hk => h k (List.mem_cons_of_mem _ hk)) (number + e.lines.length)
      refine ⟨notes, hrest, hnotes.trans ?_⟩
      rw [Array.toList_push, List.map_append, List.append_assoc]
      rfl

/-- The lines of these rows were read, and nothing else.  The row that is open counts as it will be closed. -/
structure Holds (s : Scan) (rows : List Draft) : Prop where
  part : s.part = .main
  notes : s.notes.toList.map Entry.placed = rows.flatMap Draft.placed
  declared : s.closeRow.declared = rows.map fun d => (d.id, d.lastIndent)
  metadata : s.metadata = #[]
  diagnostics : s.diagnostics = #[]

/-- The title begins the main section. -/
theorem holds_title : (start.line 1 "# Main".toList).Holds [] := by
  rw [tidy_title.line]
  exact ⟨rfl, rfl, rfl, rfl, rfl⟩

/-- Reading the lines after a header gives the notes of the row. -/
theorem lines_body {s : Scan} (hpart : s.part = .main) {d : Draft} (hrow : s.row = some d.id)
    (h : d.Writable) (number : Nat) :
    ∃ notes : Array Note, s.lines (d.body.zipIdx number) = { s with notes, tab := d.lastIndent } ∧
      notes.toList.map Entry.placed = s.notes.toList.map Entry.placed ++ d.placed := by
  unfold Draft.body Draft.lastIndent Draft.placed
  split_ifs with hempty
  · refine ⟨s.notes, ?_, ?_⟩
    · rw [List.isEmpty_iff.mp hempty]
      exact line_tabText hpart h.indent number
    · rw [List.isEmpty_iff.mp hempty]
      exact (List.append_nil _).symm
  · obtain ⟨notes, hlines, hnotes⟩ := lines_entries hpart hrow h.entries number
    refine ⟨notes, hlines.trans ?_, hnotes⟩
    cases hentries : d.entries with
    | nil => exact absurd (List.isEmpty_iff.mpr hentries) hempty
    | cons e entries => rfl

/-- Reading the lines of one more row adds that row and nothing else. -/
theorem Holds.lines_draft {s : Scan} {rows : List Draft} (hs : s.Holds rows) {d : Draft} (h : d.Writable)
    (hnew : d.id ∉ rows.map Draft.id) (number : Nat) :
    (s.lines (d.lines.zipIdx number)).Holds (rows ++ [d]) := by
  have hids : d.id ∉ s.closeRow.declared.map Prod.fst := by
    rw [hs.declared, List.map_map]
    exact hnew
  have hheader : s.line number d.header =
      { s with declared := s.closeRow.declared ++ [(d.id, 0)], row := some d.id, tab := 0 } := by
    rw [line_header hs.part h, openRow_fresh hids]
  obtain ⟨notes, hbody, hnotes⟩ := lines_body (d := d)
    (s := { s with declared := s.closeRow.declared ++ [(d.id, 0)], row := some d.id, tab := 0 })
    hs.part rfl h (number + 1)
  -- The header closes the row before it, and the new row is still open after its last line.
  have hlines : s.lines (d.lines.zipIdx number) =
      { s with notes, declared := s.closeRow.declared ++ [(d.id, 0)], row := some d.id,
               tab := d.lastIndent } := by
    rw [Draft.lines, List.zipIdx_cons, lines_cons, hheader, hbody]
  rw [hlines]
  refine ⟨hs.part, ?_, ?_, hs.metadata, hs.diagnostics⟩
  · rw [hnotes, hs.notes, List.flatMap_append, List.flatMap_singleton]
  · rw [declared_closeRow rfl rfl hids, hs.declared, List.map_append]
    rfl

/-- Reading the lines of rows adds these rows and nothing else. -/
theorem Holds.lines_drafts {s : Scan} {before rows : List Draft} (hs : s.Holds before)
    (h : ∀ d ∈ rows, d.Writable) (hids : ((before ++ rows).map Draft.id).Nodup) (number : Nat) :
    (s.lines ((rows.flatMap Draft.lines).zipIdx number)).Holds (before ++ rows) := by
  induction rows generalizing s before number with
  | nil =>
      rw [List.append_nil]
      exact hs
  | cons d rows ih =>
      have hnew : d.id ∉ before.map Draft.id := by
        rw [List.map_append, List.map_cons] at hids
        exact fun hmem => List.disjoint_of_nodup_append hids hmem List.mem_cons_self
      rw [List.append_cons before d rows] at hids ⊢
      rw [List.flatMap_cons, lines_append]
      exact ih (hs.lines_draft (h d List.mem_cons_self) hnew number)
        (fun k hk => h k (List.mem_cons_of_mem _ hk)) hids _

/-- What was read of a text that was written. -/
theorem holds_text {rows : List Draft} (h : ∀ d ∈ rows, d.Writable) (hids : (rows.map Draft.id).Nodup) :
    (start.lines ((Text.lines (Draft.text rows).toList).zipIdx 1)).Holds rows := by
  have htidy : ∀ l ∈ Draft.chartLines rows, Tidy l := by
    refine List.forall_mem_cons.mpr ⟨tidy_title, List.forall_mem_flatMap.mpr fun d hd => ?_⟩
    exact Draft.tidy_lines (h d hd)
  have hlines : Text.lines (Draft.text rows).toList = Draft.chartLines rows := by
    rw [Draft.text, String.toList_ofList]
    refine lines_flatMap fun l hl => ⟨(htidy l hl).feed, fun hreturn => ?_⟩
    cases (htidy l hl).last _ hreturn
  rw [hlines, Draft.chartLines, List.zipIdx_cons]
  exact holds_title.lines_drafts h hids 2

end Scan

/-! ### Reading rows -/

namespace Draft

/-- The notes of one row among those of all rows. -/
theorem filter_flatMap_placed {rows : List Draft} (hids : (rows.map id).Nodup) {d : Draft} (hd : d ∈ rows) :
    (rows.flatMap placed).filter (fun p => p.1 == d.id) = d.placed := by
  induction rows with
  | nil => cases hd
  | cons first rows ih =>
      have hself : ∀ k : Draft, k.placed.filter (fun p => p.1 == d.id) =
          if k.id = d.id then k.placed else [] := by
        intro k
        split_ifs with hk
        · exact List.filter_eq_self.mpr (List.forall_mem_map.mpr fun e _ => beq_iff_eq.mpr hk)
        · exact List.filter_eq_nil_iff.mpr (List.forall_mem_map.mpr fun e _ heq => hk (beq_iff_eq.mp heq))
      rw [List.map_cons, List.nodup_cons] at hids
      rw [List.flatMap_cons, List.filter_append, hself]
      rcases List.mem_cons.mp hd with rfl | hrest
      · have hother : (rows.flatMap placed).filter (fun p => p.1 == d.id) = [] := by
          refine List.filter_eq_nil_iff.mpr (List.forall_mem_flatMap.mpr fun k hk => ?_)
          refine List.forall_mem_map.mpr fun e _ heq => hids.1 ?_
          have heq : k.id = d.id := beq_iff_eq.mp heq
          exact heq ▸ List.mem_map_of_mem hk
        rw [if_pos rfl, hother, List.append_nil]
      · have hne : first.id ≠ d.id := fun heq => hids.1 (heq ▸ List.mem_map_of_mem hrest)
        rw [if_neg hne, ih hids.2 hrest, List.nil_append]

theorem lookup_lastIndent {rows : List Draft} (hids : (rows.map id).Nodup) {d : Draft} (hd : d ∈ rows) :
    (rows.map fun k => (k.id, k.lastIndent)).lookup d.id = some d.lastIndent := by
  induction rows with
  | nil => cases hd
  | cons first rows ih =>
      rw [List.map_cons, List.nodup_cons] at hids
      rw [List.map_cons, List.lookup_cons]
      rcases List.mem_cons.mp hd with rfl | hrest
      · rw [beq_self_eq_true]
      · have hne : d.id ≠ first.id := fun heq => hids.1 (heq ▸ List.mem_map_of_mem hrest)
        rw [beq_eq_false_iff_ne.mpr hne]
        exact ih hids.2 hrest

end Draft

section
variable {rows : List Draft} {notes : Array Note} {declared : List (Int × Nat)}
  (hids : (rows.map Draft.id).Nodup) (hnotes : notes.toList.map Entry.placed = rows.flatMap Draft.placed)
include hids hnotes

/-- The notes of a row that was written are those it was written with. -/
theorem Row.map_members {d : Draft} (hd : d ∈ rows) (h : d.Writable) :
    (members notes.toList.zipIdx d.id).map (fun m => Entry.ofNote m.1) = d.entries := by
  have hindexed : (notes.toList.zipIdx.filter fun n => n.1.row == d.id).map Prod.fst =
      notes.toList.filter fun n => n.row == d.id := by
    have := List.filter_map (f := Prod.fst) (p := fun n : Note => n.row == d.id) (l := notes.toList.zipIdx)
    rw [List.zipIdx_map_fst] at this
    exact this.symm
  -- Filtering by row commutes with forgetting indices, and keeps the order of writing.
  have hrow : ((notes.toList.zipIdx.filter fun n => n.1.row == d.id).map fun m => Entry.ofNote m.1) =
      d.entries := by
    have hplaced := Draft.filter_flatMap_placed hids hd
    rw [← hnotes, List.filter_map] at hplaced
    calc ((notes.toList.zipIdx.filter fun n => n.1.row == d.id).map fun m => Entry.ofNote m.1)
        = ((notes.toList.zipIdx.filter fun n => n.1.row == d.id).map Prod.fst).map Entry.ofNote := by
          rw [List.map_map]
          rfl
      _ = ((notes.toList.filter fun n => n.row == d.id).map Entry.placed).map Prod.snd := by
          rw [hindexed, List.map_map]
          rfl
      _ = d.placed.map Prod.snd := congrArg (List.map Prod.snd) hplaced
      _ = d.entries := by
          rw [Draft.placed, List.map_map]
          exact List.map_id d.entries
  have hsorted := h.sorted
  rw [← hrow, List.pairwise_map] at hsorted
  rw [members_of_pairwise _ rfl hsorted, hrow]

/-- A row that was written is read back. -/
theorem Draft.ofRow_ofMembers {d : Draft} (hd : d ∈ rows) (h : d.Writable)
    (metadata : List (String × String)) (diagnostics : List Diagnostic) :
    ofRow (Chart.ofParts notes (rows.map fun d => (d.id, d.lastIndent)) metadata diagnostics)
      (Row.ofMembers (rows.map fun d => (d.id, d.lastIndent)) notes.toList.zipIdx d.id) = d := by
  have hmembers := Row.map_members hids hnotes hd h
  have hindent : (Row.leastIndent? ((Row.members notes.toList.zipIdx d.id).map Prod.fst)).getD
      (Row.declaredIndent (rows.map fun d => (d.id, d.lastIndent)) d.id) = d.indent := by
    have hleast : Row.leastIndent? ((Row.members notes.toList.zipIdx d.id).map Prod.fst) =
        (d.entries.map Entry.indent).min? := by
      rw [Row.leastIndent?, ← hmembers, List.map_map, List.map_map]
      rfl
    rw [hleast, Row.declaredIndent, lookup_lastIndent hids hd, Option.getD_some]
    rcases h.indented with hempty | hmin
    · rw [lastIndent, List.isEmpty_iff.mp hempty]
      rfl
    · rw [hmin, Option.getD_some]
  have hentries : ((Chart.ofParts notes (rows.map fun d => (d.id, d.lastIndent)) metadata
      diagnostics).notesOf (Row.ofMembers (rows.map fun d => (d.id, d.lastIndent)) notes.toList.zipIdx
        d.id)).map (fun n => Entry.ofNote n.2) = d.entries := by
    rw [Chart.notesOf_ofMembers, List.map_map]
    exact hmembers
  obtain ⟨id, indent, entries⟩ := d
  exact congrArg₂ (Draft.mk id) hindent hentries

/-- The ids of a chart are those of the rows that were written. -/
theorem Draft.perm_fallingIds :
    (Chart.fallingIds ((rows.map fun d => (d.id, d.lastIndent)).map Prod.fst ++
      notes.toList.map Note.row)).Perm (rows.map id) := by
  have hfalling := Chart.pairwise_fallingIds ((rows.map fun d => (d.id, d.lastIndent)).map Prod.fst ++
    notes.toList.map Note.row)
  refine (List.perm_ext_iff_of_nodup (hfalling.imp fun hlt => hlt.ne') hids).mpr fun i => ?_
  have hused : i ∈ notes.toList.map Note.row → i ∈ rows.map id := by
    intro hi
    have hrows : notes.toList.map Note.row = (rows.flatMap placed).map Prod.fst := by
      rw [← hnotes, List.map_map]
      rfl
    rw [hrows] at hi
    obtain ⟨p, hp, rfl⟩ := List.mem_map.mp hi
    obtain ⟨d, hd, hp⟩ := List.mem_flatMap.mp hp
    obtain ⟨e, -, rfl⟩ := List.mem_map.mp hp
    exact List.mem_map_of_mem hd
  unfold Chart.fallingIds
  rw [List.mem_mergeSort, List.mem_eraseDups, List.map_map, List.mem_append]
  exact ⟨fun hi => hi.elim (fun h => h) hused, .inl⟩

/-- All rows that were written are read back. -/
theorem Draft.perm_ofRow (h : ∀ d ∈ rows, d.Writable) (metadata : List (String × String))
    (diagnostics : List Diagnostic) :
    let c := Chart.ofParts notes (rows.map fun d => (d.id, d.lastIndent)) metadata diagnostics
    (c.rows.toList.map (ofRow c)).Perm rows := by
  intro c
  change (((Chart.fallingIds _).map (Row.ofMembers _ _)).map (ofRow c)).Perm rows
  rw [List.map_map]
  refine ((perm_fallingIds hids hnotes).map _).trans ?_
  rw [List.map_map]
  refine List.Perm.of_eq ((List.map_congr_left fun d hd => ?_).trans (List.map_id rows))
  exact ofRow_ofMembers hids hnotes hd (h d hd) metadata diagnostics

omit hids in
/-- The extent of a row is the largest end of its notes. -/
theorem Draft.isExtent_ofRow (h : ∀ d ∈ rows, d.Writable) (declared : List (Int × Nat))
    (metadata : List (String × String)) (diagnostics : List Diagnostic) :
    let c := Chart.ofParts notes declared metadata diagnostics
    ∀ r ∈ c.rows, IsExtent r.extent ((ofRow c r).entries.map Entry.finish) := by
  intro c r hr
  obtain ⟨id, -, rfl⟩ := List.mem_map.mp (List.mem_toArray.mp hr)
  have hends : (ofRow c (Row.ofMembers declared notes.toList.zipIdx id)).entries.map Entry.finish =
      ((Row.members notes.toList.zipIdx id).map Prod.fst).map Note.finish := by
    change ((c.notesOf _).map _).map _ = _
    rw [Chart.notesOf_ofMembers, List.map_map, List.map_map, List.map_map]
    exact List.map_congr_left fun m _ => Entry.finish_ofNote m.1
  rw [hends]
  change IsExtent (Row.extentOf ((Row.members notes.toList.zipIdx id).map Prod.fst)) _
  refine isExtent_extentOf (List.forall_mem_map.mpr fun m hm => ?_)
  have hnote : Entry.placed m.1 ∈ notes.toList.map Entry.placed :=
    List.mem_map_of_mem (Array.mem_def.mp (Array.mem_of_getElem? (Row.mem_members.mp hm).1))
  rw [hnotes] at hnote
  obtain ⟨d, hd, hnote⟩ := List.mem_flatMap.mp hnote
  obtain ⟨e, he, hnote⟩ := List.mem_map.mp hnote
  have heq : e = Entry.ofNote m.1 := congrArg Prod.snd hnote
  have hfinish := Entry.isNumber_finish ((h d hd).entries e he)
  rwa [heq, Entry.finish_ofNote] at hfinish

end

/-- The rows of a text that was written are read back, by falling id and without a remark. -/
theorem Chart.drafts_ofText {rows : List Draft} (h : ∀ d ∈ rows, d.Writable)
    (hids : (rows.map Draft.id).Nodup) :
    let c := Chart.ofText (Draft.text rows)
    c.diagnostics = [] ∧ c.metadata = [] ∧
      c.notes.toList.map Entry.placed = rows.flatMap Draft.placed ∧
      (c.rows.toList.map (Draft.ofRow c)).Perm rows ∧
      c.rows.toList.Pairwise (fun a b => b.id < a.id) ∧
      ∀ r ∈ c.rows, IsExtent r.extent ((Draft.ofRow c r).entries.map Entry.finish) := by
  set s := Scan.start.lines ((Text.lines (Draft.text rows).toList).zipIdx 1) with hs
  have hholds : s.Holds rows := Scan.holds_text h hids
  have hchart : ofText (Draft.text rows) =
      ofParts s.notes (rows.map fun d => (d.id, d.lastIndent)) [] [] := by
    change ofParts s.notes s.closeRow.declared s.metadata.toList s.diagnostics.toList = _
    rw [hholds.declared, hholds.metadata, hholds.diagnostics]
  rw [hchart]
  exact ⟨rfl, rfl, hholds.notes, Draft.perm_ofRow hids hholds.notes h [] [], falling_ofParts _ _ _ _,
    Draft.isExtent_ofRow hholds.notes h _ [] []⟩

/-- Two rows: one with a multi note at negative zero and a loop, one with a token, a conditional and a
command. -/
def sampleDrafts : List Draft :=
  [⟨-1, 1, [⟨0.5, 2, ⟨.other "glow", 0.0, [], [true, false], [⟨"cam", [-3, 40]⟩], []⟩⟩,
      ⟨2.0, 1, .plain .hold 1.25⟩]⟩,
    ⟨0, 0, [⟨-0.0, 0, ⟨.multi, 1.0, [3], [], [], [⟨.tap, 1.0⟩, ⟨.hold, 0.5⟩]⟩⟩]⟩,
    ⟨-2, 7, []⟩]

theorem Chart.drafts_ofText_sample :
    let c := Chart.ofText (Draft.text sampleDrafts)
    (∀ d ∈ sampleDrafts, d.Writable) ∧ (sampleDrafts.map Draft.id).Nodup ∧ c.diagnostics = [] ∧
      (c.rows.toList.map (Draft.ofRow c)).Perm sampleDrafts := by
  intro c
  have hwritable : ∀ d ∈ sampleDrafts, d.Writable := by decide +kernel
  have hids : (sampleDrafts.map Draft.id).Nodup := by decide +kernel
  obtain ⟨hdiagnostics, -, -, hrows, -⟩ := drafts_ofText hwritable hids
  exact ⟨hwritable, hids, hdiagnostics, hrows⟩

example : (Draft.text sampleDrafts).toList = "# Main
-1:
tab:2
0.5:[0;glow if\x7b1,0\x7d cam\x7b-3,40\x7d]
tab:1
2:[1.25;h]
-0:
tab:0
-0:[1;m(t1,h0.5) loop\x7b3\x7d]
-2:
tab:7
".toList := by decide +kernel

end RhythmChart
