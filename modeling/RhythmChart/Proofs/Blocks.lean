import RhythmChart.Proofs.Outline
import RhythmChart.Proofs.Rejected
import RhythmChart.Proofs.Rows

/-! # Blocks of lines

The main section of a chart is written as blocks, each the header of a row and the lines after it.  A block
is read by itself: what is read of it does not depend on the blocks before it, and so their order does not
matter, if no two are of one row.

Main statements.

* `Block`: the header of a row and lines that neither open a row nor begin a section;
* `Scan.lines_block`: a block is read by itself;
* `Scan.Reads.block`: what was read after one more block;
* `Chart.outline_ofParts`: the outline of a chart by its notes and its declared rows;
* `Chart.ofText_of_perm`: blocks give the same rows in every order, and are played alike. -/

namespace RhythmChart

open Number

namespace Scan

/-! ### Headers -/

/-- The row that a line opens in the main section. -/
def opened? (raw : List Char) : Option Int :=
  match MainLine.ofText (stripped raw) with
  | .header id => int32? id
  | _ => none

/-- A line after the header of a row: neither the header of a row nor one of a section. -/
structure Stays (raw : List Char) : Prop where
  untitled : (stripped raw).head? ≠ some '#'
  unopened : opened? raw = none

instance (raw : List Char) : Decidable (Stays raw) :=
  decidable_of_iff ((stripped raw).head? ≠ some '#' ∧ opened? raw = none)
    ⟨fun ⟨h, h'⟩ => ⟨h, h'⟩, fun h => ⟨h.untitled, h.unopened⟩⟩

/-- The header of a row begins with a minus sign. -/
theorem head?_of_header {text id : List Char} (h : MainLine.ofText text = .header id) :
    text.head? = some '-' := by
  have hid : MainLine.headerId? text = some id := by
    unfold MainLine.ofText at h
    split at h
    · cases h
    next heq => rw [heq, MainLine.header.inj h]
    · cases h
    · cases h
  obtain ⟨body, hbody, hhead⟩ := Option.bind_eq_some_iff.mp hid
  split at hhead
  next hminus =>
    unfold Text.beforeLast? at hbody
    split at hbody
    · obtain rfl := Option.some.inj hbody
      cases text with
      | nil => cases hminus.1
      | cons c text =>
          cases text with
          | nil => cases hminus.1
          | cons c' text => exact hminus.1
    · cases hbody
  · cases hhead

/-- The header of a row opens it. -/
theorem line_of_opened {s : Scan} (hpart : s.part = .main) {raw : List Char} {id : Int}
    (h : opened? raw = some id) (number : Nat) : s.line number raw = s.openRow number id := by
  unfold opened? at h
  cases hform : MainLine.ofText (stripped raw) with
  | header digits =>
      rw [hform] at h
      have hhead := head?_of_header hform
      have hcontent : stripped raw ≠ [] := by
        intro hblank
        rw [hblank] at hhead
        cases hhead
      rw [line_main hpart (by rw [hhead]; decide), if_neg hcontent]
      unfold mainLine
      simp only [hform, h]
  | _ =>
      rw [hform] at h
      cases h

/-! ### Lines after a header -/

/-- The scan with other rows declared and other metadata. -/
def within (declared : List (Int × Nat)) (metadata : Array (String × String)) (s : Scan) : Scan :=
  { s with declared, metadata }

section Within

variable (declared : List (Int × Nat)) (metadata : Array (String × String)) {s : Scan}

theorem within_addNote (line : Nat) (text position cell : List Char) :
    (s.addNote line text position cell).within declared metadata =
      (s.within declared metadata).addNote line text position cell := by
  have hrow : (s.within declared metadata).row = s.row := rfl
  unfold addNote
  rw [hrow]
  cases s.row with
  | none => rfl
  | some row =>
      cases position? position with
      | none => rfl
      | some p =>
          cases Cell.read cell with
          | error e => rfl
          | ok read =>
              obtain ⟨cell, remarks⟩ := read
              simp only [foldl_report]
              rfl

/-- The lines after a header read neither the rows that were declared nor the metadata. -/
theorem within_line (hpart : s.part = .main) {raw : List Char} (h : Stays raw) (number : Nat) :
    (s.line number raw).within declared metadata = (s.within declared metadata).line number raw := by
  rw [line_main hpart h.untitled, line_main (s := s.within declared metadata) hpart h.untitled]
  split
  · rfl
  have hunopened := h.unopened
  unfold opened? at hunopened
  unfold mainLine
  cases hform : MainLine.ofText (stripped raw) with
  | tab level =>
      dsimp only
      cases count? level <;> rfl
  | header id =>
      rw [hform] at hunopened
      simp only [hunopened]
      rfl
  | note position cell => exact within_addNote declared metadata number _ position cell
  | unrecognized => rfl

end Within

/-- The lines after a header stay in its row. -/
theorem row_line {s : Scan} (hpart : s.part = .main) {raw : List Char} (h : Stays raw) (number : Nat) :
    (s.line number raw).part = .main ∧ (s.line number raw).row = s.row := by
  rw [line_main hpart h.untitled]
  split
  · exact ⟨hpart, rfl⟩
  have hunopened := h.unopened
  unfold opened? at hunopened
  unfold mainLine
  cases hform : MainLine.ofText (stripped raw) with
  | tab level =>
      dsimp only
      cases count? level <;> exact ⟨hpart, rfl⟩
  | header id =>
      rw [hform] at hunopened
      simp only [hunopened]
      exact ⟨hpart, rfl⟩
  | note position cell =>
      dsimp only
      rw [addNote_eq]
      exact ⟨hpart, rfl⟩
  | unrecognized => exact ⟨hpart, rfl⟩

theorem row_lines {s : Scan} (hpart : s.part = .main) {numbered : List (List Char × Nat)}
    (h : ∀ l ∈ numbered, Stays l.1) :
    (s.lines numbered).part = .main ∧ (s.lines numbered).row = s.row := by
  induction numbered generalizing s with
  | nil => exact ⟨hpart, rfl⟩
  | cons l numbered ih =>
      obtain ⟨hline, hrow⟩ := row_line hpart (h l List.mem_cons_self) l.2
      rw [lines_cons, ← hrow]
      exact ih hline fun l hl => h l (List.mem_cons_of_mem _ hl)

theorem within_lines (declared : List (Int × Nat)) (metadata : Array (String × String)) {s : Scan}
    (hpart : s.part = .main) {numbered : List (List Char × Nat)} (h : ∀ l ∈ numbered, Stays l.1) :
    (s.lines numbered).within declared metadata = (s.within declared metadata).lines numbered := by
  induction numbered generalizing s with
  | nil => rfl
  | cons l numbered ih =>
      obtain ⟨hline, -⟩ := row_line hpart (h l List.mem_cons_self) l.2
      rw [lines_cons, lines_cons, ← within_line _ _ hpart (h l List.mem_cons_self)]
      exact ih hline fun l hl => h l (List.mem_cons_of_mem _ hl)

/-- The notes of the lines after a header are in its row. -/
theorem row_of_mem_notes_lines {s : Scan} (hpart : s.part = .main) {row : Int} (hrow : s.row = some row)
    (hnotes : ∀ n ∈ s.notes, n.row = row) {numbered : List (List Char × Nat)}
    (h : ∀ l ∈ numbered, Stays l.1) : ∀ n ∈ (s.lines numbered).notes, n.row = row := by
  induction numbered generalizing s with
  | nil => exact hnotes
  | cons l numbered ih =>
      obtain ⟨hline, hsame⟩ := row_line hpart (h l List.mem_cons_self) l.2
      refine ih hline (hsame.trans hrow) ?_ fun l hl => h l (List.mem_cons_of_mem _ hl)
      intro n hn
      cases notes_line s l.2 l.1 with
      | inl heq => exact hnotes n (heq ▸ hn)
      | inr hadded =>
          obtain ⟨own, indent, p, cell, hown, -, -, heq⟩ := hadded
          rw [heq] at hn
          cases Array.mem_push.mp hn with
          | inl hn => exact hnotes n hn
          | inr hn =>
              rw [hn]
              exact Option.some.inj (hown.symm.trans hrow)

end Scan

/-! ### Blocks -/

/-- The header of a row and the lines after it. -/
structure Block where
  id : Int
  header : List Char
  body : List (List Char)
  opens : Scan.opened? header = some id
  stays : ∀ raw ∈ body, Scan.Stays raw

namespace Block

/-- The lines of a block. -/
def lines (b : Block) : List (List Char) := b.header :: b.body

/-- Only the header of a block is read. -/
def opened (b : Block) : Scan := { Scan.start with part := .main, row := some b.id }

/-- Only the block is read. -/
def scan (b : Block) : Scan := b.opened.lines (b.body.zipIdx 0)

/-- The notes of a block, without the numbers of their lines. -/
def notes (b : Block) : List Note := b.scan.notes.toList.map Note.unnumbered

/-- The row of a block with the indent that is in effect after it. -/
def declared (b : Block) : Int × Nat := (b.id, b.scan.tab)

theorem stays_of_mem_zipIdx (b : Block) {k : Nat} : ∀ l ∈ b.body.zipIdx k, Scan.Stays l.1 := by
  intro l hl
  exact b.stays _ (List.fst_mem_of_mem_zipIdx hl)

theorem row_of_mem_notes {b : Block} {n : Note} (h : n ∈ b.notes) : n.row = b.id := by
  obtain ⟨m, hm, rfl⟩ := List.mem_map.mp h
  apply Scan.row_of_mem_notes_lines (s := b.opened) rfl rfl (by simp [opened, Scan.start])
    b.stays_of_mem_zipIdx m
  exact Array.mem_toList_iff.mp hm

end Block

namespace Scan

/-- A block is read by itself.  Its header closes the row before it and declares its own. -/
theorem lines_block {s : Scan} (hpart : s.part = .main) (b : Block)
    (hnew : b.id ∉ s.closeRow.declared.map Prod.fst) (number : Nat) :
    s.lines (b.lines.zipIdx number) =
      (b.scan.relocated (number + 1 + ·) s.notes s.diagnostics).within
        (s.closeRow.declared ++ [(b.id, 0)]) s.metadata := by
  have hheader : s.line number b.header =
      (b.opened.relocated (number + 1 + ·) s.notes s.diagnostics).within
        (s.closeRow.declared ++ [(b.id, 0)]) s.metadata := by
    rw [line_of_opened hpart b.opens, openRow_fresh hnew]
    simp [Block.opened, start, relocated, within, hpart]
  have hnumbers : (b.body.zipIdx 0).map (Prod.map id (number + 1 + ·)) =
      b.body.zipIdx (number + 1) := by
    rw [List.zipIdx_eq_map_add (i := number + 1)]
    rfl
  rw [Block.lines, List.zipIdx_cons, lines_cons, hheader, ← within_lines _ _ rfl b.stays_of_mem_zipIdx,
    ← hnumbers, ← relocated_lines]
  rfl

/-- These blocks were read, and nothing else.  The row that is open counts as it will be closed. -/
structure Reads (s : Scan) (blocks : List Block) : Prop where
  part : s.part = .main
  notes : s.notes.toList.map Note.unnumbered = blocks.flatMap Block.notes
  declared : s.closeRow.declared = blocks.map Block.declared

/-- Reading one more block adds what is read of it. -/
theorem Reads.block {s : Scan} {blocks : List Block} (h : s.Reads blocks) {b : Block}
    (hnew : b.id ∉ blocks.map Block.id) (number : Nat) :
    (s.lines (b.lines.zipIdx number)).Reads (blocks ++ [b]) := by
  have hids : b.id ∉ s.closeRow.declared.map Prod.fst := by
    rw [h.declared, List.map_map]
    exact hnew
  obtain ⟨hpart, hrow⟩ := row_lines (s := b.opened) rfl (b.stays_of_mem_zipIdx (k := 0))
  rw [lines_block h.part b hids]
  constructor
  case part => exact hpart
  case notes =>
    rw [List.flatMap_append, List.flatMap_singleton, ← h.notes]
    simp [within, relocated, Block.notes, Function.comp_def]
  case declared =>
    have hopen : ((b.scan.relocated (number + 1 + ·) s.notes s.diagnostics).within
        (s.closeRow.declared ++ [(b.id, 0)]) s.metadata).row = some b.id := hrow
    rw [declared_closeRow hopen rfl hids, h.declared, List.map_append]
    rfl

/-- Reading blocks adds what is read of them. -/
theorem Reads.blocks {s : Scan} {before blocks : List Block} (h : s.Reads before)
    (hids : ((before ++ blocks).map Block.id).Nodup) (number : Nat) :
    (s.lines ((blocks.flatMap Block.lines).zipIdx number)).Reads (before ++ blocks) := by
  induction blocks generalizing s before number with
  | nil =>
      rw [List.append_nil]
      exact h
  | cons b blocks ih =>
      have hnew : b.id ∉ before.map Block.id := by
        rw [List.map_append, List.map_cons] at hids
        exact fun hmem => List.disjoint_of_nodup_append hids hmem List.mem_cons_self
      rw [List.append_cons before b blocks] at hids ⊢
      rw [List.flatMap_cons, lines_append]
      exact ih (h.block hnew number) hids _

/-- The title of the main section is read before any block. -/
theorem reads_title {title : List Char} (h : (start.line 1 title).part = .main) :
    (start.line 1 title).Reads [] := by
  have hline : start.line 1 title = { start with part := (start.line 1 title).part } := by
    rw [line_eq]
    split
    · rfl
    · unfold content
      split <;> rfl
  rw [hline]
  exact ⟨h, rfl, rfl⟩

end Scan

/-! ### Outlines -/

namespace Row

/-- The notes of a row, by position. -/
def inOrder (notes : List Note) (id : Int) : List Note :=
  (notes.filter fun n => n.row == id).mergeSort fun a b => totalLe a.position b.position

/-- A row of a chart with the given notes and declared rows, without the places of its notes. -/
def frameOf (declared : List (Int × Nat)) (notes : List Note) (id : Int) : Row :=
  { id := id
    indent := (leastIndent? (inOrder notes id)).getD (declaredIndent declared id)
    extent := extentOf (inOrder notes id)
    notes := [] }

theorem map_fst_members (notes : List Note) (id : Int) :
    (members notes.zipIdx id).map Prod.fst = inOrder notes id := by
  have hsort := List.map_mergeSort (f := Prod.fst (β := Nat))
    (r := fun a b => totalLe a.1.position b.1.position) (s := fun a b => totalLe a.position b.position)
    (l := notes.zipIdx.filter fun n => n.1.row == id) fun _ _ _ _ => rfl
  have hfilter := List.filter_map (f := Prod.fst (β := Nat)) (p := fun n : Note => n.row == id)
    (l := notes.zipIdx)
  rw [List.zipIdx_map_fst] at hfilter
  unfold members inOrder
  rw [hsort, hfilter]
  rfl

theorem inOrder_unnumbered (notes : List Note) (id : Int) :
    inOrder (notes.map Note.unnumbered) id = (inOrder notes id).map Note.unnumbered := by
  have hsort := List.map_mergeSort (f := Note.unnumbered)
    (r := fun a b => totalLe a.position b.position) (s := fun a b => totalLe a.position b.position)
    (l := notes.filter fun n => n.row == id) fun _ _ _ _ => rfl
  unfold inOrder
  rw [hsort, List.filter_map]
  rfl

theorem frame_ofMembers (declared : List (Int × Nat)) (notes : List Note) (id : Int) :
    (ofMembers declared notes.zipIdx id).frame = frameOf declared (notes.map Note.unnumbered) id := by
  unfold frameOf
  rw [inOrder_unnumbered, ← map_fst_members]
  simp [frame, ofMembers, leastIndent?, extentOf, List.foldl_map, Function.comp_def]

end Row

namespace Chart

/-- The outline of the chart of the given notes and declared rows. -/
def outlineOf (declared : List (Int × Nat)) (notes : List Note) : List (Row × List Note) :=
  (fallingIds (declared.map Prod.fst ++ notes.map Note.row)).map fun id =>
    (Row.frameOf declared notes id, Row.inOrder notes id)

theorem outline_ofParts (notes : Array Note) (declared : List (Int × Nat))
    (metadata : List (String × String)) (diagnostics : List Diagnostic) :
    (ofParts notes declared metadata diagnostics).outline Note.unnumbered =
      outlineOf declared (notes.toList.map Note.unnumbered) := by
  have hids : (notes.toList.map Note.unnumbered).map Note.row = notes.toList.map Note.row := by
    simp [Function.comp_def]
  unfold outline outlineOf
  rw [hids]
  change ((fallingIds _).map (Row.ofMembers declared notes.toList.zipIdx)).map _ = _
  rw [List.map_map]
  apply List.map_congr_left
  intro id _
  rw [Row.inOrder_unnumbered, ← Row.frame_ofMembers, ← Row.map_fst_members, List.map_map]
  exact congrArg _ (map_notesOf_ofMembers Note.unnumbered notes declared metadata diagnostics id)

/-- The distinct members of a list in falling order depend on nothing else. -/
theorem fallingIds_congr {ids ids' : List Int} (h : ∀ id, id ∈ ids ↔ id ∈ ids') :
    fallingIds ids = fallingIds ids' := by
  have hperm : (fallingIds ids).Perm (fallingIds ids') := by
    rw [List.perm_ext_iff_of_nodup]
    · simpa [mem_fallingIds] using h
    · exact (pairwise_fallingIds ids).imp fun hlt => (ne_of_lt hlt).symm
    · exact (pairwise_fallingIds ids').imp fun hlt => (ne_of_lt hlt).symm
  apply hperm.eq_of_pairwise _ (pairwise_fallingIds ids) (pairwise_fallingIds ids')
  intro a b _ _ hab hba
  omega

end Chart

/-! ### The order of blocks -/

namespace Block

/-- The blocks of one row, of which there is one at most. -/
def ofRow (blocks : List Block) (id : Int) : List Block := blocks.filter fun b => b.id == id

theorem filter_notes (blocks : List Block) (id : Int) :
    (blocks.flatMap notes).filter (fun n => n.row == id) = (ofRow blocks id).flatMap notes := by
  unfold ofRow
  induction blocks with
  | nil => rfl
  | cons b blocks ih =>
      rw [List.flatMap_cons, List.filter_append, ih]
      by_cases hid : b.id = id
      · have hall : b.notes.filter (fun n => n.row == id) = b.notes := by
          rw [List.filter_eq_self]
          intro n hn
          simp [row_of_mem_notes hn, hid]
        rw [hall, List.filter_cons_of_pos (by simp [hid]), List.flatMap_cons]
      · have hnone : b.notes.filter (fun n => n.row == id) = [] := by
          rw [List.filter_eq_nil_iff]
          intro n hn
          simp [row_of_mem_notes hn, hid]
        rw [hnone, List.filter_cons_of_neg (by simp [hid]), List.nil_append]

theorem lookup_declared (blocks : List Block) (id : Int) :
    (blocks.map declared).lookup id = (ofRow blocks id).head?.map fun b => b.scan.tab := by
  unfold ofRow
  induction blocks with
  | nil => rfl
  | cons b blocks ih =>
      by_cases hid : b.id = id
      · simp [declared, hid]
      · have hother : (id == b.id) = false := by simpa using Ne.symm hid
        rw [List.filter_cons_of_neg (by simp [hid]), ← ih, List.map_cons, List.lookup_cons]
        simp only [declared, hother]

/-- In every order there is the same block of a row. -/
theorem ofRow_congr {blocks blocks' : List Block} (hids : (blocks.map Block.id).Nodup)
    (hperm : blocks.Perm blocks') (id : Int) : ofRow blocks id = ofRow blocks' id := by
  have hone : ∀ blocks : List Block, (blocks.map Block.id).Nodup →
      (ofRow blocks id).Pairwise fun _ _ => False := by
    intro blocks hids
    have hdiffer := (List.pairwise_map.mp hids).filter fun b => b.id == id
    refine hdiffer.imp_of_mem ?_
    intro a b ha hb hab
    have haid := beq_iff_eq.mp (List.mem_filter.mp ha).2
    have hbid := beq_iff_eq.mp (List.mem_filter.mp hb).2
    exact hab (haid.trans hbid.symm)
  have hids' : (blocks'.map Block.id).Nodup := (hperm.map Block.id).nodup_iff.mp hids
  exact (hperm.filter _).eq_of_pairwise (fun _ _ _ _ hfalse => hfalse.elim) (hone _ hids) (hone _ hids')

/-- Blocks have the same outline in every order. -/
theorem outlineOf_congr {blocks blocks' : List Block} (hids : (blocks.map Block.id).Nodup)
    (hperm : blocks.Perm blocks') :
    Chart.outlineOf (blocks.map declared) (blocks.flatMap notes) =
      Chart.outlineOf (blocks'.map declared) (blocks'.flatMap notes) := by
  have hrows : Chart.fallingIds ((blocks.map declared).map Prod.fst ++ (blocks.flatMap notes).map Note.row) =
      Chart.fallingIds ((blocks'.map declared).map Prod.fst ++ (blocks'.flatMap notes).map Note.row) := by
    apply Chart.fallingIds_congr
    intro id
    apply List.Perm.mem_iff
    exact ((hperm.map _).map _).append ((hperm.flatMap_right _).map _)
  have hinOrder : ∀ id, Row.inOrder (blocks.flatMap notes) id = Row.inOrder (blocks'.flatMap notes) id := by
    intro id
    unfold Row.inOrder
    rw [filter_notes, filter_notes, ofRow_congr hids hperm]
  have hdeclared : ∀ id, Row.declaredIndent (blocks.map declared) id =
      Row.declaredIndent (blocks'.map declared) id := by
    intro id
    unfold Row.declaredIndent
    rw [lookup_declared, lookup_declared, ofRow_congr hids hperm]
  unfold Chart.outlineOf Row.frameOf
  simp only [hrows, hinOrder, hdeclared]

end Block

/-! ### Texts -/

theorem Chart.outline_of_blocks {title : List Char} (htitle : (Scan.start.line 1 title).part = .main)
    {blocks : List Block} (hids : (blocks.map Block.id).Nodup) {text : String}
    (htext : Text.lines text.toList = title :: blocks.flatMap Block.lines) :
    (ofText text).outline Note.unnumbered =
      outlineOf (blocks.map Block.declared) (blocks.flatMap Block.notes) := by
  have hreads := (Scan.reads_title htitle).blocks hids 2
  rw [List.nil_append] at hreads
  rw [ofText_of_lines htext, List.zipIdx_cons, Scan.lines_cons, Scan.chart, outline_ofParts, hreads.notes,
    hreads.declared]

/-- A main section that is made of blocks of different rows gives the same rows in every order of the blocks,
and so the same traversal and the same visits. -/
theorem Chart.ofText_of_perm {title : List Char} (htitle : (Scan.start.line 1 title).part = .main)
    {blocks blocks' : List Block} (hids : (blocks.map Block.id).Nodup) (hperm : blocks.Perm blocks')
    {text text' : String} (htext : Text.lines text.toList = title :: blocks.flatMap Block.lines)
    (htext' : Text.lines text'.toList = title :: blocks'.flatMap Block.lines) :
    let c := ofText text
    let c' := ofText text'
    c.outline Note.unnumbered = c'.outline Note.unnumbered ∧ Traversal.ofChart c = Traversal.ofChart c' ∧
      ∀ speed start, (Plan.ofChart c speed start).visits = (Plan.ofChart c' speed start).visits := by
  intro c c'
  have hids' : (blocks'.map Block.id).Nodup := (hperm.map Block.id).nodup_iff.mp hids
  have houtline : c.outline Note.unnumbered = c'.outline Note.unnumbered := by
    rw [outline_of_blocks htitle hids htext, outline_of_blocks htitle hids' htext']
    exact Block.outlineOf_congr hids hperm
  have hcodes : c.outline Note.codes = c'.outline Note.codes := by
    have hcomp : ∀ c : Chart, c.outline Note.codes =
        (c.outline Note.unnumbered).map (Prod.map id (List.map Note.codes)) :=
      outline_comp Note.codes Note.unnumbered
    rw [hcomp, hcomp, houtline]
  exact ⟨houtline, Traversal.ofChart_congr hcodes, Plan.visits_congr hcodes⟩

/-- Two rows.  The first has a loop and a line that cannot be used, the notes of the second are not written by
position. -/
def sampleBlocks : List Block :=
  [⟨-1, "-1: //".toList, ["0:[1;t loop\x7b1\x7d]".toList, "1:[q".toList], by decide +kernel,
      by decide +kernel⟩,
    ⟨-2, "-2:".toList, ["tab:1".toList, "2:[t]".toList, "".toList, "0.5:[1;h]".toList], by decide +kernel,
      by decide +kernel⟩]

theorem Chart.ofText_of_perm_sample :
    let c := ofText "# Main\n-1: //\n0:[1;t loop\x7b1\x7d]\n1:[q\n-2:\ntab:1\n2:[t]\n\n0.5:[1;h]\n"
    let c' := ofText "# Main\n-2:\ntab:1\n2:[t]\n\n0.5:[1;h]\n-1: //\n0:[1;t loop\x7b1\x7d]\n1:[q\n"
    (sampleBlocks.map Block.id).Nodup ∧ sampleBlocks.Perm sampleBlocks.reverse ∧
      c.outline Note.unnumbered = c'.outline Note.unnumbered ∧ Traversal.ofChart c = Traversal.ofChart c' ∧
      ∀ speed start, (Plan.ofChart c speed start).visits = (Plan.ofChart c' speed start).visits := by
  intro c c'
  have htitle : (Scan.start.line 1 "# Main".toList).part = .main := by decide +kernel
  have hids : (sampleBlocks.map Block.id).Nodup := by decide +kernel
  have hperm : sampleBlocks.Perm sampleBlocks.reverse := (List.reverse_perm _).symm
  exact ⟨hids, hperm, ofText_of_perm htitle hids hperm (by decide +kernel) (by decide +kernel)⟩

end RhythmChart
