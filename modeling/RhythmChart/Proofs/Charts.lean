import RhythmChart.Proofs.Binary64.Bits
import RhythmChart.Proofs.Binary64.Quotient
import RhythmChart.Proofs.Scanning
import RhythmChart.Schedule

/-! # Charts from texts

What the notes and the rows of a chart are like when it was read from a text.

Main statements.

* `Scan.forall_notes_lines`: what holds of every note as it is read holds of all notes of a text;
* `Chart.placed_ofText`: nothing is placed before its row;
* `isExtent_extentOf`: the extent of a row is the largest end of its notes;
* `Chart.laid_ofText`: the notes of a row come by position, and its end comes after them. -/

namespace RhythmChart

open Binary64

/-! ### Reading notes -/

theorem Cell.zero_le_length {text : List Char} {l : Float} (h : length? text = some l) : 0.0 ≤ l := by
  have := (Option.filter_eq_some_iff.mp h).2
  simp only [Bool.and_eq_true, decide_eq_true_eq] at this
  exact this.2

theorem Cell.length_foldl_absorb (raws : List RawSymbol) (acc : Cell × List CellRemark) :
    (raws.foldl absorb acc).1.length = acc.1.length := by
  induction raws generalizing acc with
  | nil => rfl
  | cons raw raws ih =>
      rw [List.foldl_cons, ih]
      unfold absorb
      dsimp only
      split
      · split_ifs <;> rfl
      · split_ifs <;> rfl
      · rfl

theorem Cell.zero_le_plain (t : NoteType) : 0.0 ≤ (plain t 1.0).length := by
  show (0.0 : Float) ≤ 1.0
  decide +kernel

theorem Cell.zero_le_readShort {content : List Char} {cell : Cell} (h : readShort content = .ok cell) :
    0.0 ≤ cell.length := by
  unfold readShort at h
  split at h
  · split at h
    next l hl =>
      cases h
      exact zero_le_length hl
    · cases h
  · split_ifs at h
    cases htype : typeToken content with
    | error e => rw [htype] at h; cases h
    | ok typed =>
        rw [htype] at h
        cases h
        exact zero_le_plain typed.1

theorem Cell.zero_le_readFull {lengthText rest : List Char} {cell : Cell}
    {remarks : List CellRemark} (h : readFull lengthText rest = .ok (cell, remarks)) :
    0.0 ≤ cell.length := by
  unfold readFull at h
  split at h
  · cases h
  next length hlength =>
    split at h
    · cases h
    next token raws _ =>
      dsimp only at h
      cases htype : (if token.isEmpty then Except.ok (NoteType.track, []) else typeToken token) with
      | error e => rw [htype] at h; cases h
      | ok typed =>
          rw [htype] at h
          have hcell := congrArg (fun acc : Cell × List CellRemark => acc.1.length)
            (Except.ok.inj h)
          dsimp only at hcell
          rw [length_foldl_absorb] at hcell
          exact hcell ▸ zero_le_length hlength

/-- The length of a cell is not negative. -/
theorem Cell.zero_le_read {text : List Char} {cell : Cell} {remarks : List CellRemark}
    (h : read text = .ok (cell, remarks)) : 0.0 ≤ cell.length := by
  unfold read at h
  dsimp only at h
  split_ifs at h
  · cases h
    exact zero_le_plain .track
  · split at h
    · cases hshort : readShort (Text.trim text) with
      | error e => rw [hshort] at h; cases h
      | ok c =>
          rw [hshort] at h
          cases h
          exact zero_le_readShort hshort
    · exact zero_le_readFull h

namespace Scan

theorem zero_le_position {text : List Char} {p : Float} (h : position? text = some p) : 0.0 ≤ p := by
  have := (Option.filter_eq_some_iff.mp h).2
  simp only [Bool.and_eq_true, decide_eq_true_eq] at this
  exact this.2

theorem notes_closeRow (s : Scan) : s.closeRow.notes = s.notes := by
  rw [closeRow_eq]

theorem notes_openRow (s : Scan) (line : Nat) (id : Int) : (s.openRow line id).notes = s.notes := by
  rw [← notes_closeRow s]
  unfold openRow
  dsimp only
  split_ifs <;> rfl

/-- Reading one line adds at most one note.  It is in the open row, and its position and length are not
negative. -/
theorem notes_line (s : Scan) (number : Nat) (raw : List Char) :
    (s.line number raw).notes = s.notes ∨
      ∃ row indent p cell, s.row = some row ∧ 0.0 ≤ p ∧ 0.0 ≤ cell.length ∧
        (s.line number raw).notes = s.notes.push (noteOf row indent number p cell) := by
  unfold Scan.line
  dsimp only
  split_ifs
  · exact .inl rfl
  unfold Scan.content
  split
  · exact .inl (notes_closeRow s)
  split
  · exact .inl rfl
  · unfold Scan.metadataLine
    split <;> exact .inl rfl
  unfold Scan.mainLine
  split
  · split <;> exact .inl rfl
  · split
    · exact .inl (notes_openRow s number _)
    · exact .inl rfl
  · unfold Scan.addNote
    split
    · exact .inl rfl
    · exact .inl rfl
    · exact .inl rfl
    next row p cell remarks hrow hposition hcell =>
      refine .inr ⟨row, s.tab, p, cell, hrow, zero_le_position hposition, Cell.zero_le_read hcell, ?_⟩
      rw [foldl_report]
  · exact .inl rfl

/-- What holds of every note as it is read holds of all notes of a text. -/
theorem forall_notes_lines {P : Note → Prop}
    (hP : ∀ row indent number p cell, 0.0 ≤ p → 0.0 ≤ cell.length → P (noteOf row indent number p cell))
    {s : Scan} (h : ∀ n ∈ s.notes, P n) (numbered : List (List Char × Nat)) :
    ∀ n ∈ (s.lines numbered).notes, P n := by
  induction numbered generalizing s with
  | nil => exact h
  | cons l numbered ih =>
      refine ih fun n hn => ?_
      rcases notes_line s l.2 l.1 with heq | ⟨row, indent, p, cell, -, hp, hlength, heq⟩
      · exact h n (heq ▸ hn)
      · rw [heq] at hn
        rcases Array.mem_push.mp hn with hn | rfl
        · exact h n hn
        · exact hP _ _ _ _ _ hp hlength

end Scan

/-- What holds of every note as it is read holds of all notes of a chart from a text. -/
theorem Chart.forall_notes_ofText {P : Note → Prop}
    (hP : ∀ row indent number p cell, 0.0 ≤ p → 0.0 ≤ cell.length →
      P (Scan.noteOf row indent number p cell)) (text : String) : ∀ n ∈ (ofText text).notes, P n :=
  Scan.forall_notes_lines hP (fun n hn => by simp [Scan.start] at hn) _

/-! ### Placed charts -/

/-- No note stands before its row, and no row is shorter than nothing. -/
structure Chart.Placed (c : Chart) : Prop where
  positions : ∀ n ∈ c.notes, 0.0 ≤ n.position
  extents : ∀ r ∈ c.rows, 0.0 ≤ r.extent

theorem zero_le_raise {floor x : Float} (h : 0.0 ≤ floor) : 0.0 ≤ Number.raise floor x := by
  obtain ⟨hf, hv⟩ := (zero_le_iff floor).mp h
  obtain ⟨-, hn, hle⟩ := (le_iff _ _).mp (le_raise (x := x) hf)
  exact (zero_le_iff _).mpr ⟨hn, hv.trans hle⟩

theorem zero_le_extentOf (notes : List Note) : 0.0 ≤ Row.extentOf notes := by
  suffices ∀ extent : Float, 0.0 ≤ extent →
      0.0 ≤ notes.foldl (fun extent n => Number.raise extent n.finish) extent from
    this 0.0 ((zero_le_iff _).mpr ⟨isNumber_zero, value_zero.ge⟩)
  induction notes with
  | nil => exact fun _ h => h
  | cons n notes ih => exact fun extent h => ih _ (zero_le_raise h)

theorem Chart.placed_ofParts {notes : Array Note} (h : ∀ n ∈ notes, 0.0 ≤ n.position)
    (declared : List (Int × Nat)) (metadata : List (String × String))
    (diagnostics : List Diagnostic) : (ofParts notes declared metadata diagnostics).Placed := by
  refine ⟨h, fun r hr => ?_⟩
  obtain ⟨id, -, rfl⟩ := List.mem_map.mp (List.mem_toArray.mp hr)
  exact zero_le_extentOf _

/-- In a chart that was read from a text, nothing is placed before its row. -/
theorem Chart.placed_ofText (text : String) : (ofText text).Placed :=
  placed_ofParts (forall_notes_ofText (fun _ _ _ _ _ hp _ => hp) text) _ _ _

/-- Stamping the rows changes nothing about the notes but their times. -/
theorem map_stampRows {α : Type} {f : Note → α} (hf : ∀ n t, f { n with trigger := t } = f n)
    (speed : Float) (rows : List Row) (start : Float) (notes : Array Note) :
    (stampRows speed rows start notes).1.map f = notes.map f := by
  have hmodify : ∀ (ns : Array Note) (i : Nat) (g : Note → Note), (∀ n, f (g n) = f n) →
      (ns.modify i g).map f = ns.map f := by
    intro ns i g hg
    refine Array.ext_getElem? fun k => ?_
    rw [Array.getElem?_map, Array.getElem?_map, Array.getElem?_modify]
    split_ifs
    · cases ns[k]? with
      | none => rfl
      | some n => exact congrArg some (hg n)
    · rfl
  induction rows generalizing start notes with
  | nil => rfl
  | cons row rows ih =>
      unfold stampRows
      rw [ih]
      generalize row.notes = indices
      induction indices generalizing notes with
      | nil => rfl
      | cons i indices ih' => exact (ih' _).trans (hmodify _ _ _ fun n => hf n _)

theorem Chart.map_notes_stamped {α : Type} {f : Note → α}
    (hf : ∀ n t, f { n with trigger := t } = f n) (c : Chart) (speed start : Float) :
    (c.stamped speed start).1.notes.map f = c.notes.map f := map_stampRows hf _ _ _ _

/-- What is read of the notes of a row, apart from their times, does not depend on stamping. -/
theorem Chart.map_notesOf_stamped {α : Type} {f : Note → α}
    (hf : ∀ n t, f { n with trigger := t } = f n) (c : Chart) (speed start : Float) (r : Row) :
    ((c.stamped speed start).1.notesOf r).map (Prod.map id f) = (c.notesOf r).map (Prod.map id f) := by
  have hnotes : ∀ c : Chart, (c.notesOf r).map (Prod.map id f) =
      r.notes.filterMap fun i => (c.notes.map f)[i]?.map fun a => (i, a) := by
    intro c
    unfold notesOf
    rw [List.map_filterMap]
    refine List.filterMap_congr fun i _ => ?_
    rw [Array.getElem?_map]
    cases c.notes[i]? <;> rfl
  rw [hnotes, hnotes, map_notes_stamped hf]

theorem Chart.Placed.stamped {c : Chart} (h : c.Placed) (speed start : Float) :
    (c.stamped speed start).1.Placed := by
  refine ⟨fun n hn => ?_, h.extents⟩
  have hmem : n.position ∈ (c.stamped speed start).1.notes.map Note.position :=
    Array.mem_map_of_mem hn
  rw [map_notes_stamped fun _ _ => rfl] at hmem
  obtain ⟨m, hm, heq⟩ := Array.mem_map.mp hmem
  exact heq ▸ h.positions m hm

theorem Chart.Placed.position_of_mem {c : Chart} (h : c.Placed) {id : Int} {n : Nat × Note}
    (hn : n ∈ c.notesAt id) : 0.0 ≤ n.2.position := by
  unfold Chart.notesAt at hn
  split at hn
  · obtain ⟨i, -, hi⟩ := List.mem_filterMap.mp hn
    obtain ⟨m, hm, rfl⟩ := Option.map_eq_some_iff.mp hi
    exact h.positions m (Array.mem_of_getElem? hm)
  · cases hn

theorem Chart.Placed.extent_of_row {c : Chart} (h : c.Placed) {id : Int} {r : Row}
    (hr : c.row? id = some r) : 0.0 ≤ r.extent := by
  obtain ⟨i, -, hi⟩ := Option.bind_eq_some_iff.mp hr
  exact h.extents r (Array.mem_of_getElem? hi)

/-! ### Laid charts -/

/-- The positions of the notes of a row, in the order of the row. -/
def Chart.positionsOf (c : Chart) (r : Row) : List Float :=
  (c.notesOf r).map fun n => n.2.position

/-- The notes of each row come by position, and its end comes after them. -/
structure Chart.Laid (c : Chart) : Prop extends c.Placed where
  sorted : ∀ r ∈ c.rows, (c.positionsOf r).Pairwise (· ≤ ·)
  within : ∀ r ∈ c.rows, ∀ x ∈ c.positionsOf r, x ≤ r.extent

/-- The members of a row are the notes that name it. -/
theorem Row.mem_members {notes : Array Note} {id : Int} {m : Note × Nat} :
    m ∈ Row.members notes.toList.zipIdx id ↔ notes[m.2]? = some m.1 ∧ m.1.row = id := by
  rw [members, List.mem_mergeSort, List.mem_filter, beq_iff_eq, List.mem_zipIdx_iff_getElem?,
    Array.getElem?_toList]

/-- A row holds the members that it was made of. -/
theorem Chart.notesOf_ofMembers (notes : Array Note) (declared : List (Int × Nat))
    (metadata : List (String × String)) (diagnostics : List Diagnostic) (id : Int) :
    (ofParts notes declared metadata diagnostics).notesOf
        (Row.ofMembers declared notes.toList.zipIdx id) =
      (Row.members notes.toList.zipIdx id).map fun m => (m.2, m.1) := by
  have hnote : ∀ m ∈ Row.members notes.toList.zipIdx id, notes[m.2]? = some m.1 :=
    fun _ hm => (Row.mem_members.mp hm).1
  change ((Row.members notes.toList.zipIdx id).map Prod.snd).filterMap
    (fun i => notes[i]?.map fun n => (i, n)) = _
  rw [List.filterMap_map, ← List.filterMap_eq_map]
  refine List.filterMap_congr fun m hm => ?_
  simp [hnote m hm]

theorem le_foldl_raise (notes : List Note) {extent : Float} (h : IsNumber extent) :
    extent ≤ notes.foldl (fun extent n => Number.raise extent n.finish) extent := by
  induction notes generalizing extent with
  | nil => exact le_self h
  | cons n notes ih =>
      have hle := le_raise (x := n.finish) h
      exact le_of_le_of_le hle (ih ((le_iff _ _).mp hle).2.1)

/-- Raising an extent to some ends leaves it as it is or makes it one of the ends. -/
theorem foldl_raise_eq_or_mem (notes : List Note) (extent : Float) :
    notes.foldl (fun extent n => Number.raise extent n.finish) extent = extent ∨
      notes.foldl (fun extent n => Number.raise extent n.finish) extent ∈ notes.map Note.finish := by
  induction notes generalizing extent with
  | nil => exact .inl rfl
  | cons n notes ih =>
      rw [List.foldl_cons, List.map_cons]
      rcases ih (Number.raise extent n.finish) with heq | hmem
      · rw [heq, Number.raise]
        split_ifs
        · exact .inr List.mem_cons_self
        · exact .inl rfl
      · exact .inr (List.mem_cons_of_mem _ hmem)

/-- A row is at least as long as each of its notes. -/
theorem finish_le_extentOf {notes : List Note} (h : ∀ n ∈ notes, IsNumber n.finish) :
    ∀ n ∈ notes, n.finish ≤ Row.extentOf notes := by
  suffices ∀ extent : Float, IsNumber extent → ∀ n ∈ notes,
      n.finish ≤ notes.foldl (fun extent n => Number.raise extent n.finish) extent from
    this 0.0 isNumber_zero
  induction notes with
  | nil => exact fun _ _ _ hn => (nomatch hn)
  | cons first notes ih =>
      intro extent hextent n hn
      have hraised := ((le_iff _ _).mp (le_raise (x := first.finish) hextent)).2.1
      rcases List.mem_cons.mp hn with rfl | hn
      · exact le_of_le_of_le (le_raise_self hextent (h n List.mem_cons_self)) (le_foldl_raise notes hraised)
      · exact ih (fun n hn => h n (List.mem_cons_of_mem _ hn)) _ hraised n hn

/-- The largest of some ends, and at least `0`. -/
structure IsExtent (extent : Float) (ends : List Float) : Prop where
  nonneg : 0.0 ≤ extent
  bound : ∀ x ∈ ends, x ≤ extent
  attained : extent = 0.0 ∨ extent ∈ ends

/-- The extent of a row is the largest end of its notes. -/
theorem isExtent_extentOf {notes : List Note} (h : ∀ n ∈ notes, IsNumber n.finish) :
    IsExtent (Row.extentOf notes) (notes.map Note.finish) where
  nonneg := zero_le_extentOf notes
  bound := List.forall_mem_map.mpr (finish_le_extentOf h)
  attained := foldl_raise_eq_or_mem notes 0.0

/-- The positions and the extent of a row are those of its members. -/
theorem Chart.exists_members (notes : Array Note) (declared : List (Int × Nat))
    (metadata : List (String × String)) (diagnostics : List Diagnostic) {r : Row}
    (hr : r ∈ (ofParts notes declared metadata diagnostics).rows) : ∃ id,
      (ofParts notes declared metadata diagnostics).positionsOf r =
        (Row.members notes.toList.zipIdx id).map (fun m => m.1.position) ∧
      r.extent = Row.extentOf ((Row.members notes.toList.zipIdx id).map Prod.fst) := by
  obtain ⟨id, -, rfl⟩ := List.mem_map.mp (List.mem_toArray.mp hr)
  refine ⟨id, ?_, rfl⟩
  unfold positionsOf
  rw [notesOf_ofMembers, List.map_map]
  rfl

/-- In a chart that was read from a text, each row is in order and ends after its notes. -/
theorem Chart.laid_ofText (text : String) : (ofText text).Laid := by
  set s := Scan.start.lines ((Text.lines text.toList).zipIdx 1) with hs
  have hread : ∀ n ∈ s.notes, 0.0 ≤ n.position ∧ 0.0 ≤ n.length :=
    Chart.forall_notes_ofText (fun _ _ _ _ _ hp hl => ⟨hp, hl⟩) text
  have hmembers : ∀ id, ∀ m ∈ Row.members s.notes.toList.zipIdx id, m.1 ∈ s.notes :=
    fun _ _ hm => Array.mem_of_getElem? (Row.mem_members.mp hm).1
  -- A row and its members.
  have hrow : ∀ r ∈ (ofText text).rows, ∃ id,
      (ofText text).positionsOf r =
        (Row.members s.notes.toList.zipIdx id).map (fun m => m.1.position) ∧
      r.extent = Row.extentOf ((Row.members s.notes.toList.zipIdx id).map Prod.fst) :=
    fun _ hr => Chart.exists_members s.notes s.closeRow.declared s.metadata.toList
      s.diagnostics.toList hr
  refine { toPlaced := placed_ofText text, sorted := fun r hr => ?_, within := fun r hr x hx => ?_ }
  · obtain ⟨id, hpositions, -⟩ := hrow r hr
    rw [hpositions, List.pairwise_map]
    have hsorted : (Row.members s.notes.toList.zipIdx id).Pairwise fun a b =>
        Number.totalLe a.1.position b.1.position = true := by
      refine List.pairwise_mergeSort (fun a b c => ?_) (fun a b => ?_) _
      · exact Number.totalLe_trans a.1.position b.1.position c.1.position
      · exact Number.totalLe_total a.1.position b.1.position
    refine hsorted.imp_of_mem fun {a b} ha hb hle => ?_
    exact le_of_totalLe (hread _ (hmembers id a ha)).1 (hread _ (hmembers id b hb)).1 hle
  · obtain ⟨id, hpositions, hextent⟩ := hrow r hr
    rw [hpositions] at hx
    obtain ⟨m, hm, rfl⟩ := List.mem_map.mp hx
    rw [hextent]
    have hfinish : ∀ n ∈ s.notes, n.position ≤ n.finish := fun n hn =>
      le_add_of_nonneg ((zero_le_iff _).mp (hread n hn).1).1 (not_bot_of_zero_le (hread n hn).1)
        (hread n hn).2
    refine le_of_le_of_le (hfinish m.1 (hmembers id m hm)) (finish_le_extentOf (fun n hn => ?_) m.1
      (List.mem_map_of_mem hm))
    obtain ⟨m', hm', rfl⟩ := List.mem_map.mp hn
    exact ((le_iff _ _).mp (hfinish m'.1 (hmembers id m' hm'))).2.1

theorem Chart.positionsOf_stamped (c : Chart) (speed start : Float) (r : Row) :
    (c.stamped speed start).1.positionsOf r = c.positionsOf r := by
  have hmap := congrArg (List.map Prod.snd)
    (map_notesOf_stamped (f := Note.position) (fun _ _ => rfl) c speed start r)
  simpa [positionsOf, Function.comp_def] using hmap

theorem Chart.Laid.stamped {c : Chart} (h : c.Laid) (speed start : Float) :
    (c.stamped speed start).1.Laid where
  toPlaced := h.toPlaced.stamped speed start
  sorted r hr := by
    rw [positionsOf_stamped]
    exact h.sorted r hr
  within r hr := by
    rw [positionsOf_stamped]
    exact h.within r hr

/-- A usable speed is positive and finite. -/
theorem usableSpeed_spec (speed : Float) :
    0.0 < usableSpeed speed ∧ (usableSpeed speed).isFinite = true := by
  unfold usableSpeed
  split_ifs with h
  · exact ⟨h.2, h.1⟩
  · exact ⟨by decide +kernel, by decide +kernel⟩

end RhythmChart
