import RhythmChart.Proofs.Flow.Sites

/-! # The rows of a chart

A chart is put together from notes and declared rows, both in any order and with repetitions.  Every note
is in exactly one row, its own, wherever it stood among the notes.

Main statements.

* `filter_mergeSort`: sorting keeps the order of elements that are tied;
* `Chart.Falling.rowIndex?_eq_some_iff`: a row is found by its id, and only by that;
* `Chart.perm_notes_ofParts`: the rows share out the notes;
* `Row.gathers_ofMembers`: what a row knows about its notes;
* `Chart.arranged_ofParts`: how the rows of a chart are laid out. -/

namespace RhythmChart

open Binary64 Number

/-! ### Sorting -/

/-- Sorting keeps the order of elements that are tied. -/
theorem filter_mergeSort {α : Type} {le : α → α → Bool} (htrans : ∀ a b c, le a b → le b c → le a c)
    (htotal : ∀ a b, (le a b || le b a) = true) {p : α → Bool} (l : List α)
    (htied : ∀ a b, p a = true → p b = true → le a b = true) :
    (l.mergeSort le).filter p = l.filter p := by
  have hsorted : (l.filter p).Pairwise fun a b => le a b = true := by
    apply List.pairwise_of_forall_mem_list
    intro a ha b hb
    exact htied a b (List.mem_filter.mp ha).2 (List.mem_filter.mp hb).2
  have hsub : (l.filter p).Sublist ((l.mergeSort le).filter p) := by
    have := (List.sublist_mergeSort htrans htotal hsorted List.filter_sublist).filter p
    simpa using this
  have hlength := ((List.mergeSort_perm l le).filter p).length_eq
  exact (hsub.eq_of_length hlength.symm).symm

/-- The elements of a list with keys that rise come out of a sort by rising keys where they are tied. -/
theorem pairwise_mergeSort_of_rising {α : Type} (le : α → α → Bool)
    (htrans : ∀ a b c, le a b → le b c → le a c) (htotal : ∀ a b, (le a b || le b a) = true)
    {key : α → Nat} {l : List α} (hkey : l.Pairwise fun a b => key a < key b) :
    (l.mergeSort le).Pairwise fun a b => le a b = true ∧ (le b a = true → key a < key b) := by
  have hsorted := List.pairwise_mergeSort htrans htotal l
  rw [List.pairwise_iff_forall_sublist] at hsorted hkey ⊢
  intro a b hab
  refine ⟨hsorted hab, fun hba => hkey ?_⟩
  -- What is tied with `a` stands as it stood before sorting.
  have htied := filter_mergeSort (p := fun x => le x a && le a x) htrans htotal l (by
    intro x y hx hy
    simp only [Bool.and_eq_true] at hx hy
    exact htrans x a y hx.1 hy.2)
  have hself : le a a = true := by simpa using htotal a a
  have hfilter := hab.filter fun x => le x a && le a x
  rw [htied, List.filter_cons_of_pos (by simp [hself]),
    List.filter_cons_of_pos (by simp [hba, hsorted hab]), List.filter_nil] at hfilter
  exact hfilter.trans List.filter_sublist

/-! ### Finding rows -/

namespace Chart

/-- A row is found by its id, and only by that. -/
theorem Falling.rowIndex?_eq_some_iff {c : Chart} (hc : c.Falling) {id : Int} {i : Nat} :
    c.rowIndex? id = some i ↔ ∃ r, c.rows[i]? = some r ∧ r.id = id := by
  have hfalls : ∀ j k (hj : j < c.rows.size) (hk : k < c.rows.size), j < k →
      c.rows[k].id < c.rows[j].id := by
    intro j k hj hk hjk
    have := List.pairwise_iff_getElem.mp hc j k (by simpa using hj) (by simpa using hk) hjk
    simpa using this
  unfold rowIndex?
  dsimp only
  constructor
  · intro h
    split at h
    next r hr =>
      split_ifs at h with hid
      obtain rfl := Option.some.inj h
      exact ⟨r, hr, hid⟩
    next => cases h
  · rintro ⟨r, hr, rfl⟩
    obtain ⟨hi, rfl⟩ := Array.getElem?_eq_some_iff.mp hr
    rw [boundary_of_falling hfalls hi, hr]
    simp

/-- A row of a chart whose ids fall is found by its id. -/
theorem Falling.row?_eq {c : Chart} (hc : c.Falling) {i : Nat} {r : Row} (hr : c.rows[i]? = some r) :
    c.row? r.id = some r := by
  rw [row?, hc.rowIndex?_eq_some_iff.mpr ⟨r, hr, rfl⟩]
  exact hr

/-! ### Sharing out the notes -/

theorem mem_notes_ofMembers {declared : List (Int × Nat)} {notes : Array Note} {id : Int} {i : Nat} :
    i ∈ (Row.ofMembers declared notes.toList.zipIdx id).notes ↔
      ∃ n, notes[i]? = some n ∧ n.row = id := by
  change i ∈ (Row.members notes.toList.zipIdx id).map Prod.snd ↔ _
  rw [List.mem_map]
  constructor
  · rintro ⟨m, hm, rfl⟩
    exact ⟨m.1, Row.mem_members.mp hm⟩
  · rintro ⟨n, hn⟩
    exact ⟨(n, i), Row.mem_members.mpr hn, rfl⟩

theorem map_notesOf_ofMembers {α : Type} (f : Note → α) (notes : Array Note) (declared : List (Int × Nat))
    (metadata : List (String × String)) (diagnostics : List Diagnostic) (id : Int) :
    ((ofParts notes declared metadata diagnostics).notesOf
      (Row.ofMembers declared notes.toList.zipIdx id)).map (fun n => f n.2) =
        (Row.members notes.toList.zipIdx id).map fun m => f m.1 := by
  rw [notesOf_ofMembers, List.map_map]
  rfl

theorem mem_fallingIds {ids : List Int} {id : Int} : id ∈ fallingIds ids ↔ id ∈ ids := by
  simp [fallingIds]

section OfParts

variable {notes : Array Note} (declared : List (Int × Nat)) (metadata : List (String × String))
  (diagnostics : List Diagnostic)

/-- The rows are those that are declared or named by a note. -/
theorem exists_id_ofParts {id : Int} :
    (∃ r ∈ (ofParts notes declared metadata diagnostics).rows, r.id = id) ↔
      id ∈ declared.map Prod.fst ∨ ∃ n ∈ notes, n.row = id := by
  have hids : id ∈ fallingIds (declared.map Prod.fst ++ notes.toList.map Note.row) ↔
      id ∈ declared.map Prod.fst ∨ ∃ n ∈ notes, n.row = id := by
    rw [mem_fallingIds, List.mem_append, List.mem_map (f := Note.row)]
    simp only [Array.mem_toList_iff]
  rw [← hids]
  constructor
  · rintro ⟨r, hr, rfl⟩
    obtain ⟨id, hid, rfl⟩ := List.mem_map.mp (List.mem_toArray.mp hr)
    exact hid
  · intro hid
    exact ⟨_, List.mem_toArray.mpr (List.mem_map_of_mem hid), rfl⟩

/-- Every note is in the row that it names. -/
theorem exists_row_ofParts {i : Nat} {n : Note} (hn : notes[i]? = some n) :
    ∃ r ∈ (ofParts notes declared metadata diagnostics).rows.toList, r.id = n.row ∧ i ∈ r.notes := by
  obtain ⟨r, hr, hid⟩ := (exists_id_ofParts declared metadata diagnostics).mpr
    (.inr ⟨n, Array.mem_of_getElem? hn, rfl⟩)
  refine ⟨r, Array.mem_toList_iff.mpr hr, hid, ?_⟩
  obtain ⟨id, -, rfl⟩ := List.mem_map.mp (List.mem_toArray.mp hr)
  exact mem_notes_ofMembers.mpr ⟨n, hn, hid.symm⟩

/-- No note is in two rows. -/
theorem disjoint_rows_ofParts :
    (ofParts notes declared metadata diagnostics).rows.toList.Pairwise
      fun a b => ∀ i ∈ a.notes, i ∉ b.notes := by
  unfold ofParts
  dsimp only
  rw [List.pairwise_map]
  refine (pairwise_fallingIds _).imp fun hlt i hi hi' => ?_
  obtain ⟨n, hn, rfl⟩ := mem_notes_ofMembers.mp hi
  obtain ⟨n', hn', rfl⟩ := mem_notes_ofMembers.mp hi'
  obtain rfl := Option.some.inj (hn.symm.trans hn')
  exact lt_irrefl _ hlt

/-- No note is in a row twice. -/
theorem nodup_notes_ofMembers (id : Int) :
    (Row.ofMembers declared notes.toList.zipIdx id).notes.Nodup := by
  have hperm := List.mergeSort_perm (notes.toList.zipIdx.filter fun n => n.1.row == id)
    fun a b => totalLe a.1.position b.1.position
  have hsub : ((notes.toList.zipIdx.filter fun n => n.1.row == id).map Prod.snd).Nodup :=
    (List.nodup_zipIdx_map_snd _).sublist (List.filter_sublist.map _)
  exact (hperm.map Prod.snd).nodup_iff.mpr hsub

/-- The rows share out the notes: each index is in exactly one row, once. -/
theorem perm_notes_ofParts :
    ((ofParts notes declared metadata diagnostics).rows.toList.flatMap Row.notes).Perm
      (List.range notes.size) := by
  rw [List.perm_ext_iff_of_nodup _ List.nodup_range]
  · intro i
    rw [List.mem_flatMap, List.mem_range]
    constructor
    · rintro ⟨r, hr, hi⟩
      obtain ⟨id, -, rfl⟩ := List.mem_map.mp hr
      obtain ⟨n, hn, -⟩ := mem_notes_ofMembers.mp hi
      exact (Array.getElem?_eq_some_iff.mp hn).1
    · intro hi
      obtain ⟨r, hr, -, hmem⟩ :=
        exists_row_ofParts declared metadata diagnostics (Array.getElem?_eq_getElem hi)
      exact ⟨r, hr, hmem⟩
  · rw [List.nodup_flatMap]
    refine ⟨fun r hr => ?_, (disjoint_rows_ofParts _ _ _).imp fun h i hi hi' => h i hi hi'⟩
    obtain ⟨id, -, rfl⟩ := List.mem_map.mp hr
    exact nodup_notes_ofMembers _ id

end OfParts

end Chart

/-! ### Single rows -/

namespace Row

/-- An end that is no number does not count. -/
theorem extentOf_filter (notes : List Note) :
    extentOf notes = extentOf (notes.filter fun n => !n.finish.isNaN) := by
  have hraise : ∀ {floor x : Float}, x.isNaN = true → raise floor x = floor := by
    intro floor x hx
    apply if_neg
    intro hlt
    have hnumber : x.isNaN = false := ((lt_iff floor x).mp hlt).2.1
    exact Bool.noConfusion (hx.symm.trans hnumber)
  suffices ∀ extent : Float, notes.foldl (fun extent n => raise extent n.finish) extent =
      (notes.filter fun n => !n.finish.isNaN).foldl (fun extent n => raise extent n.finish) extent from
    this 0.0
  induction notes with
  | nil => exact fun _ => rfl
  | cons n notes ih =>
      intro extent
      rw [List.foldl_cons, ih]
      cases hn : n.finish.isNaN with
      | true => rw [hraise hn, List.filter_cons_of_neg (by rw [hn]; decide)]
      | false => rw [List.filter_cons_of_pos (by rw [hn]; rfl), List.foldl_cons]

/-- In a row, one note comes before another: by position, and by the order of the notes where their
positions are the same. -/
def Before (notes : Array Note) (i j : Nat) : Prop :=
  ∀ a b, notes[i]? = some a → notes[j]? = some b →
    totalLe a.position b.position = true ∧ (totalLe b.position a.position = true → i < j)

/-- An indent is the first one that is declared for a row. -/
def FirstDeclared (declared : List (Int × Nat)) (id : Int) (indent : Nat) : Prop :=
  ∃ before after, declared = before ++ (id, indent) :: after ∧ ∀ e ∈ before, e.1 ≠ id

/-- What a row of a chart knows about its notes. -/
structure Gathers (c : Chart) (declared : List (Int × Nat)) (r : Row) : Prop where
  own : ∀ i ∈ r.notes, ∃ n, c.notes[i]? = some n ∧ n.row = r.id
  sorted : r.notes.Pairwise (Before c.notes)
  extent : IsExtent r.extent (((c.notesOf r).map fun n => n.2.finish).filter fun x => !x.isNaN)
  least : r.notes ≠ [] → (∃ n ∈ c.notesOf r, n.2.indent = r.indent) ∧
    ∀ n ∈ c.notesOf r, r.indent ≤ n.2.indent
  declared : r.notes = [] → FirstDeclared declared r.id r.indent

section OfMembers

variable (notes : Array Note) (declared : List (Int × Nat)) (id : Int)

theorem sorted_ofMembers : (ofMembers declared notes.toList.zipIdx id).notes.Pairwise (Before notes) := by
  have hrising : (notes.toList.zipIdx.filter fun n => n.1.row == id).Pairwise fun a b => a.2 < b.2 := by
    apply List.Pairwise.sublist List.filter_sublist
    rw [← List.pairwise_map (f := Prod.snd) (R := (· < ·)), List.zipIdx_map_snd]
    exact List.pairwise_lt_range'
  have hsorted := pairwise_mergeSort_of_rising
    (fun a b : Note × Nat => totalLe a.1.position b.1.position)
    (fun a b c => totalLe_trans a.1.position b.1.position c.1.position)
    (fun a b => totalLe_total a.1.position b.1.position) hrising
  change ((members notes.toList.zipIdx id).map Prod.snd).Pairwise _
  rw [List.pairwise_map]
  refine hsorted.imp_of_mem ?_
  intro a b ha hb hab n m hn hm
  obtain rfl := Option.some.inj ((mem_members.mp ha).1.symm.trans hn)
  obtain rfl := Option.some.inj ((mem_members.mp hb).1.symm.trans hm)
  exact hab

/-- The indent of a row with notes is the least of them. -/
theorem least_ofMembers (hne : (ofMembers declared notes.toList.zipIdx id).notes ≠ []) :
    leastIndent? ((members notes.toList.zipIdx id).map Prod.fst) =
      some (ofMembers declared notes.toList.zipIdx id).indent := by
  change _ = some ((leastIndent? ((members notes.toList.zipIdx id).map Prod.fst)).getD _)
  cases hleast : leastIndent? ((members notes.toList.zipIdx id).map Prod.fst) with
  | none =>
      have hnil := List.min?_eq_none_iff.mp hleast
      rw [List.map_map, List.map_eq_nil_iff] at hnil
      exact absurd (congrArg (List.map Prod.snd) hnil) hne
  | some least => rfl

/-- The indent of a row without notes is the first one that is declared for it. -/
theorem firstDeclared_ofMembers (hid : id ∈ declared.map Prod.fst ∨ ∃ n ∈ notes, n.row = id)
    (hnil : (ofMembers declared notes.toList.zipIdx id).notes = []) :
    FirstDeclared declared id (ofMembers declared notes.toList.zipIdx id).indent := by
  have hmembers : members notes.toList.zipIdx id = [] := List.map_eq_nil_iff.mp hnil
  have hunused : ¬ ∃ n ∈ notes, n.row = id := by
    rintro ⟨n, hn, hrow⟩
    obtain ⟨i, hi, rfl⟩ := Array.mem_iff_getElem.mp hn
    have hmem : i ∈ (ofMembers declared notes.toList.zipIdx id).notes :=
      Chart.mem_notes_ofMembers.mpr ⟨notes[i], Array.getElem?_eq_getElem hi, hrow⟩
    rw [hnil] at hmem
    cases hmem
  have hdeclared : (declared.lookup id).isSome := by
    obtain ⟨e, he, rfl⟩ := List.mem_map.mp (hid.resolve_right hunused)
    rw [List.lookup_isSome_iff]
    exact ⟨e, he, by simp⟩
  obtain ⟨indent, hlookup⟩ := Option.isSome_iff_exists.mp hdeclared
  have hindent : (ofMembers declared notes.toList.zipIdx id).indent = indent := by
    change (leastIndent? ((members notes.toList.zipIdx id).map Prod.fst)).getD
      (declaredIndent declared id) = indent
    rw [hmembers, declaredIndent, hlookup]
    rfl
  obtain ⟨before, after, heq, hbefore⟩ := List.lookup_eq_some_iff.mp hlookup
  refine ⟨before, after, hindent ▸ heq, fun e he => ?_⟩
  have := hbefore e he
  simp only [bne_iff_ne] at this
  exact this.symm

/-- What a row knows about the notes that it is made of. -/
theorem gathers_ofMembers (metadata : List (String × String)) (diagnostics : List Diagnostic)
    (hid : id ∈ declared.map Prod.fst ∨ ∃ n ∈ notes, n.row = id) :
    (ofMembers declared notes.toList.zipIdx id).Gathers
      (Chart.ofParts notes declared metadata diagnostics) declared := by
  have hnotes : ((Chart.ofParts notes declared metadata diagnostics).notesOf
      (ofMembers declared notes.toList.zipIdx id)).map Prod.snd =
        (members notes.toList.zipIdx id).map Prod.fst :=
    Chart.map_notesOf_ofMembers (fun n => n) notes declared metadata diagnostics id
  constructor
  case own => exact fun i hi => Chart.mem_notes_ofMembers.mp hi
  case sorted => exact sorted_ofMembers notes declared id
  case extent =>
    have hends : ((Chart.ofParts notes declared metadata diagnostics).notesOf
        (ofMembers declared notes.toList.zipIdx id)).map (fun n => n.2.finish) =
          ((members notes.toList.zipIdx id).map Prod.fst).map Note.finish := by
      rw [← hnotes, List.map_map]
      rfl
    change IsExtent (extentOf ((members notes.toList.zipIdx id).map Prod.fst)) _
    rw [hends, extentOf_filter, List.filter_map (f := Note.finish)]
    apply isExtent_extentOf
    intro n hn
    exact (Bool.not_eq_true' _).mp (List.mem_filter.mp hn).2
  case least =>
    intro hne
    have hmem : ∀ {indent}, indent ∈ ((members notes.toList.zipIdx id).map Prod.fst).map Note.indent ↔
        ∃ n ∈ (Chart.ofParts notes declared metadata diagnostics).notesOf
          (ofMembers declared notes.toList.zipIdx id), n.2.indent = indent := by
      intro indent
      rw [← hnotes, List.map_map, List.mem_map]
      rfl
    obtain ⟨hattained, hle⟩ := List.min?_eq_some_iff.mp (least_ofMembers notes declared id hne)
    exact ⟨hmem.mp hattained, fun n hn => hle _ (hmem.mpr ⟨n, hn, rfl⟩)⟩
  case declared => exact firstDeclared_ofMembers notes declared id hid

end OfMembers

end Row

/-! ### All rows -/

/-- How the rows of a chart are laid out: by falling id, each declared or named by a note, found by its id,
with its own notes and no others. -/
structure Chart.Arranged (c : Chart) (declared : List (Int × Nat)) : Prop where
  falling : c.rows.toList.Pairwise fun a b => b.id < a.id
  ids : ∀ id, (∃ r ∈ c.rows, r.id = id) ↔ id ∈ declared.map Prod.fst ∨ ∃ n ∈ c.notes, n.row = id
  found : ∀ id i, c.rowIndex? id = some i ↔ ∃ r, c.rows[i]? = some r ∧ r.id = id
  shared : (c.rows.toList.flatMap Row.notes).Perm (List.range c.notes.size)
  rows : ∀ r ∈ c.rows, r.Gathers c declared

/-- A chart keeps the notes and the metadata that it is put together from, and arranges its rows. -/
theorem Chart.arranged_ofParts (notes : Array Note) (declared : List (Int × Nat))
    (metadata : List (String × String)) (diagnostics : List Diagnostic) :
    let c := ofParts notes declared metadata diagnostics
    c.notes = notes ∧ c.metadata = metadata ∧ c.Arranged declared := by
  intro c
  refine ⟨rfl, rfl, ?_⟩
  constructor
  case falling => exact falling_ofParts _ _ _ _
  case ids => exact fun _ => exists_id_ofParts _ _ _
  case found => exact fun _ _ => (falling_ofParts _ _ _ _).rowIndex?_eq_some_iff
  case shared => exact perm_notes_ofParts _ _ _
  case rows =>
    intro r hr
    have hid := (exists_id_ofParts _ _ _).mp ⟨r, hr, rfl⟩
    obtain ⟨id, -, rfl⟩ := List.mem_map.mp (List.mem_toArray.mp hr)
    exact Row.gathers_ofMembers notes declared id metadata diagnostics hid

end RhythmChart
