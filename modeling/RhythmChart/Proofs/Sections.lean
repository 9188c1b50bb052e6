import RhythmChart.Ini
import RhythmChart.Proofs.Cells

/-! # Settings that are written and read

A settings text that was put together of sections is read as those sections.

Main statements.

* `Ini.text` writes sections, `Ini.Writable` tells the sections that can be written;
* `Ini.sections_ofText_text`: sections that are written are read back, in their order. -/

namespace RhythmChart

open Text

/-! ### Maps that grow -/

namespace Assoc

variable {κ α : Type} [BEq κ] [LawfulBEq κ] {key : κ}

/-- A new key comes last. -/
theorem put_of_not_mem {entries : List (κ × α)} (h : key ∉ entries.map Prod.fst) (value : α) :
    put key value entries = entries ++ [(key, value)] := by
  induction entries with
  | nil => rfl
  | cons e entries ih =>
      obtain ⟨k, v⟩ := e
      rw [List.map_cons, List.mem_cons, not_or] at h
      have hk : (k == key) = false := by simpa using fun heq => h.1 heq.symm
      rw [put, hk, if_neg Bool.false_ne_true, ih h.2, List.cons_append]

/-- The last key is put again. -/
theorem put_concat {entries : List (κ × α)} (h : key ∉ entries.map Prod.fst) (old value : α) :
    put key value (entries ++ [(key, old)]) = entries ++ [(key, value)] := by
  induction entries with
  | nil => simp [put]
  | cons e entries ih =>
      obtain ⟨k, v⟩ := e
      rw [List.map_cons, List.mem_cons, not_or] at h
      have hk : (k == key) = false := by simpa using fun heq => h.1 heq.symm
      rw [List.cons_append, put, hk, if_neg Bool.false_ne_true, ih h.2, List.cons_append]

theorem lookup_of_not_mem {entries : List (κ × α)} (h : key ∉ entries.map Prod.fst) :
    entries.lookup key = none := by
  refine List.lookup_eq_none_iff.mpr fun e he => ?_
  simpa using fun heq : key = e.1 => h (heq ▸ List.mem_map_of_mem he)

/-- The last key is read. -/
theorem lookup_concat {entries : List (κ × α)} (h : key ∉ entries.map Prod.fst) (value : α) :
    (entries ++ [(key, value)]).lookup key = some value := by
  rw [List.lookup_append, lookup_of_not_mem h, Option.none_or]
  simp

end Assoc

namespace Ini

/-! ### Writing -/

/-- The lines of a section: its header, its entries and a blank line. -/
def sectionLines (name : List Char) (entries : List (List Char × List Char)) : List (List Char) :=
  ('[' :: name ++ [']']) :: (entries.map fun e => e.1 ++ '=' :: e.2) ++ [[]]

/-- The text of a list of sections. -/
def text (sections : List (List Char × List (List Char × List Char))) : List Char :=
  (sections.flatMap fun s => sectionLines s.1 s.2).flatMap fun line => line ++ ['\n']

/-- Entries that can be written: words as keys, each once, and values without blanks. -/
structure Entries (entries : List (List Char × List Char)) : Prop where
  keys : ∀ key ∈ entries.map Prod.fst, IsName key
  values : ∀ value ∈ entries.map Prod.snd, Solid value
  nodup : (entries.map Prod.fst).Nodup

/-- Sections that can be written: words as names, each once, and entries that can be written. -/
structure Writable (sections : List (List Char × List (List Char × List Char))) : Prop where
  names : ∀ name ∈ sections.map Prod.fst, IsName name
  entries : ∀ s ∈ sections, Entries s.2
  nodup : (sections.map Prod.fst).Nodup

/-! ### Lines -/

theorem solid_of_isName {s : List Char} (h : IsName s) : Solid s := fun c hc =>
  isBlank_of_isNameChar (h.2 c hc)

theorem solid_header {name : List Char} (h : IsName name) : Solid ('[' :: name ++ [']']) :=
  Solid.append (List.forall_mem_cons.mpr ⟨by decide, solid_of_isName h⟩) (by decide)

theorem solid_entry {key value : List Char} (hkey : IsName key) (hvalue : Solid value) :
    Solid (key ++ '=' :: value) :=
  Solid.append (solid_of_isName hkey) (List.forall_mem_cons.mpr ⟨by decide, hvalue⟩)

/-- A header opens its section. -/
theorem line_header (d : Ini) {name : List Char} (h : IsName name) :
    d.line ('[' :: name ++ [']']) = d.openSection name := by
  have hheader : header? ('[' :: name ++ [']']) = some name := by
    change ((afterPrefix? ['['] (['['] ++ (name ++ [']']))).bind (beforeLast? ']')).map trim = _
    rw [afterPrefix?_append, Option.bind_some, beforeLast?_concat, Option.map_some,
      trim_of_solid (solid_of_isName h)]
  have hsilent : isSilent ('[' :: name ++ [']']) = false := rfl
  unfold line
  dsimp only
  rw [trim_of_solid (solid_header h), hsilent, if_neg Bool.false_ne_true, hheader]

/-- An entry sets its key. -/
theorem line_entry (d : Ini) {key value : List Char} (hkey : IsName key) (hvalue : Solid value) :
    d.line (key ++ '=' :: value) = d.set key value := by
  have hequals : '=' ∉ key := not_mem_of_forall hkey.2 rfl
  obtain ⟨c, rest, rfl⟩ := List.exists_cons_of_ne_nil hkey.1
  have hc : isNameChar c = true := hkey.2 c List.mem_cons_self
  have hne : ∀ d, isNameChar d = false → c ≠ d := by
    rintro d hd rfl
    exact Bool.noConfusion (hc.symm.trans hd)
  have hsilent : isSilent (c :: rest ++ '=' :: value) = false := by
    simp [isSilent, hne ';' rfl, hne '#' rfl]
  have hheader : header? (c :: rest ++ '=' :: value) = none := by
    rw [header?, List.cons_append, afterPrefix?, if_neg (hne '[' rfl).symm]
    rfl
  unfold line
  dsimp only
  rw [trim_of_solid (solid_entry hkey hvalue), hsilent, if_neg Bool.false_ne_true, hheader]
  dsimp only
  rw [cutAt?_append hequals]
  dsimp only
  rw [trim_of_solid (solid_of_isName hkey), trim_of_solid hvalue, if_neg (by simp)]

/-! ### Sections -/

/-- Entries are added to the section that was opened last. -/
theorem foldl_entries {sections : List (List Char × List (List Char × List Char))} {name : List Char}
    (hname : name ∉ sections.map Prod.fst) {done entries : List (List Char × List Char)}
    (h : Entries (done ++ entries)) :
    (entries.map fun e => e.1 ++ '=' :: e.2).foldl line ⟨sections ++ [(name, done)], name⟩ =
      ⟨sections ++ [(name, done ++ entries)], name⟩ := by
  induction entries generalizing done with
  | nil => rw [List.append_nil]; rfl
  | cons e entries ih =>
      obtain ⟨key, value⟩ := e
      have hkey : key ∉ done.map Prod.fst := by
        have hnodup := h.nodup
        rw [List.map_append, List.map_cons, List.nodup_append] at hnodup
        exact fun hmem => hnodup.2.2 key hmem key List.mem_cons_self rfl
      have hset : Ini.set ⟨sections ++ [(name, done)], name⟩ key value =
          ⟨sections ++ [(name, done ++ [(key, value)])], name⟩ := by
        unfold Ini.set section?
        dsimp only
        rw [Assoc.lookup_concat hname, Option.getD_some, Assoc.put_of_not_mem hkey, Assoc.put_concat hname]
      have hassoc : done ++ (key, value) :: entries = done ++ [(key, value)] ++ entries :=
        List.append_cons done (key, value) entries
      rw [hassoc] at h ⊢
      rw [List.map_cons, List.foldl_cons, line_entry _ (h.keys key (by simp)) (h.values value (by simp)),
        hset, ih h]

/-- A section is read behind those before it. -/
theorem foldl_section {sections : List (List Char × List (List Char × List Char))} {name : List Char}
    (hname : name ∉ sections.map Prod.fst) (hword : IsName name)
    {entries : List (List Char × List Char)} (h : Entries entries) (current : List Char) :
    (sectionLines name entries).foldl line ⟨sections, current⟩ =
      ⟨sections ++ [(name, entries)], name⟩ := by
  have hopen : openSection ⟨sections, current⟩ name = ⟨sections ++ [(name, [])], name⟩ := by
    unfold openSection section?
    dsimp only
    rw [Assoc.lookup_of_not_mem hname, Option.getD_none, Assoc.put_of_not_mem hname]
  rw [sectionLines, List.cons_append, List.foldl_cons, line_header _ hword, hopen, List.foldl_append,
    foldl_entries hname (show Entries ([] ++ entries) from h)]
  rfl

/-- Sections are read one after the other. -/
theorem sections_foldl_lines {sections : List (List Char × List (List Char × List Char))}
    (h : Writable sections) {before : List (List Char × List (List Char × List Char))}
    (hnodup : ((before ++ sections).map Prod.fst).Nodup) (current : List Char) :
    ((sections.flatMap fun s => sectionLines s.1 s.2).foldl line ⟨before, current⟩).sections =
      before ++ sections := by
  induction sections generalizing before current with
  | nil => rw [List.append_nil]; rfl
  | cons s sections ih =>
      obtain ⟨name, entries⟩ := s
      have hname : name ∉ before.map Prod.fst := by
        rw [List.map_append, List.map_cons, List.nodup_append] at hnodup
        exact fun hmem => hnodup.2.2 name hmem name List.mem_cons_self rfl
      have hrest : Writable sections :=
        ⟨fun word hword => h.names word (List.mem_cons_of_mem _ hword),
          fun t ht => h.entries t (List.mem_cons_of_mem _ ht), (List.nodup_cons.mp h.nodup).2⟩
      rw [List.append_cons] at hnodup ⊢
      rw [List.flatMap_cons, List.foldl_append, foldl_section hname (h.names _ List.mem_cons_self)
        (h.entries _ List.mem_cons_self), ih hrest hnodup]

/-- Sections that are written are read back. -/
theorem sections_ofText_text {sections : List (List Char × List (List Char × List Char))}
    (h : Writable sections) : (ofText (text sections)).sections = sections := by
  have hline : ∀ line ∈ sections.flatMap fun s => sectionLines s.1 s.2, Solid line := by
    intro line hline
    obtain ⟨s, hs, hline⟩ := List.mem_flatMap.mp hline
    unfold sectionLines at hline
    rw [List.cons_append, List.mem_cons, List.mem_append, List.mem_singleton] at hline
    rcases hline with rfl | hentry | rfl
    · exact solid_header (h.names s.1 (List.mem_map_of_mem hs))
    · obtain ⟨e, he, rfl⟩ := List.mem_map.mp hentry
      exact solid_entry ((h.entries s hs).keys e.1 (List.mem_map_of_mem he))
        ((h.entries s hs).values e.2 (List.mem_map_of_mem he))
    · nofun
  have hlines : lines (text sections) = sections.flatMap fun s => sectionLines s.1 s.2 := by
    refine lines_flatMap fun line hmem => ⟨fun hfeed => ?_, fun hreturn => ?_⟩
    · exact Bool.noConfusion (hline line hmem _ hfeed)
    · exact Bool.noConfusion (hline line hmem _ (List.mem_of_mem_getLast? hreturn))
  unfold ofText
  rw [hlines]
  exact sections_foldl_lines h (show ([] ++ sections |>.map Prod.fst).Nodup from h.nodup) []

end Ini

end RhythmChart
