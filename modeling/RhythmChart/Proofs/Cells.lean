import RhythmChart.Cell.Content
import RhythmChart.Proofs.Numbers
import RhythmChart.Proofs.Symbols

/-! # Cells that are written and read

How a cell is written in its full form, and that it is read back.

Main statements.

* `Cell.text` writes a cell, `Cell.Writable` tells the cells that can be written;
* `splitSymbols_append`: the token and the symbols of a cell are told apart again;
* `Cell.read_text`: a cell that is written is read back, without a remark. -/

namespace RhythmChart

open Number Text

/-! ### Writing -/

/-- The entries of a list, with commas between them. -/
def listText (entries : List (List Char)) : List Char := joinWith [','] entries

/-- A conditional code as it is written. -/
def codeText (code : Bool) : List Char := if code then ['1'] else ['0']

/-- A layer as it is written: the letter of its type and its length. -/
def Layer.text (l : Layer) : List Char := l.noteType.letter?.toList ++ positional l.length

/-- A symbol as it is written, after a blank. -/
def RawSymbol.text (raw : RawSymbol) : List Char := ' ' :: raw.name ++ '\x7b' :: raw.body ++ ['\x7d']

namespace Cell

/-- The type of a cell as it is written. -/
def typeText (c : Cell) : List Char :=
  match c.noteType with
  | .multi => "m(".toList ++ listText (c.layers.map Layer.text) ++ [')']
  | .other token => token.toList
  | t => t.letter?.toList

/-- The symbols of a cell; empty lists of codes are left out. -/
def raws (c : Cell) : List RawSymbol :=
  (if c.loopCodes.isEmpty then [] else [⟨"loop".toList, listText (c.loopCodes.map naturalText)⟩]) ++
    ((if c.branchCodes.isEmpty then []
      else [⟨"if".toList, listText (c.branchCodes.map codeText)⟩]) ++
      c.commands.map fun command =>
        ⟨command.name.toList, listText (command.params.map integerText)⟩)

/-- A cell as it is written: its length, its type and its symbols. -/
def text (c : Cell) : List Char :=
  positional c.length ++ ';' :: (c.typeText ++ c.raws.flatMap RawSymbol.text)

end Cell

/-! ### What can be written -/

/-- The length of a note or a layer: finite and not negative. -/
def IsLength (x : Float) : Prop := 0.0 ≤ x ∧ x.isFinite = true

instance (x : Float) : Decidable (IsLength x) := inferInstanceAs (Decidable (_ ∧ _))

/-- Lengths and positions are read if they are finite and not negative. -/
theorem IsLength.filter_some {x : Float} (h : IsLength x) :
    (some x).filter (fun y => y.isFinite && decide (0.0 ≤ y)) = some x :=
  Option.filter_eq_some_iff.mpr ⟨rfl, by simp [h.1, h.2]⟩

/-- Layers are tracks, taps, holds or breaks. -/
def Layer.Writable (l : Layer) : Prop :=
  l.noteType ∈ [NoteType.track, .tap, .hold, .breaking] ∧ IsLength l.length

instance (l : Layer) : Decidable l.Writable := inferInstanceAs (Decidable (_ ∧ _))

/-- A name that is not reserved, nor a type letter before a reserved name. -/
def IsCommandName (name : List Char) : Prop :=
  IsName name ∧ isReserved name = false ∧
    ((name.head?.bind NoteType.ofLetter?).isSome = true → isReserved name.tail = false)

instance (name : List Char) : Decidable (IsCommandName name) := inferInstanceAs (Decidable (_ ∧ _))

/-- Parameters have 32 bits. -/
def Command.Writable (c : Command) : Prop :=
  IsCommandName c.name.toList ∧ ∀ p ∈ c.params, -2147483648 ≤ p ∧ p ≤ 2147483647

instance (c : Command) : Decidable c.Writable := inferInstanceAs (Decidable (_ ∧ _))

/-- Only multi notes have layers, and a token is no type letter. -/
def IsTyped : NoteType → List Layer → Prop
  | .multi, layers => ∀ l ∈ layers, l.Writable
  | .other token, layers => layers.isEmpty = true ∧ IsName token.toList ∧
      ((single? token.toList).bind NoteType.ofLetter?).isNone = true
  | _, layers => layers.isEmpty = true

instance (t : NoteType) (layers : List Layer) : Decidable (IsTyped t layers) :=
  match t with
  | .multi => inferInstanceAs (Decidable (∀ l ∈ layers, l.Writable))
  | .other _ => inferInstanceAs (Decidable (_ ∧ _))
  | .track | .tap | .hold | .breaking => inferInstanceAs (Decidable (layers.isEmpty = true))

/-- A cell that can be written: counts have 32 bits. -/
def Cell.Writable (c : Cell) : Prop :=
  IsLength c.length ∧ IsTyped c.noteType c.layers ∧ (∀ n ∈ c.loopCodes, n ≤ maxCount) ∧
    ∀ command ∈ c.commands, command.Writable

instance (c : Cell) : Decidable c.Writable := inferInstanceAs (Decidable (_ ∧ _))

/-! ### Characters -/

theorem isBlank_of_isNumberChar {c : Char} (h : isNumberChar c = true) : isBlank c = false := by
  unfold isNumberChar at h
  rw [Bool.or_eq_true, Bool.or_eq_true, beq_iff_eq, beq_iff_eq] at h
  rcases h with (h | rfl) | rfl
  · obtain ⟨hlow, hhigh⟩ := Char.isDigit_iff_toNat.mp h
    exact isBlank_of_visible (le_trans (by decide) hlow) (le_trans hhigh (by decide))
  · rfl
  · rfl

theorem isBlank_of_isNameChar {c : Char} (h : isNameChar c = true) : isBlank c = false := by
  have hrange : ∀ {low high : Char}, low.val ≤ c.val → c.val ≤ high.val → 0x21 ≤ low.toNat →
      high.toNat ≤ 0x7E → isBlank c = false := fun hlow hhigh hl hh =>
    isBlank_of_visible (hl.trans (UInt32.le_iff_toNat_le.mp hlow))
      ((UInt32.le_iff_toNat_le.mp hhigh).trans hh)
  unfold isNameChar Char.isAlphanum Char.isAlpha Char.isUpper Char.isLower Char.isDigit at h
  simp only [Bool.or_eq_true, Bool.and_eq_true, decide_eq_true_eq, beq_iff_eq] at h
  rcases h with ((⟨hlow, hhigh⟩ | ⟨hlow, hhigh⟩) | ⟨hlow, hhigh⟩) | rfl
  · exact hrange hlow hhigh (by decide) (by decide)
  · exact hrange hlow hhigh (by decide) (by decide)
  · exact hrange hlow hhigh (by decide) (by decide)
  · rfl

/-- A text of characters of one kind does not hold a character of another kind. -/
theorem not_mem_of_forall {p : Char → Bool} {s : List Char} (h : ∀ c ∈ s, p c = true) {d : Char}
    (hd : p d = false) : d ∉ s := fun hmem => Bool.noConfusion ((h d hmem).symm.trans hd)

theorem solid_of_isNumberChar {s : List Char} (h : ∀ c ∈ s, isNumberChar c = true) : Solid s :=
  fun c hc => isBlank_of_isNumberChar (h c hc)

/-- The characters of types and of the bodies of symbols. -/
def isTokenChar (c : Char) : Bool :=
  isNameChar c || isNumberChar c || c == ',' || c == '(' || c == ')'

theorem isTokenChar_of_isNameChar {c : Char} (h : isNameChar c = true) : isTokenChar c = true := by
  simp [isTokenChar, h]

theorem isTokenChar_of_isNumberChar {c : Char} (h : isNumberChar c = true) : isTokenChar c = true := by
  simp [isTokenChar, h]

theorem isBlank_of_isTokenChar {c : Char} (h : isTokenChar c = true) : isBlank c = false := by
  simp only [isTokenChar, Bool.or_eq_true, beq_iff_eq] at h
  rcases h with (((h | h) | rfl) | rfl) | rfl
  · exact isBlank_of_isNameChar h
  · exact isBlank_of_isNumberChar h
  · rfl
  · rfl
  · rfl

theorem isNameChar_letter {t : NoteType} : ∀ c ∈ t.letter?.toList, isNameChar c = true := by
  cases t with
  | other => nofun
  | track | tap | hold | breaking | multi => exact List.forall_mem_singleton.mpr rfl

/-! ### Lists -/

/-- A text of number characters can stand in a list. -/
def IsEntry (e : List Char) : Prop := e ≠ [] ∧ Solid e ∧ ',' ∉ e

theorem isEntry_of_isNumberChar {e : List Char} (hne : e ≠ []) (h : ∀ c ∈ e, isNumberChar c = true) :
    IsEntry e := ⟨hne, solid_of_isNumberChar h, not_mem_of_forall h rfl⟩

theorem forall_mem_listText {P : Char → Prop} (hcomma : P ',') {entries : List (List Char)}
    (h : ∀ e ∈ entries, ∀ c ∈ e, P c) : ∀ c ∈ listText entries, P c := by
  unfold listText
  induction entries with
  | nil => nofun
  | cons e entries ih =>
      match entries, ih with
      | [], _ => exact h e List.mem_cons_self
      | f :: rest, ih =>
          refine List.forall_mem_append.mpr ⟨List.forall_mem_append.mpr ⟨h e List.mem_cons_self, ?_⟩, ?_⟩
          · exact List.forall_mem_singleton.mpr hcomma
          · exact ih fun g hg => h g (List.mem_cons_of_mem _ hg)

theorem solid_listText {entries : List (List Char)} (h : ∀ e ∈ entries, Solid e) :
    Solid (listText entries) := forall_mem_listText (P := fun c => isBlank c = false) rfl h

/-- Trimming the fields of a list gives its entries. -/
theorem map_trim_fields {entries : List (List Char)} (hne : entries ≠ [])
    (h : ∀ e ∈ entries, IsEntry e) : (fields ',' (listText entries)).map trim = entries := by
  rw [listText, fields_joinWith hne fun e he => (h e he).2.2]
  exact (List.map_congr_left fun e he => trim_of_solid (h e he).2.1).trans (List.map_id entries)

theorem listText_eq_nil {entries : List (List Char)} (h : ∀ e ∈ entries, e ≠ []) :
    listText entries = [] ↔ entries = [] := by
  refine ⟨fun heq => ?_, fun heq => heq ▸ rfl⟩
  match entries with
  | [] => rfl
  | [e] => exact absurd heq (h e List.mem_cons_self)
  | e :: f :: rest =>
      simp [listText, joinWith] at heq

/-- Entries are read back from a list of them. -/
theorem Symbol.entries_listText {entries : List (List Char)} (h : ∀ e ∈ entries, IsEntry e) :
    Symbol.entries (listText entries) = entries := by
  have hsolid := solid_listText fun e he => (h e he).2.1
  unfold Symbol.entries
  rw [trim_of_solid hsolid]
  split_ifs with hempty
  · exact ((listText_eq_nil fun e he => (h e he).1).mp (List.isEmpty_iff.mp hempty)).symm
  · refine map_trim_fields (fun heq => hempty ?_) h
    rw [heq]
    rfl

/-- A list of integers of 64 bits is read back. -/
theorem Symbol.values_listText {α : Type} {write : α → List Char} {value : α → Int} {items : List α}
    (hentry : ∀ a ∈ items, IsEntry (write a)) (hread : ∀ a ∈ items, int64? (write a) = some (value a)) :
    Symbol.values (listText (items.map write)) = items.map fun a => some (value a) := by
  unfold Symbol.values
  rw [Symbol.entries_listText (List.forall_mem_map.mpr hentry), List.map_map]
  exact List.map_congr_left hread

/-- A list of integers gives no remark about its entries. -/
theorem Symbol.remarks_listText {α : Type} {write : α → List Char} {value : α → Int} {items : List α}
    (name : List Char) (hentry : ∀ a ∈ items, IsEntry (write a))
    (hread : ∀ a ∈ items, int64? (write a) = some (value a))
    (hvalue : ∀ a ∈ items, Symbol.valueRemark? name (SymbolKind.ofName name) (some (value a)) = none) :
    Symbol.remarks name (listText (items.map write)) = [] := by
  unfold Symbol.remarks
  rw [List.append_eq_nil_iff, Symbol.values_listText hentry hread,
    Symbol.entries_listText (List.forall_mem_map.mpr hentry), List.filterMap_eq_nil_iff,
    List.filterMap_eq_nil_iff]
  constructor
  · intro e he
    obtain ⟨a, ha, hread'⟩ := List.mem_map.mp (List.fst_mem_of_mem_zipIdx he)
    rw [Symbol.entryRemark?, ← hread', hread a ha]
    rfl
  · exact List.forall_mem_map.mpr hvalue

/-! ### Layers and types -/

theorem Cell.length?_positional {x : Float} (h : IsLength x) : length? (positional x) = some x := by
  unfold Cell.length?
  rw [trim_of_solid (solid_of_isNumberChar (isNumberChar_positional h.2).2), float?_positional h.2]
  exact h.filter_some

/-- A layer that is written is read back. -/
theorem Cell.readLayer_text {l : Layer} (h : l.Writable) : readLayer l.text = .ok l := by
  obtain ⟨t, x⟩ := l
  obtain ⟨hsimple, hlength⟩ := h
  obtain ⟨hne, -⟩ := isNumberChar_positional hlength.2
  have hletter : ∀ c, NoteType.ofLetter? c = some t → t ≠ .multi →
      readLayer (c :: positional x) = .ok ⟨t, x⟩ := by
    intro c hc hmulti
    unfold Cell.readLayer
    dsimp only
    rw [hc]
    split
    · next h => cases h
    · next h => exact absurd (Option.some.inj h) hmulti
    · next t' _ h =>
      cases h
      rw [if_neg (by simpa using hne), Cell.length?_positional hlength]
  simp only [List.mem_cons, List.not_mem_nil, or_false] at hsimple
  rcases hsimple with rfl | rfl | rfl | rfl <;> exact hletter _ rfl nofun

theorem Layer.isEntry_text {l : Layer} (h : l.Writable) : IsEntry l.text := by
  obtain ⟨hne, hchars⟩ := isNumberChar_positional h.2.2
  refine ⟨List.append_ne_nil_of_right_ne_nil _ hne, ?_, List.not_mem_append ?_ ?_⟩
  · exact Solid.append (fun c hc => isBlank_of_isNameChar (isNameChar_letter c hc))
      (solid_of_isNumberChar hchars)
  · exact not_mem_of_forall isNameChar_letter rfl
  · exact not_mem_of_forall hchars rfl

theorem Layer.isTokenChar_text {l : Layer} (h : l.Writable) : ∀ c ∈ l.text, isTokenChar c = true :=
  List.forall_mem_append.mpr ⟨fun c hc => isTokenChar_of_isNameChar (isNameChar_letter c hc),
    fun c hc => isTokenChar_of_isNumberChar ((isNumberChar_positional h.2.2).2 c hc)⟩

/-- Layers that are written are read back. -/
theorem Cell.readLayers_listText {layers : List Layer} (h : ∀ l ∈ layers, l.Writable) :
    readLayers (listText (layers.map Layer.text)) = .ok layers := by
  have hentries : ∀ e ∈ layers.map Layer.text, IsEntry e :=
    List.forall_mem_map.mpr fun l hl => Layer.isEntry_text (h l hl)
  have hparts : ((fields ',' (listText (layers.map Layer.text))).map trim).filter (fun p => !p.isEmpty) =
      layers.map Layer.text := by
    by_cases hne : layers.map Layer.text = []
    · rw [hne]
      rfl
    · rw [map_trim_fields hne hentries]
      exact List.filter_eq_self.mpr fun e he => by simpa using (hentries e he).1
  unfold Cell.readLayers
  rw [hparts]
  clear hparts hentries
  induction layers with
  | nil => rfl
  | cons l layers ih =>
      rw [List.map_cons, List.mapM_cons, readLayer_text (h l List.mem_cons_self),
        ih fun k hk => h k (List.mem_cons_of_mem _ hk)]
      rfl

/-- What stands after a start. -/
theorem eq_of_afterPrefix? {p s t : List Char} (h : afterPrefix? p s = some t) : s = p ++ t := by
  induction p generalizing s with
  | nil => exact Option.some.inj h
  | cons c p ih =>
      cases s with
      | nil => cases h
      | cons d s =>
          rw [afterPrefix?] at h
          split_ifs at h with hc
          rw [hc, ih h]
          rfl

/-- A type and layers that are written are read back. -/
theorem Cell.typeToken_typeText {c : Cell} (h : IsTyped c.noteType c.layers) :
    typeToken c.typeText = .ok (c.noteType, c.layers) := by
  obtain ⟨t, length, loopCodes, branchCodes, commands, layers⟩ := c
  dsimp only at h
  unfold Cell.typeText
  cases t with
  | multi =>
      have hlist : layerList? ("m(".toList ++ listText (layers.map Layer.text) ++ [')']) =
          some (listText (layers.map Layer.text)) := by
        rw [layerList?, List.append_assoc, afterPrefix?_append, Option.bind_some, beforeLast?_concat]
      have hsingle : single? ("m(".toList ++ listText (layers.map Layer.text) ++ [')']) = none := by
        unfold single?
        split
        · next heq => simpa using congrArg List.length heq
        · rfl
      unfold Cell.typeToken
      dsimp only
      rw [hlist, hsingle]
      change (readLayers _).map _ = _
      rw [readLayers_listText h]
      rfl
  | other token =>
      obtain ⟨hlayers, ⟨-, hchars⟩, hletter⟩ := h
      have hlist : layerList? token.toList = none := by
        refine Option.bind_eq_none_iff.mpr fun list hlist => ?_
        have hparen : '(' ∈ token.toList := by
          rw [eq_of_afterPrefix? hlist]
          simp
        exact absurd hparen (not_mem_of_forall hchars rfl)
      unfold Cell.typeToken
      dsimp only
      rw [hlist, Option.isNone_iff_eq_none.mp hletter, List.isEmpty_iff.mp hlayers, String.ofList_toList]
  | track | tap | hold | breaking =>
      cases List.isEmpty_iff.mp h
      rfl

theorem Cell.typeText_ne_nil {c : Cell} (h : IsTyped c.noteType c.layers) : c.typeText ≠ [] := by
  obtain ⟨t, length, loopCodes, branchCodes, commands, layers⟩ := c
  cases t with
  | other token => exact h.2.1.1
  | track | tap | hold | breaking | multi => exact List.cons_ne_nil _ _

theorem Cell.isTokenChar_typeText {c : Cell} (h : IsTyped c.noteType c.layers) :
    ∀ d ∈ c.typeText, isTokenChar d = true := by
  obtain ⟨t, length, loopCodes, branchCodes, commands, layers⟩ := c
  cases t with
  | multi =>
      have hlayers : ∀ d ∈ listText (layers.map Layer.text), isTokenChar d = true :=
        forall_mem_listText (P := fun d => isTokenChar d = true) rfl
          (List.forall_mem_map.mpr fun l hl => l.isTokenChar_text (h l hl))
      exact List.forall_mem_append.mpr ⟨List.forall_mem_append.mpr ⟨List.all_eq_true.mp rfl, hlayers⟩,
        List.forall_mem_singleton.mpr rfl⟩
  | other token => exact fun d hd => isTokenChar_of_isNameChar (h.2.1.2 d hd)
  | track | tap | hold | breaking => exact List.forall_mem_singleton.mpr rfl

/-! ### Telling symbols apart -/

theorem unbraced_of_isTokenChar {s : List Char} (h : ∀ c ∈ s, isTokenChar c = true) : Unbraced s :=
  ⟨not_mem_of_forall h rfl, not_mem_of_forall h rfl⟩

/-- A symbol that is read as it is written. -/
structure RawSymbol.Writable (raw : RawSymbol) : Prop where
  named : IsName raw.name
  whole : unglue raw.name = ([], raw.name)
  body : ∀ c ∈ raw.body, isTokenChar c = true

/-- A symbol that is written is an occurrence, with what is free before it. -/
theorem RawSymbol.Writable.exists_occurrence {raw : RawSymbol} (h : raw.Writable) {free : List Char}
    (hfree : Unbraced free) :
    ∃ o : Occurrence, o.text = free ++ raw.text ∧ o.symbol = raw ∧ o.left = free ++ [' '] := by
  obtain ⟨name, body⟩ := raw
  have hblank : Ended (free ++ [' ']) := by
    rw [Ended, List.getLast?_concat]
    rintro c ⟨⟩
    rfl
  let o : Occurrence :=
    ⟨free ++ [' '], name, body, unbraced_append.mpr ⟨hfree, by decide⟩, unbraced_of_isTokenChar h.body,
      h.named, hblank⟩
  obtain ⟨hletter, hname⟩ := Prod.mk.inj (o.unglue_run.symm.trans h.whole)
  refine ⟨o, ?_, ?_, ?_⟩
  · simp [o, Occurrence.text, RawSymbol.text]
  · exact congrArg (RawSymbol.mk · body) hname
  · rw [Occurrence.left, hletter, List.append_nil]

/-- A token and symbols that are written are a row of occurrences, which leaves the token. -/
theorem exists_occurrences_of_writable {raws : List RawSymbol} (h : ∀ raw ∈ raws, raw.Writable)
    {token : List Char} (htoken : Unbraced token) :
    ∃ (os : List Occurrence) (rest : List Char), Unbraced rest ∧
      token ++ raws.flatMap RawSymbol.text = os.flatMap Occurrence.text ++ rest ∧
      os.map Occurrence.symbol = raws ∧
      unblanked (os.flatMap Occurrence.left ++ rest) = unblanked token := by
  induction raws generalizing token with
  | nil => exact ⟨[], token, htoken, List.append_nil _, rfl, rfl⟩
  | cons raw raws ih =>
      obtain ⟨o, htext, hsymbol, hleft⟩ := (h raw List.mem_cons_self).exists_occurrence htoken
      obtain ⟨os, rest, hrest, hread, hsymbols, htoken⟩ :=
        ih (fun r hr => h r (List.mem_cons_of_mem _ hr)) unbraced_nil
      refine ⟨o :: os, rest, hrest, ?_, ?_, ?_⟩
      · rw [List.flatMap_cons, List.flatMap_cons, ← List.append_assoc, ← htext, List.append_assoc, ← hread,
          List.nil_append]
      · rw [List.map_cons, hsymbol, hsymbols]
      · rw [List.flatMap_cons, List.append_assoc, unblanked_append, htoken, hleft, unblanked_append,
          List.append_assoc]
        exact List.append_nil _

/-- The token and the symbols of a cell are told apart again. -/
theorem splitSymbols_append {token : List Char} (htoken : ∀ c ∈ token, isTokenChar c = true)
    {raws : List RawSymbol} (h : ∀ raw ∈ raws, raw.Writable) :
    splitSymbols (token ++ raws.flatMap RawSymbol.text) = .ok (token, raws) := by
  have hsolid : Solid token := fun c hc => isBlank_of_isTokenChar (htoken c hc)
  obtain ⟨os, rest, hrest, htext, hsymbols, hleft⟩ :=
    exists_occurrences_of_writable h (unbraced_of_isTokenChar htoken)
  rw [htext, splitSymbols_of_occurrences os hrest, hsymbols, hleft, unblanked_of_solid hsolid]

/-! ### Meanings -/

/-- The name of a command is taken as a whole. -/
theorem IsCommandName.unglue {name : List Char} (h : IsCommandName name) :
    unglue name = ([], name) := by
  obtain ⟨⟨hne, -⟩, -, hglued⟩ := h
  cases name with
  | nil => rfl
  | cons c rest =>
      rw [RhythmChart.unglue, if_neg]
      rintro ⟨-, hreserved, hletter⟩
      exact hreserved (SymbolKind.ofName_eq_command_iff.mpr (hglued hletter))

/-- A list of numbers, as it stands in a symbol. -/
structure IsNumberList {α : Type} (write : α → List Char) (value : α → Int) (items : List α) : Prop where
  nonempty : ∀ a ∈ items, write a ≠ []
  chars : ∀ a ∈ items, ∀ c ∈ write a, isNumberChar c = true
  read : ∀ a ∈ items, int64? (write a) = some (value a)

section
variable {α : Type} {write : α → List Char} {value : α → Int} {items : List α}
  (h : IsNumberList write value items)
include h

theorem IsNumberList.isTokenChar : ∀ c ∈ listText (items.map write), isTokenChar c = true :=
  forall_mem_listText (P := fun c => RhythmChart.isTokenChar c = true) rfl
    (List.forall_mem_map.mpr fun a ha c hc => isTokenChar_of_isNumberChar (h.chars a ha c hc))

theorem IsNumberList.isEntry : ∀ a ∈ items, IsEntry (write a) := fun a ha =>
  isEntry_of_isNumberChar (h.nonempty a ha) (h.chars a ha)

end

theorem isNumberList_counts {counts : List Nat} (h : ∀ n ∈ counts, n ≤ maxCount) :
    IsNumberList naturalText (fun n => (n : Int)) counts where
  nonempty n _ := naturalText_ne_nil n
  chars _ _ := isNumberChar_naturalText
  read n hn := by
    have := h n hn
    unfold maxCount at this
    exact signed?_naturalText (by omega) (by omega)

theorem isNumberList_codes (codes : List Bool) :
    IsNumberList codeText (fun b => if b then 1 else 0) codes where
  nonempty b _ := by cases b <;> exact List.cons_ne_nil _ _
  chars b _ := by cases b <;> exact List.forall_mem_singleton.mpr rfl
  read b _ := by cases b <;> rfl

theorem isNumberList_params {params : List Int} (h : ∀ p ∈ params, -2147483648 ≤ p ∧ p ≤ 2147483647) :
    IsNumberList integerText (fun p => p) params where
  nonempty p _ := integerText_ne_nil p
  chars _ _ := isNumberChar_integerText
  read p hp := int64?_integerText (h p hp).1 (h p hp).2

namespace Cell

/-- A loop that is written gives its counts. -/
theorem absorb_loop {c : Cell} (hfirst : c.loopCodes = []) {counts : List Nat}
    (h : ∀ n ∈ counts, n ≤ maxCount) (remarks : List CellRemark) :
    absorb (c, remarks) ⟨"loop".toList, listText (counts.map naturalText)⟩ =
      ({ c with loopCodes := counts }, remarks) := by
  have hlist := isNumberList_counts h
  have hremarks := Symbol.remarks_listText "loop".toList hlist.isEntry hlist.read fun n _ => by
    rw [show SymbolKind.ofName "loop".toList = .loop from rfl, Symbol.valueRemark?, if_neg (by omega)]
  have hread : Symbol.read "loop".toList (listText (counts.map naturalText)) = .loop counts := by
    change Symbol.loop ((Symbol.values _).map Symbol.countOf) = _
    rw [Symbol.values_listText hlist.isEntry hlist.read, List.map_map]
    refine congrArg _ ((List.map_congr_left fun n hn => ?_).trans (List.map_id counts))
    exact Nat.min_eq_left (h n hn)
  unfold absorb
  dsimp only
  rw [hremarks, hread, List.append_nil, hfirst]
  rfl

/-- A conditional that is written gives its codes. -/
theorem absorb_branch {c : Cell} (hfirst : c.branchCodes = []) (codes : List Bool)
    (remarks : List CellRemark) :
    absorb (c, remarks) ⟨"if".toList, listText (codes.map codeText)⟩ =
      ({ c with branchCodes := codes }, remarks) := by
  have hlist := isNumberList_codes codes
  have hremarks := Symbol.remarks_listText "if".toList hlist.isEntry hlist.read fun b _ => by
    cases b <;> rfl
  have hread : Symbol.read "if".toList (listText (codes.map codeText)) = .branch codes := by
    change Symbol.branch ((Symbol.values _).map Symbol.codeOf) = _
    rw [Symbol.values_listText hlist.isEntry hlist.read, List.map_map]
    refine congrArg _ ((List.map_congr_left fun b _ => ?_).trans (List.map_id codes))
    cases b <;> rfl
  unfold absorb
  dsimp only
  rw [hremarks, hread, List.append_nil, hfirst]
  rfl

/-- A command that is written is added. -/
theorem absorb_command {command : Command} (h : command.Writable) (c : Cell) (remarks : List CellRemark) :
    absorb (c, remarks) ⟨command.name.toList, listText (command.params.map integerText)⟩ =
      ({ c with commands := c.commands ++ [command] }, remarks) := by
  have hlist := isNumberList_params h.2
  have hkind := SymbolKind.ofName_eq_command_iff.mpr h.1.2.1
  have hremarks := Symbol.remarks_listText command.name.toList hlist.isEntry hlist.read fun p _ => by
    rw [hkind]
    rfl
  have hread : Symbol.read command.name.toList (listText (command.params.map integerText)) =
      .command command := by
    unfold Symbol.read
    rw [hkind, Symbol.values_listText hlist.isEntry hlist.read]
    dsimp only
    rw [String.ofList_toList, List.map_map]
    refine congrArg (fun params => Symbol.command ⟨command.name, params⟩)
      ((List.map_congr_left fun p hp => ?_).trans (List.map_id command.params))
    have := h.2 p hp
    simp only [Function.comp_apply, Symbol.paramOf, Option.getD_some, id]
    omega
  unfold absorb
  dsimp only
  rw [hremarks, hread, List.append_nil]

/-- The symbols of a cell give what they were written for. -/
theorem foldl_absorb_raws {c : Cell} (h : c.Writable) :
    c.raws.foldl absorb ({ plain c.noteType c.length with layers := c.layers }, []) = (c, []) := by
  obtain ⟨-, -, hcounts, hcommands⟩ := h
  obtain ⟨t, length, loopCodes, branchCodes, commands, layers⟩ := c
  dsimp only at hcounts hcommands
  -- The loop and the conditional come first, each onto an empty list of codes; the commands are appended.
  have hloop : (if loopCodes.isEmpty then []
      else [⟨"loop".toList, listText (loopCodes.map naturalText)⟩] : List RawSymbol).foldl absorb
        (⟨t, length, [], [], [], layers⟩, []) = (⟨t, length, loopCodes, [], [], layers⟩, []) := by
    split_ifs with hempty
    · rw [List.isEmpty_iff.mp hempty]
      rfl
    · exact absorb_loop (c := ⟨t, length, [], [], [], layers⟩) rfl hcounts []
  have hbranch : (if branchCodes.isEmpty then []
      else [⟨"if".toList, listText (branchCodes.map codeText)⟩] : List RawSymbol).foldl absorb
        (⟨t, length, loopCodes, [], [], layers⟩, []) =
          (⟨t, length, loopCodes, branchCodes, [], layers⟩, []) := by
    split_ifs with hempty
    · rw [List.isEmpty_iff.mp hempty]
      rfl
    · exact absorb_branch (c := ⟨t, length, loopCodes, [], [], layers⟩) rfl branchCodes []
  have hcommand : ∀ before : List Command, (commands.map fun command => (⟨command.name.toList,
      listText (command.params.map integerText)⟩ : RawSymbol)).foldl absorb
        (⟨t, length, loopCodes, branchCodes, before, layers⟩, []) =
          (⟨t, length, loopCodes, branchCodes, before ++ commands, layers⟩, []) := by
    clear hloop hbranch
    induction commands with
    | nil => exact fun before => by rw [List.append_nil]; rfl
    | cons command commands ih =>
        intro before
        rw [List.map_cons, List.foldl_cons, absorb_command (hcommands command List.mem_cons_self)]
        dsimp only
        rw [ih (fun k hk => hcommands k (List.mem_cons_of_mem _ hk)), List.append_assoc]
        rfl
  unfold raws plain
  dsimp only
  rw [List.foldl_append, List.foldl_append, hloop, hbranch]
  exact hcommand []

/-- The symbols of a cell are read as they are written. -/
theorem writable_raws {c : Cell} (h : c.Writable) : ∀ raw ∈ c.raws, raw.Writable := by
  obtain ⟨-, -, hcounts, hcommands⟩ := h
  have hloop : ∀ body, (∀ c ∈ body, isTokenChar c = true) → RawSymbol.Writable ⟨"loop".toList, body⟩ :=
    fun body hbody => ⟨⟨List.cons_ne_nil _ _, List.all_eq_true.mp rfl⟩, rfl, hbody⟩
  have hbranch : ∀ body, (∀ c ∈ body, isTokenChar c = true) → RawSymbol.Writable ⟨"if".toList, body⟩ :=
    fun body hbody => ⟨⟨List.cons_ne_nil _ _, List.all_eq_true.mp rfl⟩, rfl, hbody⟩
  unfold raws
  refine List.forall_mem_append.mpr ⟨?_, List.forall_mem_append.mpr ⟨?_, ?_⟩⟩
  · split_ifs
    · nofun
    · exact List.forall_mem_singleton.mpr (hloop _ (isNumberList_counts hcounts).isTokenChar)
  · split_ifs
    · nofun
    · exact List.forall_mem_singleton.mpr (hbranch _ (isNumberList_codes c.branchCodes).isTokenChar)
  · refine List.forall_mem_map.mpr fun command hcommand => ?_
    obtain ⟨hname, hparams⟩ := hcommands command hcommand
    exact ⟨hname.1, hname.unglue, (isNumberList_params hparams).isTokenChar⟩

end Cell

/-! ### Cells -/

/-- The characters of cells. -/
def isCellChar (c : Char) : Bool :=
  isTokenChar c || c == ';' || c == ' ' || c == '\x7b' || c == '\x7d'

theorem isCellChar_of_isTokenChar {c : Char} (h : isTokenChar c = true) : isCellChar c = true := by
  simp [isCellChar, h]

namespace Cell

theorem isCellChar_text {c : Cell} (h : c.Writable) : ∀ d ∈ c.text, isCellChar d = true := by
  have hlength : ∀ d ∈ positional c.length, isCellChar d = true := fun d hd =>
    isCellChar_of_isTokenChar (isTokenChar_of_isNumberChar ((isNumberChar_positional h.1.2).2 d hd))
  have htype : ∀ d ∈ c.typeText, isCellChar d = true := fun d hd =>
    isCellChar_of_isTokenChar (isTokenChar_typeText h.2.1 d hd)
  have hraws : ∀ raw ∈ c.raws, ∀ d ∈ raw.text, isCellChar d = true := by
    intro raw hraw
    obtain ⟨⟨-, hname⟩, -, hbody⟩ := writable_raws h raw hraw
    refine List.forall_mem_append.mpr ⟨List.forall_mem_append.mpr ⟨?_, ?_⟩, ?_⟩
    · exact List.forall_mem_cons.mpr ⟨rfl, fun d hd =>
        isCellChar_of_isTokenChar (isTokenChar_of_isNameChar (hname d hd))⟩
    · exact List.forall_mem_cons.mpr ⟨rfl, fun d hd => isCellChar_of_isTokenChar (hbody d hd)⟩
    · exact List.forall_mem_singleton.mpr rfl
  refine List.forall_mem_append.mpr ⟨hlength, List.forall_mem_cons.mpr ⟨rfl, ?_⟩⟩
  exact List.forall_mem_append.mpr ⟨htype, List.forall_mem_flatMap.mpr hraws⟩

/-- Nothing is trimmed of a cell that is written. -/
theorem trim_text {c : Cell} (h : c.Writable) : trim c.text = c.text := by
  obtain ⟨hne, hlength⟩ := isNumberChar_positional h.1.2
  have hraws : ∀ raws : List RawSymbol,
      ∀ d ∈ (raws.flatMap RawSymbol.text).getLast?, isBlank d = false := by
    intro raws
    induction raws with
    | nil => nofun
    | cons raw raws ih =>
        refine forall_getLast?_append (fun d hd => ?_) ih
        rw [RawSymbol.text, List.getLast?_concat] at hd
        cases hd
        rfl
  refine trim_of_ends (fun d hd => ?_) fun d hd => ?_
  · rw [text, List.head?_append_of_ne_nil _ hne] at hd
    exact isBlank_of_isNumberChar (hlength d (List.mem_of_mem_head? hd))
  · have hrest : c.typeText ++ c.raws.flatMap RawSymbol.text ≠ [] :=
      List.append_ne_nil_of_left_ne_nil (typeText_ne_nil h.2.1) _
    rw [text, List.getLast?_append_of_ne_nil _ (List.cons_ne_nil _ _),
      List.getLast?_cons_of_ne_nil hrest] at hd
    refine forall_getLast?_append (fun e he => ?_) (hraws c.raws) d hd
    exact isBlank_of_isTokenChar (isTokenChar_typeText h.2.1 e (List.mem_of_mem_getLast? he))

/-- A cell that is written is read back, without a remark. -/
theorem read_text {c : Cell} (h : c.Writable) : read c.text = .ok (c, []) := by
  obtain ⟨hne, hlength⟩ := isNumberChar_positional h.1.2
  have hcut : cutAt? ';' c.text = some (positional c.length, c.typeText ++ c.raws.flatMap RawSymbol.text) :=
    cutAt?_append (not_mem_of_forall hlength rfl) _
  -- The cell is not one of the short forms: it holds a semicolon.
  have hlong : (c.text.isEmpty || c.text == ['0']) = false := by
    have hmem : ';' ∈ c.text := List.mem_append_right _ List.mem_cons_self
    rw [Bool.or_eq_false_iff, List.isEmpty_eq_false_iff, beq_eq_false_iff_ne]
    exact ⟨List.ne_nil_of_mem hmem, fun heq => absurd (heq ▸ hmem) (by decide)⟩
  have htype : c.typeText.isEmpty = false := List.isEmpty_eq_false_iff.mpr (typeText_ne_nil h.2.1)
  unfold read
  rw [trim_text h]
  dsimp only
  rw [hlong, hcut]
  change readFull _ _ = _
  unfold readFull
  rw [length?_positional h.1, splitSymbols_append (isTokenChar_typeText h.2.1) (writable_raws h)]
  dsimp only
  rw [htype, typeToken_typeText h.2.1]
  exact congrArg Except.ok (foldl_absorb_raws h)

end Cell

end RhythmChart
