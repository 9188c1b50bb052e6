import RhythmChart.Keymap
import RhythmChart.Proofs.Cells

/-! # Keys that are written and read

Keys are written by name, and their names are read back.

Main statements.

* `Key.nameable_of_ofName?`: every key that is read from a name has a name itself;
* `Key.ofName?_name`: the name of a key is read as that key;
* `Keymap.readable_of_read?` and `Keymap.Readable.read?_text`: bindings that were read once are read
  back from their text, in their order. -/

namespace RhythmChart

open Text

/-! ### Keys -/

/-- The only character after a start is a character of the text. -/
theorem mem_of_afterPrefix? {p s : List Char} {c : Char} (h : (afterPrefix? p s).bind single? = some c) :
    c ∈ s := by
  obtain ⟨t, hafter, hsingle⟩ := Option.bind_eq_some_iff.mp h
  rw [eq_of_afterPrefix? hafter]
  match t, hsingle with
  | [d], hsingle =>
    obtain rfl : d = c := Option.some.inj hsingle
    exact List.mem_append_right _ List.mem_cons_self

/-- A letter or a digit is not blank. -/
theorem isBlank_of_isAlphanum {c : Char} (h : c.isAlphanum = true) : isBlank c = false :=
  isBlank_of_isNameChar (by rw [isNameChar, h]; rfl)

/-- What has no capital letters is no different in small ones. -/
theorem isBlank_toLower {c : Char} (h : isBlank c = false) : isBlank c.toLower = false := by
  by_cases hupper : c.isUpper = true
  · exact isBlank_of_isAlphanum (by simp [Char.isAlphanum, Char.isAlpha, hupper])
  · rwa [Char.toLower_eq_of_not_isUpper hupper]

namespace Key

/-- The space key, and the keys of characters that are no blanks and small where case exists. -/
def Nameable (k : Key) : Prop := k.char = ' ' ∨ isBlank k.char = false ∧ k.char.isUpper = false

instance (k : Key) : Decidable k.Nameable := inferInstanceAs (Decidable (_ ∨ _))

/-- A name is read as the space key, or as the key of one of its characters that is not blank. -/
theorem eq_of_ofName? {s : List Char} {k : Key} (h : ofName? s = some k) :
    k = ⟨' '⟩ ∨ ∃ c ∈ s, isBlank c = false ∧ k = ofChar c := by
  unfold ofName? at h
  dsimp only at h
  split_ifs at h with hspace
  · exact .inl (Option.some.inj h).symm
  · right
    split at h
    · next c hletter =>
      obtain ⟨hmem, halpha⟩ := Option.filter_eq_some_iff.mp hletter
      refine ⟨c, mem_of_mem_trim (mem_of_afterPrefix? hmem), ?_, (Option.some.inj h).symm⟩
      exact isBlank_of_isAlphanum (by rw [Char.isAlphanum, halpha, Bool.true_or])
    · next c _ hdigit =>
      obtain ⟨hmem, hd⟩ := Option.filter_eq_some_iff.mp hdigit
      refine ⟨c, mem_of_mem_trim (mem_of_afterPrefix? hmem), ?_, ?_⟩
      · exact isBlank_of_isAlphanum (by rw [Char.isAlphanum, hd, Bool.or_true])
      · rw [ofChar, Number.toLower_of_isDigit hd, Option.some.inj h]
    · obtain ⟨c, hfilter, hk⟩ := Option.map_eq_some_iff.mp h
      obtain ⟨hsingle, hblank⟩ := Option.filter_eq_some_iff.mp hfilter
      have hmem : c ∈ trim s := mem_of_afterPrefix? (p := []) hsingle
      exact ⟨c, mem_of_mem_trim hmem, by simpa using hblank, hk.symm⟩

/-- Every key that is read from a name has a name itself. -/
theorem nameable_of_ofName? {s : List Char} {k : Key} (h : ofName? s = some k) : k.Nameable := by
  rcases eq_of_ofName? h with rfl | ⟨c, -, hblank, rfl⟩
  · exact .inl rfl
  · exact .inr ⟨isBlank_toLower hblank, Char.isUpper_toLower_eq_false c⟩

/-- Only a name that holds a comma is read as its key. -/
theorem mem_of_ofName? {s : List Char} {k : Key} (h : ofName? s = some k) (hk : k.char = ',') :
    ',' ∈ s := by
  rcases eq_of_ofName? h with rfl | ⟨c, hmem, -, rfl⟩
  · cases hk
  · have hupper : ¬ c.isUpper = true := by
      intro hupper
      have halpha : c.toLower.isAlpha = true := by simp [Char.isAlpha, hupper]
      rw [show c.toLower = ',' from hk] at halpha
      cases halpha
    rw [ofChar, Char.toLower_eq_of_not_isUpper hupper] at hk
    exact hk ▸ hmem

variable {k : Key}

/-- The forms of a name. -/
theorem name_cases (h : k.Nameable) :
    k = ⟨' '⟩ ∨
    (k.char.isAlpha = true ∧ k.char.isUpper = false ∧ k.name = "Key".toList ++ [k.char.toUpper]) ∨
    (k.char.isDigit = true ∧ k.name = "Digit".toList ++ [k.char]) ∨
    (isBlank k.char = false ∧ k.char.isAlphanum = false ∧ k.name = [k.char]) := by
  obtain ⟨c⟩ := k
  unfold name
  dsimp only
  split_ifs with hspace halpha hdigit
  · exact .inl (congrArg Key.mk hspace)
  · exact .inr (.inl ⟨halpha, (h.resolve_left hspace).2, rfl⟩)
  · exact .inr (.inr (.inl ⟨hdigit, rfl⟩))
  · refine .inr (.inr (.inr ⟨(h.resolve_left hspace).1, ?_, rfl⟩))
    rw [Char.isAlphanum, Bool.eq_false_iff.mpr halpha, Bool.eq_false_iff.mpr hdigit]
    rfl

/-- A name has no blanks. -/
theorem solid_name (h : k.Nameable) : Solid k.name := by
  rcases name_cases h with rfl | ⟨halpha, -, hname⟩ | ⟨hdigit, hname⟩ | ⟨hblank, -, hname⟩
  · decide
  · rw [hname]
    refine Solid.append (by decide) (List.forall_mem_singleton.mpr (isBlank_of_isAlphanum ?_))
    simp [Char.isAlphanum, halpha]
  · rw [hname]
    refine Solid.append (by decide) (List.forall_mem_singleton.mpr (isBlank_of_isAlphanum ?_))
    simp [Char.isAlphanum, hdigit]
  · rw [hname]
    exact List.forall_mem_singleton.mpr hblank

theorem name_ne_nil (h : k.Nameable) : k.name ≠ [] := by
  rcases name_cases h with rfl | ⟨-, -, hname⟩ | ⟨-, hname⟩ | ⟨-, -, hname⟩
  · decide
  · exact hname ▸ List.cons_ne_nil _ _
  · exact hname ▸ List.cons_ne_nil _ _
  · exact hname ▸ List.cons_ne_nil _ _

/-- A mark, which is neither a letter nor a digit, is only in the name of its own key. -/
theorem not_mem_name {mark : Char} (hmark : mark.isAlphanum = false) (h : k.Nameable) (hk : k.char ≠ mark) :
    mark ∉ k.name := by
  have hother : ∀ {c : Char}, c.isAlphanum = true → mark ≠ c := by
    rintro c hc rfl
    rw [hmark] at hc
    cases hc
  have hword : ∀ word : List Char, word.all Char.isAlphanum = true → mark ∉ word :=
    fun word hletters hmem => hother (List.all_eq_true.mp hletters mark hmem) rfl
  rcases name_cases h with rfl | ⟨halpha, -, hname⟩ | ⟨-, hname⟩ | ⟨-, -, hname⟩
  · exact hword _ rfl
  · have hupper : mark ≠ k.char.toUpper := hother (by simp [Char.isAlphanum, halpha])
    rw [hname, List.mem_append, List.mem_singleton]
    exact fun hmem => hmem.elim (hword _ rfl) hupper
  · rw [hname, List.mem_append, List.mem_singleton]
    exact fun hmem => hmem.elim (hword _ rfl) hk.symm
  · rw [hname, List.mem_singleton]
    exact hk.symm

/-- A word before one character is not the name of the space key, if it has another length. -/
theorem sameLetters_space {name : List Char} (h : name.length ≠ 5) :
    sameLetters name "space".toList = false := by
  refine beq_eq_false_iff_ne.mpr fun heq => h ?_
  simpa [lower] using congrArg List.length heq

/-- The name of a key is read as that key. -/
theorem ofName?_name (h : k.Nameable) : ofName? k.name = some k := by
  unfold ofName?
  rw [trim_of_solid (solid_name h)]
  obtain ⟨c⟩ := k
  rcases name_cases h with hk | ⟨halpha, hupper, hname⟩ | ⟨hdigit, hname⟩ | ⟨hblank, hsymbol, hname⟩
  · cases hk
    rfl
  · have hlower : c.toUpper.toLower = c := by
      rw [Char.toLower_toUpper_eq_toLower, Char.toLower_eq_of_not_isUpper (by simpa using hupper)]
    have hletter : ([c.toUpper] |> single?).filter Char.isAlpha = some c.toUpper :=
      Option.filter_eq_some_iff.mpr ⟨rfl, by simpa using halpha⟩
    have hspace : sameLetters ("Key".toList ++ [c.toUpper]) "space".toList = false := sameLetters_space (by simp)
    rw [hname]
    dsimp only
    rw [hspace, if_neg Bool.false_ne_true]
    rw [afterPrefix?_append, Option.bind_some, hletter]
    exact congrArg (fun d => some (Key.mk d)) hlower
  · have hd : ([c] |> single?).filter Char.isDigit = some c :=
      Option.filter_eq_some_iff.mpr ⟨rfl, hdigit⟩
    have hword : afterPrefix? "Key".toList ("Digit".toList ++ [c]) = none := rfl
    have hspace : sameLetters ("Digit".toList ++ [c]) "space".toList = false := sameLetters_space (by simp)
    rw [hname]
    dsimp only
    rw [hspace, if_neg Bool.false_ne_true]
    rw [hword, afterPrefix?_append, Option.bind_some, hd]
    rfl
  · have hletter : ∀ p : List Char, 1 < p.length → (afterPrefix? p [c]).bind single? = none := by
      intro p hp
      match p, hp with
      | a :: b :: p, _ =>
        unfold afterPrefix?
        split_ifs <;> rfl
    have hsmall : c.toLower = c := by
      refine Char.toLower_eq_of_not_isUpper fun hupper => ?_
      simp [Char.isAlphanum, Char.isAlpha, hupper] at hsymbol
    have hspace : sameLetters [c] "space".toList = false := sameLetters_space (by simp)
    rw [hname]
    dsimp only
    rw [hspace, if_neg Bool.false_ne_true]
    rw [hletter _ (by decide), hletter _ (by decide)]
    have hsingle : (single? [c]).filter (fun c => !isBlank c) = some c :=
      Option.filter_eq_some_iff.mpr ⟨rfl, by rw [hblank]; rfl⟩
    exact (congrArg (Option.map ofChar) hsingle).trans (congrArg (fun d => some (Key.mk d)) hsmall)

end Key

/-! ### Bindings -/

namespace Keymap

/-- Bindings as they are read: at least one key, each once, and no key of a comma. -/
structure Readable (m : Keymap) : Prop where
  nonempty : m.judge ≠ []
  nodup : m.judge.Nodup
  nameable : ∀ k ∈ m.judge, k.Nameable ∧ k.char ≠ ','

theorem readable_standard : standard.Readable where
  nonempty := by decide
  nodup := by decide
  nameable := by decide

/-- Adding keys one by one keeps them apart. -/
theorem nodup_foldl_addKey {keys acc : List Key} (h : acc.Nodup) : (keys.foldl addKey acc).Nodup := by
  induction keys generalizing acc with
  | nil => exact h
  | cons k keys ih =>
      refine ih ?_
      unfold addKey
      split_ifs with hmem
      · exact h
      · rw [List.contains_iff_mem] at hmem
        exact List.nodup_append.mpr ⟨h, List.nodup_singleton k, fun a ha b hb heq =>
          hmem (List.mem_singleton.mp hb ▸ heq ▸ ha)⟩

/-- Adding keys one by one adds no others. -/
theorem mem_of_mem_foldl_addKey {keys acc : List Key} {k : Key} (h : k ∈ keys.foldl addKey acc) :
    k ∈ acc ∨ k ∈ keys := by
  induction keys generalizing acc with
  | nil => exact .inl h
  | cons l keys ih =>
      rcases ih h with hacc | hkeys
      · unfold addKey at hacc
        split_ifs at hacc
        · exact .inl hacc
        · rw [List.mem_append, List.mem_singleton] at hacc
          exact hacc.imp_right fun heq => List.mem_cons.mpr (.inl heq)
      · exact .inr (List.mem_cons_of_mem _ hkeys)

/-- Keys that are all different are added in their order. -/
theorem foldl_addKey {keys acc : List Key} (h : (acc ++ keys).Nodup) :
    keys.foldl addKey acc = acc ++ keys := by
  induction keys generalizing acc with
  | nil => exact (List.append_nil acc).symm
  | cons k keys ih =>
      have hk : k ∉ acc := fun hmem => (List.nodup_append.mp h).2.2 k hmem k List.mem_cons_self rfl
      have hadd : addKey acc k = acc ++ [k] := by
        rw [addKey, if_neg (by simpa using hk)]
      rw [List.append_cons] at h
      rw [List.foldl_cons, hadd, ih h, ← List.append_cons]

/-- Bindings that are read can be read again. -/
theorem readable_of_read? {s : List Char} {keys : List Key} (h : read? s = some keys) :
    Readable ⟨keys⟩ := by
  have hkeys : keys = keysOf s ∧ keys ≠ [] := by
    unfold read? at h
    split at h
    · cases h
    · next k rest heq => exact Option.some.inj h ▸ ⟨heq.symm, List.cons_ne_nil k rest⟩
  obtain ⟨rfl, hne⟩ := hkeys
  refine ⟨hne, nodup_foldl_addKey List.nodup_nil, fun k hk => ?_⟩
  obtain ⟨name, hname, hread⟩ :=
    List.mem_filterMap.mp ((mem_of_mem_foldl_addKey hk).resolve_left List.not_mem_nil)
  refine ⟨Key.nameable_of_ofName? hread, fun hcomma => ?_⟩
  obtain ⟨field, hfield, rfl⟩ := List.mem_map.mp (List.mem_of_mem_filter hname)
  exact not_mem_of_mem_fields hfield (mem_of_mem_trim (Key.mem_of_ofName? hread hcomma))

section
variable {m : Keymap} (h : m.Readable)
include h

/-- The names of the keys can stand in a list. -/
theorem Readable.isEntry : ∀ name ∈ m.judge.map Key.name, IsEntry name := by
  refine List.forall_mem_map.mpr fun k hk => ?_
  obtain ⟨hname, hcomma⟩ := h.nameable k hk
  exact ⟨Key.name_ne_nil hname, Key.solid_name hname, Key.not_mem_name rfl hname hcomma⟩

/-- Bindings have no blanks in their text. -/
theorem Readable.solid_text : Solid m.text := solid_listText fun name hname => (h.isEntry name hname).2.1

/-- Bindings that are written are read back. -/
theorem Readable.read?_text : read? m.text = some m.judge := by
  have hnames : names m.text = m.judge.map Key.name := by
    have hfields : (fields ',' m.text).map trim = m.judge.map Key.name :=
      map_trim_fields (by simpa using h.nonempty) h.isEntry
    rw [names, hfields]
    exact List.filter_eq_self.mpr fun name hname => by simpa using (h.isEntry name hname).1
  have hkeys : keysOf m.text = m.judge := by
    have hread : (m.judge.map Key.name).filterMap Key.ofName? = m.judge := by
      rw [List.filterMap_map]
      refine (List.filterMap_congr fun k hk => ?_).trans List.filterMap_some
      exact Key.ofName?_name (h.nameable k hk).1
    rw [keysOf, hnames, hread]
    exact foldl_addKey h.nodup
  unfold read?
  rw [hkeys]
  cases hjudge : m.judge with
  | nil => exact absurd hjudge h.nonempty
  | cons k keys => rfl

end

end Keymap

end RhythmChart
