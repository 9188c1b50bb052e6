import RhythmChart.Text.Cut

/-! # Texts that are put together and cut

Cutting a text gives back the parts that it was put together from, if no part holds what is cut at.

Main statements.

* `trim_of_ends` and `trim_of_solid`: nothing is trimmed of a text without blanks at its ends;
* `fields_joinWith` and `words_joinWith`: fields and words are the parts that were joined;
* `lines_flatMap`: lines are the lines that were ended by line feeds. -/

namespace RhythmChart.Text

/-! ### Blanks -/

/-- A text without blanks. -/
def Solid (s : List Char) : Prop := ∀ c ∈ s, isBlank c = false

instance (s : List Char) : Decidable (Solid s) := List.decidableBAll (fun c => isBlank c = false) s

theorem Solid.append {s t : List Char} (hs : Solid s) (ht : Solid t) : Solid (s ++ t) := fun c hc =>
  (List.mem_append.mp hc).elim (hs c) (ht c)

/-- Visible ASCII characters are not blank. -/
theorem isBlank_of_visible {c : Char} (hlow : 0x21 ≤ c.toNat) (hhigh : c.toNat ≤ 0x7E) :
    isBlank c = false := by
  have hranges : ∀ r ∈ blankRanges, r.2 ≤ 0x20 ∨ 0x85 ≤ r.1 := by decide
  refine List.any_eq_false.mpr fun r hr hin => ?_
  have hin := of_decide_eq_true hin
  have := hranges r hr
  omega

theorem dropWhile_of_head {p : Char → Bool} {s : List Char} (h : ∀ c ∈ s.head?, p c = false) :
    s.dropWhile p = s := by
  cases s with
  | nil => rfl
  | cons c s => exact List.dropWhile_cons_of_neg (by simp [h c rfl])

/-- Nothing is trimmed of a text without blanks at its ends. -/
theorem trim_of_ends {s : List Char} (hfirst : ∀ c ∈ s.head?, isBlank c = false)
    (hlast : ∀ c ∈ s.getLast?, isBlank c = false) : trim s = s := by
  unfold trim trimStart trimEnd
  rw [dropWhile_of_head hfirst, dropWhile_of_head (by rwa [List.head?_reverse]), List.reverse_reverse]

theorem trim_of_solid {s : List Char} (h : Solid s) : trim s = s :=
  trim_of_ends (fun c hc => h c (List.mem_of_mem_head? hc)) fun c hc => h c (List.mem_of_mem_getLast? hc)

/-- Trimming adds no characters. -/
theorem mem_of_mem_trim {c : Char} {s : List Char} (h : c ∈ trim s) : c ∈ s := by
  have hend := (List.dropWhile_suffix isBlank).mem (List.mem_reverse.mp h)
  exact (List.dropWhile_suffix isBlank).mem (List.mem_reverse.mp hend)

/-- What holds of the last characters of two texts holds of the last character of both together. -/
theorem forall_getLast?_append {P : Char → Prop} {s t : List Char} (hs : ∀ c ∈ s.getLast?, P c)
    (ht : ∀ c ∈ t.getLast?, P c) : ∀ c ∈ (s ++ t).getLast?, P c := by
  intro c hc
  rw [List.getLast?_append, Option.mem_def, Option.or_eq_some_iff] at hc
  exact hc.elim (ht c) fun h => hs c h.2

theorem unblanked_of_solid {s : List Char} (h : Solid s) : unblanked s = s :=
  List.filter_eq_self.mpr fun c hc => by rw [h c hc]; rfl

@[simp]
theorem unblanked_append (s t : List Char) : unblanked (s ++ t) = unblanked s ++ unblanked t :=
  List.filter_append s t

/-! ### Pieces -/

theorem pieces_of_forall {sep : Char → Bool} {s : List Char} (h : ∀ c ∈ s, sep c = false) :
    pieces sep s = [s] := by
  induction s with
  | nil => rfl
  | cons c s ih =>
      rw [pieces_cons, ih fun d hd => h d (List.mem_cons_of_mem _ hd), pieceStep,
        if_neg (by simp [h c List.mem_cons_self])]

/-- A separator ends the first piece. -/
theorem pieces_append_cons {sep : Char → Bool} {s : List Char} (h : ∀ c ∈ s, sep c = false) {c : Char}
    (hc : sep c = true) (t : List Char) : pieces sep (s ++ c :: t) = s :: pieces sep t := by
  induction s with
  | nil =>
      rw [List.nil_append, pieces_cons]
      match pieces sep t, pieces_ne_nil sep t with
      | piece :: rest, _ => rw [pieceStep, if_pos hc]
  | cons d s ih =>
      rw [List.cons_append, pieces_cons, ih fun e he => h e (List.mem_cons_of_mem _ he), pieceStep,
        if_neg (by simp [h d List.mem_cons_self])]

/-- Pieces hold no separator. -/
theorem forall_of_mem_pieces {sep : Char → Bool} {s piece : List Char} (h : piece ∈ pieces sep s) :
    ∀ c ∈ piece, sep c = false := by
  induction s generalizing piece with
  | nil =>
      rw [pieces_nil, List.mem_singleton] at h
      simp [h]
  | cons d s ih =>
      obtain ⟨first, rest, hpieces⟩ := List.exists_cons_of_ne_nil (pieces_ne_nil sep s)
      rw [hpieces] at ih
      rw [pieces_cons, hpieces, pieceStep] at h
      split at h
      · rcases List.mem_cons.mp h with rfl | h
        · exact List.forall_mem_nil _
        · exact ih h
      · next hd =>
        rcases List.mem_cons.mp h with rfl | h
        · exact List.forall_mem_cons.mpr ⟨Bool.eq_false_iff.mpr hd, ih List.mem_cons_self⟩
        · exact ih (List.mem_cons_of_mem _ h)

theorem beq_of_not_mem {c : Char} {s : List Char} (h : c ∉ s) : ∀ d ∈ s, (d == c) = false := fun _ hd =>
  beq_eq_false_iff_ne.mpr fun heq => h (heq ▸ hd)

/-- Fields hold no separator. -/
theorem not_mem_of_mem_fields {c : Char} {s field : List Char} (h : field ∈ fields c s) : c ∉ field :=
  fun hc => by simpa using forall_of_mem_pieces h c hc

/-- Fields are the parts that were joined. -/
theorem fields_joinWith {c : Char} {parts : List (List Char)} (hne : parts ≠ [])
    (h : ∀ p ∈ parts, c ∉ p) : fields c (joinWith [c] parts) = parts := by
  unfold fields
  induction parts with
  | nil => exact absurd rfl hne
  | cons p parts ih =>
      have hp := beq_of_not_mem (h p List.mem_cons_self)
      match parts, ih with
      | [], _ => exact pieces_of_forall hp
      | q :: rest, ih =>
          rw [joinWith, List.append_assoc, List.singleton_append, pieces_append_cons hp (by simp),
            ih (List.cons_ne_nil _ _) fun r hr => h r (List.mem_cons_of_mem _ hr)]

/-- Lines are the lines that were ended by line feeds, up to carriage returns before these. -/
theorem lines_flatMap_feed {ls : List (List Char)} (h : ∀ l ∈ ls, '\n' ∉ l) :
    lines (ls.flatMap fun l => l ++ ['\n']) = ls.map dropReturn := by
  have hfields : fields '\n' (ls.flatMap fun l => l ++ ['\n']) = ls ++ [[]] := by
    unfold fields
    induction ls with
    | nil => rfl
    | cons l ls ih =>
        rw [List.flatMap_cons, List.append_assoc, List.singleton_append,
          pieces_append_cons (beq_of_not_mem (h l List.mem_cons_self)) (by simp),
          ih fun k hk => h k (List.mem_cons_of_mem _ hk), List.cons_append]
  unfold lines
  rw [hfields]
  simp

/-- Lines are the lines that were ended by line feeds. -/
theorem lines_flatMap {ls : List (List Char)} (h : ∀ l ∈ ls, '\n' ∉ l ∧ l.getLast? ≠ some '\r') :
    lines (ls.flatMap fun l => l ++ ['\n']) = ls := by
  rw [lines_flatMap_feed fun l hl => (h l hl).1]
  refine (List.map_congr_left fun l hl => ?_).trans (List.map_id ls)
  rw [dropReturn, beforeLast?, if_neg (h l hl).2]
  rfl

/-! ### Words -/

/-- A separator at the end leaves an empty piece after it. -/
theorem pieces_concat {sep : Char → Bool} {c : Char} (hc : sep c = true) (s : List Char) :
    pieces sep (s ++ [c]) = pieces sep s ++ [[]] := by
  induction s with
  | nil => exact if_pos hc
  | cons d s ih =>
      rw [List.cons_append, pieces_cons, ih, pieces_cons]
      match pieces sep s, pieces_ne_nil sep s with
      | piece :: rest, _ =>
        rw [List.cons_append, pieceStep, pieceStep]
        split <;> rfl

theorem words_concat {c : Char} (hc : isBlank c = true) (s : List Char) : words (s ++ [c]) = words s := by
  rw [words, pieces_concat hc, List.filter_append]
  exact List.append_nil _

/-- Words are the words that were joined by blanks. -/
theorem words_joinWith {c : Char} (hc : isBlank c = true) {parts : List (List Char)}
    (h : ∀ p ∈ parts, p ≠ [] ∧ Solid p) : words (joinWith [c] parts) = parts := by
  have hkept : ∀ p ∈ parts, (!p.isEmpty) = true := fun p hp => by simpa using (h p hp).1
  induction parts with
  | nil => rfl
  | cons p parts ih =>
      have hp := (h p List.mem_cons_self).2
      match parts, ih with
      | [], _ =>
        rw [joinWith, words, pieces_of_forall hp]
        exact List.filter_eq_self.mpr hkept
      | q :: rest, ih =>
        have hrest : words (joinWith [c] (q :: rest)) = q :: rest :=
          ih (fun r hr => h r (List.mem_cons_of_mem _ hr)) fun r hr => hkept r (List.mem_cons_of_mem _ hr)
        rw [joinWith, List.append_assoc, List.singleton_append, words, pieces_append_cons hp hc]
        change List.filter (fun w : List Char => !w.isEmpty) (p :: _) = _
        rw [List.filter_cons, if_pos (hkept p List.mem_cons_self)]
        exact congrArg (p :: ·) hrest

theorem mem_joinWith {sep : List Char} {parts : List (List Char)} {c : Char}
    (h : c ∈ joinWith sep parts) : c ∈ sep ∨ ∃ p ∈ parts, c ∈ p := by
  induction parts with
  | nil => cases h
  | cons p parts ih =>
      match parts, ih with
      | [], _ => exact .inr ⟨p, List.mem_cons_self, h⟩
      | q :: rest, ih =>
        rw [joinWith, List.mem_append, List.mem_append] at h
        rcases h with (h | h) | h
        · exact .inr ⟨p, List.mem_cons_self, h⟩
        · exact .inl h
        · exact (ih h).imp_right fun ⟨r, hr, hc⟩ => ⟨r, List.mem_cons_of_mem _ hr, hc⟩

/-! ### Cuts -/

theorem uncommented_of_not_mem {s : List Char} (h : '/' ∉ s) : uncommented s = s := by
  induction s with
  | nil => rfl
  | cons c s ih =>
      have hc : c ≠ '/' := fun heq => h (heq ▸ List.mem_cons_self)
      rw [uncommented.eq_3 c s (fun _ heq _ => hc heq), ih fun hs => h (List.mem_cons_of_mem _ hs)]

theorem cutAt?_append {c : Char} {s : List Char} (h : c ∉ s) (t : List Char) :
    cutAt? c (s ++ c :: t) = some (s, t) := by
  have hs : ∀ d ∈ s, (d != c) = true := fun d hd => by simpa using beq_of_not_mem h d hd
  have htake : (s ++ c :: t).takeWhile (· != c) = s := by
    rw [List.takeWhile_append_of_pos hs]
    simp
  have hdrop : (s ++ c :: t).dropWhile (· != c) = c :: t := by
    rw [List.dropWhile_append_of_pos hs]
    simp
  rw [cutAt?, htake, hdrop]

@[simp]
theorem beforeLast?_concat (c : Char) (s : List Char) : beforeLast? c (s ++ [c]) = some s := by
  simp [beforeLast?]

theorem beforeLast?_of_ne {c d : Char} (s : List Char) (h : d ≠ c) : beforeLast? c (s ++ [d]) = none := by
  simp [beforeLast?, h]

end RhythmChart.Text
