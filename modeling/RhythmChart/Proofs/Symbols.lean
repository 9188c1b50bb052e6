import Mathlib.Data.List.Basic
import Mathlib.Data.List.TakeWhile
import Mathlib.Tactic.SplitIfs
import Mathlib.Tactic.Tauto
import RhythmChart.Cell.Split
import RhythmChart.Proofs.Texts

/-! # The grammar of symbols

Which texts split into a token and symbols, and what they split into.

An `Occurrence` is a symbol where it stands, with the free text before it.  A text splits exactly if
it is a row of occurrences with free text behind them, and it is one exactly if its braces come in
pairs and a name character stands before each pair.

Main statements.

* `splitSymbols_of_occurrences`: what a row of occurrences splits into;
* `Split.exists_occurrences`: a text that splits is a row of occurrences;
* `exists_occurrences_iff`: the braces of rows of occurrences;
* `splitSymbols_grammar`: both together. -/

namespace RhythmChart

open Text

/-! ### Names -/

/-- The names of loops and conditionals, in any case. -/
def isReserved (name : List Char) : Bool :=
  sameLetters name "loop".toList || sameLetters name "if".toList

/-- A text of letters, digits and underscores. -/
def IsName (s : List Char) : Prop := s ≠ [] ∧ ∀ c ∈ s, isNameChar c = true

instance (s : List Char) : Decidable (IsName s) :=
  decidable_of_iff (s ≠ [] ∧ s.all isNameChar = true) (and_congr_right fun _ => List.all_eq_true)

/-- A name stands for a command unless it is reserved. -/
theorem SymbolKind.ofName_eq_command_iff {name : List Char} :
    SymbolKind.ofName name = .command ↔ isReserved name = false := by
  unfold SymbolKind.ofName isReserved
  cases sameLetters name "loop".toList <;> cases sameLetters name "if".toList <;> decide

/-- A text that does not end with a name character. -/
def Ended (s : List Char) : Prop := ∀ c ∈ s.getLast?, isNameChar c = false

/-- Every text ends with a longest run of name characters. -/
theorem exists_run (s : List Char) :
    ∃ free run, s = free ++ run ∧ (∀ c ∈ run, isNameChar c = true) ∧ Ended free := by
  refine ⟨(s.reverse.dropWhile isNameChar).reverse, (s.reverse.takeWhile isNameChar).reverse, ?_,
    fun c hc => List.mem_takeWhile_imp (List.mem_reverse.mp hc), fun c hc => ?_⟩
  · rw [← List.reverse_append, List.takeWhile_append_dropWhile, List.reverse_reverse]
  · have hnot := List.head?_dropWhile_not isNameChar s.reverse
    rw [List.getLast?_reverse, Option.mem_def] at hc
    rw [hc] at hnot
    exact hnot

/-! ### Braces -/

/-- A text without braces. -/
def Unbraced (s : List Char) : Prop := '\x7b' ∉ s ∧ '\x7d' ∉ s

instance (s : List Char) : Decidable (Unbraced s) := inferInstanceAs (Decidable (_ ∧ _))

theorem unbraced_nil : Unbraced [] := ⟨List.not_mem_nil, List.not_mem_nil⟩

theorem unbraced_cons {c : Char} {s : List Char} :
    Unbraced (c :: s) ↔ (c ≠ '\x7b' ∧ c ≠ '\x7d') ∧ Unbraced s := by
  simp only [Unbraced, List.mem_cons, not_or]
  tauto

theorem unbraced_append {s t : List Char} : Unbraced (s ++ t) ↔ Unbraced s ∧ Unbraced t := by
  simp only [Unbraced, List.mem_append, not_or]
  tauto

theorem IsName.unbraced {s : List Char} (h : IsName s) : Unbraced s :=
  ⟨fun hc => Bool.noConfusion (h.2 _ hc), fun hc => Bool.noConfusion (h.2 _ hc)⟩

/-- A text is free of braces, or has a first one. -/
theorem unbraced_or_exists (s : List Char) :
    Unbraced s ∨ ∃ front c back, Unbraced front ∧ (c = '\x7b' ∨ c = '\x7d') ∧ s = front ++ c :: back := by
  induction s with
  | nil => exact .inl unbraced_nil
  | cons c s ih =>
      by_cases hc : c = '\x7b' ∨ c = '\x7d'
      · exact .inr ⟨[], c, s, unbraced_nil, hc, rfl⟩
      · have hc := not_or.mp hc
        rcases ih with hs | ⟨front, d, back, hfront, hd, rfl⟩
        · exact .inl (unbraced_cons.mpr ⟨hc, hs⟩)
        · exact .inr ⟨c :: front, d, back, unbraced_cons.mpr ⟨hc, hfront⟩, hd, rfl⟩

/-- The braces of a text, in order. -/
def braces (s : List Char) : List Char := s.filter fun c => c = '\x7b' ∨ c = '\x7d'

theorem braces_append (s t : List Char) : braces (s ++ t) = braces s ++ braces t :=
  List.filter_append s t

theorem braces_eq_nil_iff {s : List Char} : braces s = [] ↔ Unbraced s := by
  unfold braces Unbraced
  rw [List.filter_eq_nil_iff]
  constructor
  · intro h
    exact ⟨fun hc => h _ hc (by decide), fun hc => h _ hc (by decide)⟩
  · intro h c hc hbrace
    rcases of_decide_eq_true hbrace with rfl | rfl
    · exact h.1 hc
    · exact h.2 hc

/-- The braces of a text whose first brace is known. -/
theorem braces_append_cons {front : List Char} (h : Unbraced front) {c : Char}
    (hc : c = '\x7b' ∨ c = '\x7d') (back : List Char) : braces (front ++ c :: back) = c :: braces back := by
  rw [braces_append, braces_eq_nil_iff.mpr h, List.nil_append]
  exact List.filter_cons_of_pos (decide_eq_true hc)

/-- The first brace of a text that has one. -/
theorem exists_of_braces_cons {s bs : List Char} {c : Char} (h : braces s = c :: bs) :
    ∃ front, Unbraced front ∧ ∃ back, s = front ++ c :: back ∧ braces back = bs := by
  rcases unbraced_or_exists s with hs | ⟨front, d, back, hfront, hd, rfl⟩
  · rw [braces_eq_nil_iff.mpr hs] at h
    cases h
  · rw [braces_append_cons hfront hd] at h
    obtain ⟨rfl, rfl⟩ := List.cons.inj h
    exact ⟨front, hfront, back, rfl, rfl⟩

/-- Opening and closing braces that take turns, from an opening one to a closing one. -/
inductive Paired : List Char → Prop where
  | nil : Paired []
  | pair {rest : List Char} : Paired rest → Paired ('\x7b' :: '\x7d' :: rest)

/-- Directly before every opening brace of a text stands a name character. -/
def BracesNamed (s : List Char) : Prop :=
  ∀ front back, s = front ++ '\x7b' :: back → ∃ c ∈ front.getLast?, isNameChar c = true

/-! ### Occurrences -/

/-- A symbol where it stands: what is free since the symbol before it, the whole run of name
characters before its brace, and what stands between its braces. -/
structure Occurrence where
  free : List Char
  run : List Char
  body : List Char
  free_unbraced : Unbraced free
  body_unbraced : Unbraced body
  run_isName : IsName run
  free_ended : Ended free

namespace Occurrence

variable (o : Occurrence)

/-- The occurrence as it is written. -/
def text : List Char := o.free ++ o.run ++ '\x7b' :: o.body ++ ['\x7d']

/-- The run is a registered name after a type letter, and is none itself. -/
def Glued : Prop :=
  isReserved o.run = false ∧ (o.run.head?.bind NoteType.ofLetter?).isSome = true ∧
    isReserved o.run.tail = true

instance : Decidable o.Glued := inferInstanceAs (Decidable (_ ∧ _ ∧ _))

/-- The name of the symbol. -/
def name : List Char := if o.Glued then o.run.tail else o.run

/-- The type letter that stands before the name. -/
def letter : List Char := if o.Glued then o.run.take 1 else []

/-- The symbol. -/
def symbol : RawSymbol := ⟨o.name, o.body⟩

/-- What the symbol leaves when its name and its braces are removed. -/
def left : List Char := o.free ++ o.letter

theorem reverse_letter : o.letter.reverse = o.letter := by
  unfold letter
  split_ifs
  · cases o.run <;> rfl
  · rfl

/-- The pass takes a type letter off a name exactly where it is glued to it. -/
theorem unglue_run : unglue o.run = (o.letter, o.name) := by
  unfold letter name
  cases hrun : o.run with
  | nil => exact absurd hrun o.run_isName.1
  | cons c rest =>
      have hglued : (SymbolKind.ofName (c :: rest) = .command ∧ SymbolKind.ofName rest ≠ .command
          ∧ (NoteType.ofLetter? c).isSome) ↔ o.Glued := by
        unfold Glued
        rw [hrun, SymbolKind.ofName_eq_command_iff, Ne, SymbolKind.ofName_eq_command_iff,
          Bool.not_eq_false]
        exact and_congr_right fun _ => and_comm
      unfold unglue
      simp only [hglued]
      split_ifs <;> rfl

end Occurrence

/-! ### The pass over an occurrence -/

namespace Split

/-- Free text is collected. -/
theorem foldlM_free {s : List Char} (h : Unbraced s) (free : List Char) (done : List RawSymbol) :
    s.foldlM step ⟨free, done, none⟩ = .ok ⟨s.reverse ++ free, done, none⟩ := by
  induction s generalizing free with
  | nil => rfl
  | cons c s ih =>
      obtain ⟨⟨hopen, hclose⟩, hs⟩ := unbraced_cons.mp h
      have hstep : step ⟨free, done, none⟩ c = .ok ⟨c :: free, done, none⟩ := by
        unfold step
        dsimp only
        rw [if_neg hopen, if_neg hclose]
      rw [List.foldlM_cons, hstep]
      change s.foldlM step ⟨c :: free, done, none⟩ = _
      rw [ih hs, List.reverse_cons, List.append_assoc, List.singleton_append]

/-- The body of an open symbol is collected. -/
theorem foldlM_body {s : List Char} (h : Unbraced s) (free : List Char) (done : List RawSymbol)
    (name body : List Char) :
    s.foldlM step ⟨free, done, some (name, body)⟩ =
      .ok ⟨free, done, some (name, s.reverse ++ body)⟩ := by
  induction s generalizing body with
  | nil => rfl
  | cons c s ih =>
      obtain ⟨⟨hopen, hclose⟩, hs⟩ := unbraced_cons.mp h
      have hstep : step ⟨free, done, some (name, body)⟩ c =
          .ok ⟨free, done, some (name, c :: body)⟩ := by
        unfold step
        dsimp only
        rw [if_neg hclose, if_neg hopen]
      rw [List.foldlM_cons, hstep]
      change s.foldlM step ⟨free, done, some (name, c :: body)⟩ = _
      rw [ih hs, List.reverse_cons, List.append_assoc, List.singleton_append]

variable {free : List Char}

/-- A brace ends the run of name characters before it. -/
theorem openBrace_eq (hfree : Ended free.reverse) {run : List Char} (hrun : IsName run)
    (done : List RawSymbol) :
    openBrace ⟨run.reverse ++ free, done, none⟩ =
      .ok ⟨(unglue run).1 ++ free, done, some ((unglue run).2, [])⟩ := by
  have hreverse : ∀ c ∈ run.reverse, isNameChar c = true := fun c hc =>
    hrun.2 c (List.mem_reverse.mp hc)
  have hhead : ∀ c ∈ free.head?, isNameChar c = false := by rwa [Ended, List.getLast?_reverse] at hfree
  have hdrop : free.dropWhile isNameChar = free := dropWhile_of_head hhead
  have htake : free.takeWhile isNameChar = [] := by
    cases free with
    | nil => rfl
    | cons c free => exact List.takeWhile_cons_of_neg (by simp [hhead c rfl])
  unfold openBrace
  dsimp only
  rw [List.takeWhile_append_of_pos hreverse, List.dropWhile_append_of_pos hreverse, htake, hdrop,
    List.append_nil, if_neg (by simpa using hrun.1), List.reverse_reverse]

/-- A brace without a name before it is an error. -/
theorem openBrace_of_ended (hfree : Ended free.reverse) (done : List RawSymbol) :
    openBrace ⟨free, done, none⟩ = .error .nameless := by
  unfold openBrace
  dsimp only
  cases free with
  | nil => rfl
  | cons c free =>
      rw [List.takeWhile_cons_of_neg (by simp [hfree c (by simp)])]
      rfl

/-- Free text that grows on its right. -/
theorem ended_reverse_append {s : List Char} (hfree : Ended free.reverse) (hs : Ended s) :
    Ended (s.reverse ++ free).reverse := by
  rw [List.reverse_append, List.reverse_reverse]
  exact forall_getLast?_append hfree hs

theorem ended_start : Ended ([] : List Char).reverse := nofun

/-- A blank ends the free text. -/
theorem ended_blank (free : List Char) : Ended (' ' :: free).reverse := by
  rw [Ended, List.getLast?_reverse]
  rintro c ⟨⟩
  rfl

/-- An occurrence is read. -/
theorem foldlM_occurrence (o : Occurrence) (hfree : Ended free.reverse) (done : List RawSymbol) :
    o.text.foldlM step ⟨free, done, none⟩ =
      .ok ⟨' ' :: (o.left.reverse ++ free), o.symbol :: done, none⟩ := by
  -- The run is free text until its brace takes it back.
  have hopen : step ⟨(o.free ++ o.run).reverse ++ free, done, none⟩ '\x7b' =
      .ok ⟨o.left.reverse ++ free, done, some (o.name, [])⟩ := by
    change openBrace _ = _
    rw [List.reverse_append, List.append_assoc,
      openBrace_eq (ended_reverse_append hfree o.free_ended) o.run_isName, o.unglue_run, Occurrence.left,
      List.reverse_append, o.reverse_letter, List.append_assoc]
  have hclose : step ⟨o.left.reverse ++ free, done, some (o.name, o.body.reverse)⟩ '\x7d' =
      .ok ⟨' ' :: (o.left.reverse ++ free), o.symbol :: done, none⟩ := by
    unfold step
    dsimp only
    rw [if_pos rfl, List.reverse_reverse]
    rfl
  unfold Occurrence.text
  rw [List.foldlM_append, List.foldlM_append,
    foldlM_free (unbraced_append.mpr ⟨o.free_unbraced, o.run_isName.unbraced⟩)]
  change ((step _ '\x7b' >>= o.body.foldlM step) >>= fun s => step s '\x7d' >>= pure) = _
  rw [hopen]
  change (o.body.foldlM step _ >>= fun s => step s '\x7d' >>= pure) = _
  rw [foldlM_body o.body_unbraced, List.append_nil]
  change (step ⟨o.left.reverse ++ free, done, some (o.name, o.body.reverse)⟩ '\x7d' >>= pure) = _
  rw [hclose]
  rfl

/-- Occurrences are read one after the other. -/
theorem foldlM_occurrences (os : List Occurrence) (hfree : Ended free.reverse) (done : List RawSymbol) :
    (os.flatMap Occurrence.text).foldlM step ⟨free, done, none⟩ =
      .ok ⟨(os.flatMap fun o => o.left ++ [' ']).reverse ++ free,
        (os.map Occurrence.symbol).reverse ++ done, none⟩ := by
  induction os generalizing free done with
  | nil => rfl
  | cons o os ih =>
      rw [List.flatMap_cons, List.foldlM_append, foldlM_occurrence o hfree]
      change (os.flatMap Occurrence.text).foldlM step _ = _
      rw [ih (ended_blank _)]
      simp

end Split

/-- The blanks between symbols are not part of the token. -/
theorem unblanked_flatMap_left (os : List Occurrence) :
    unblanked (os.flatMap fun o => o.left ++ [' ']) = unblanked (os.flatMap Occurrence.left) := by
  induction os with
  | nil => rfl
  | cons o os ih =>
      rw [List.flatMap_cons, List.flatMap_cons, unblanked_append, unblanked_append, unblanked_append, ih]
      exact congrArg (· ++ _) (List.append_nil _)

/-- Occurrences with free text behind them split into their symbols, and into what is left of the
text without them. -/
theorem splitSymbols_of_occurrences (os : List Occurrence) {rest : List Char} (hrest : Unbraced rest) :
    splitSymbols (os.flatMap Occurrence.text ++ rest) =
      .ok (unblanked (os.flatMap Occurrence.left ++ rest), os.map Occurrence.symbol) := by
  have hread : (os.flatMap Occurrence.text ++ rest).foldlM Split.step Split.start =
      .ok ⟨rest.reverse ++ (os.flatMap fun o => o.left ++ [' ']).reverse,
        (os.map Occurrence.symbol).reverse, none⟩ := by
    rw [List.foldlM_append, Split.start, Split.foldlM_occurrences os Split.ended_start []]
    refine (Split.foldlM_free hrest _ _).trans ?_
    rw [List.append_nil, List.append_nil]
  unfold splitSymbols
  rw [hread]
  unfold Split.result
  simp only [List.reverse_append, List.reverse_reverse, unblanked_append, unblanked_flatMap_left]

/-! ### Texts that split -/

theorem not_ended_iff {s : List Char} : ¬ Ended s ↔ ∃ c ∈ s.getLast?, isNameChar c = true := by
  simp [Ended]

/-- Free text with a name at its end, braces and a body make an occurrence. -/
theorem exists_occurrence {front : List Char} (hfront : Unbraced front) {body : List Char}
    (hbody : Unbraced body) (hnamed : ¬ Ended front) :
    ∃ o : Occurrence, o.text = front ++ '\x7b' :: body ++ ['\x7d'] := by
  obtain ⟨free, run, rfl, hrun, hfree⟩ := exists_run front
  refine ⟨⟨free, run, body, (unbraced_append.mp hfront).1, hbody, ⟨?_, hrun⟩, hfree⟩, rfl⟩
  rintro rfl
  rw [List.append_nil] at hnamed
  exact hnamed hfree

namespace Split

/-- A brace after a name opens a symbol. -/
theorem exists_openBrace {front free : List Char} (hfree : Ended free.reverse) (hnamed : ¬ Ended front)
    (done : List RawSymbol) :
    ∃ left name, openBrace ⟨front.reverse ++ free, done, none⟩ = .ok ⟨left, done, some (name, [])⟩ := by
  obtain ⟨start, run, rfl, hrun, hstart⟩ := exists_run front
  have hne : run ≠ [] := by
    rintro rfl
    rw [List.append_nil] at hnamed
    exact hnamed hstart
  rw [List.reverse_append, List.append_assoc]
  exact ⟨_, _, openBrace_eq (ended_reverse_append hfree hstart) ⟨hne, hrun⟩ done⟩

/-- If the pass comes to the end of a text outside of all braces, then the text is a row of
occurrences with free text behind them. -/
theorem exists_occurrences {s free : List Char} (hfree : Ended free.reverse) {done : List RawSymbol}
    {final : Split} (h : s.foldlM step ⟨free, done, none⟩ = .ok final) (hfinal : final.current = none) :
    ∃ (os : List Occurrence) (rest : List Char), Unbraced rest ∧ s = os.flatMap Occurrence.text ++ rest := by
  rcases unbraced_or_exists s with hs | ⟨front, c, back, hfront, hc, rfl⟩
  · exact ⟨[], s, hs, rfl⟩
  have hread := h
  rw [List.foldlM_append, foldlM_free hfront] at hread
  replace hread : (step ⟨front.reverse ++ free, done, none⟩ c >>= back.foldlM step) = .ok final := hread
  rcases hc with rfl | rfl
  · replace hread : (openBrace ⟨front.reverse ++ free, done, none⟩ >>= back.foldlM step) = .ok final := hread
    by_cases hnamed : Ended front
    · rw [openBrace_of_ended (ended_reverse_append hfree hnamed)] at hread
      cases hread
    obtain ⟨left, name, hopen⟩ := exists_openBrace hfree hnamed done
    rw [hopen] at hread
    replace hread : back.foldlM step ⟨left, done, some (name, [])⟩ = .ok final := hread
    -- What follows the opening brace never ends the symbol, opens another one or closes it.
    rcases unbraced_or_exists back with hback | ⟨body, d, tail, hbody, hd, rfl⟩
    · rw [foldlM_body hback] at hread
      cases hread
      cases hfinal
    rcases hd with rfl | rfl
    · rw [List.foldlM_append, foldlM_body hbody] at hread
      cases hread
    · obtain ⟨o, ho⟩ := exists_occurrence hfront hbody hnamed
      have htext : front ++ '\x7b' :: (body ++ '\x7d' :: tail) = o.text ++ tail := by
        rw [ho, List.append_assoc, List.append_assoc]
        rfl
      rw [htext, List.foldlM_append, foldlM_occurrence o hfree] at h
      obtain ⟨os, rest, hrest, rfl⟩ := exists_occurrences (ended_blank _) h hfinal
      refine ⟨o :: os, rest, hrest, ?_⟩
      rw [htext, List.flatMap_cons, List.append_assoc]
  · cases hread
termination_by s.length
decreasing_by
  subst_vars
  simp only [List.length_append, List.length_cons]
  omega

end Split

/-! ### The braces of occurrences -/

/-- A closing brace separates what has to be named before it from what has to be named behind it. -/
theorem bracesNamed_append_close {s t : List Char} :
    BracesNamed (s ++ '\x7d' :: t) ↔ BracesNamed s ∧ BracesNamed t := by
  constructor
  · intro h
    refine ⟨fun front back heq => h front (back ++ '\x7d' :: t) (by rw [heq]; simp), fun front back heq => ?_⟩
    obtain ⟨c, hc, hname⟩ := h (s ++ '\x7d' :: front) back (by rw [heq]; simp)
    cases front with
    | nil =>
        obtain rfl : '\x7d' = c := by simpa using hc
        cases hname
    | cons d front => exact ⟨c, by simpa using hc, hname⟩
  · rintro ⟨hs, ht⟩ front back heq
    rcases List.append_eq_append_iff.mp heq with ⟨between, rfl, hback⟩ | ⟨between, rfl, hback⟩
    · cases between with
      | nil => cases hback
      | cons d between =>
          obtain ⟨rfl, rfl⟩ := List.cons.inj hback
          obtain ⟨c, hc, hname⟩ := ht between back rfl
          refine ⟨c, ?_, hname⟩
          cases between with
          | nil => cases hc
          | cons e between => simpa using hc
    · cases between with
      | nil => cases hback
      | cons d between =>
          obtain ⟨rfl, -⟩ := List.cons.inj hback
          exact hs front between rfl

/-- The only opening brace of a text. -/
theorem bracesNamed_append_open {s t : List Char} (hs : Unbraced s) (ht : Unbraced t) :
    BracesNamed (s ++ '\x7b' :: t) ↔ ¬ Ended s := by
  rw [not_ended_iff]
  refine ⟨fun h => h s t rfl, fun h front back heq => ?_⟩
  obtain ⟨rfl, -, -⟩ := (List.append_cons_inj_of_notMem hs.1 ht.1).mp heq
  exact h

theorem bracesNamed_of_unbraced {s : List Char} (h : Unbraced s) : BracesNamed s := fun front _ heq =>
  absurd (heq ▸ List.mem_append_right front List.mem_cons_self) h.1

theorem Occurrence.not_ended (o : Occurrence) : ¬ Ended (o.free ++ o.run) := by
  intro h
  have hlast := List.getLast_mem o.run_isName.1
  have hname := h (o.run.getLast o.run_isName.1) (by
    rw [List.getLast?_append_of_ne_nil _ o.run_isName.1]
    exact List.getLast?_eq_some_getLast o.run_isName.1)
  exact Bool.noConfusion (hname.symm.trans (o.run_isName.2 _ hlast))

/-- Rows of occurrences, with free text behind them, are the texts whose braces come in pairs with a
name character before each pair. -/
theorem exists_occurrences_iff {s : List Char} :
    (∃ (os : List Occurrence) (rest : List Char), Unbraced rest ∧ s = os.flatMap Occurrence.text ++ rest) ↔
      Paired (braces s) ∧ BracesNamed s := by
  constructor
  · rintro ⟨os, rest, hrest, rfl⟩
    induction os with
    | nil => exact ⟨braces_eq_nil_iff.mpr hrest ▸ .nil, bracesNamed_of_unbraced hrest⟩
    | cons o os ih =>
        obtain ⟨hpaired, hnamed⟩ := ih
        have hfront := unbraced_append.mpr ⟨o.free_unbraced, o.run_isName.unbraced⟩
        have htext : (o :: os).flatMap Occurrence.text ++ rest = (o.free ++ o.run ++ '\x7b' :: o.body) ++
            '\x7d' :: (os.flatMap Occurrence.text ++ rest) := by
          simp [Occurrence.text]
        rw [htext]
        refine ⟨?_, bracesNamed_append_close.mpr
          ⟨(bracesNamed_append_open hfront o.body_unbraced).mpr o.not_ended, hnamed⟩⟩
        rw [List.append_assoc, List.cons_append, braces_append_cons hfront (.inl rfl),
          braces_append_cons o.body_unbraced (.inr rfl)]
        exact .pair hpaired
  · rintro ⟨hpaired, hnamed⟩
    generalize hbraces : braces s = bs at hpaired
    induction hpaired generalizing s with
    | nil => exact ⟨[], s, braces_eq_nil_iff.mp hbraces, rfl⟩
    | @pair bs _ ih =>
        obtain ⟨front, hfront, back, rfl, hback⟩ := exists_of_braces_cons hbraces
        obtain ⟨body, hbody, tail, rfl, htail⟩ := exists_of_braces_cons hback
        have hassoc : front ++ '\x7b' :: (body ++ '\x7d' :: tail) =
            (front ++ '\x7b' :: body) ++ '\x7d' :: tail := by simp
        rw [hassoc] at hnamed ⊢
        obtain ⟨hopen, hrest⟩ := bracesNamed_append_close.mp hnamed
        obtain ⟨o, ho⟩ := exists_occurrence hfront hbody ((bracesNamed_append_open hfront hbody).mp hopen)
        obtain ⟨os, rest, hfree, rfl⟩ := ih hrest htail
        exact ⟨o :: os, rest, hfree, by simp [ho]⟩

/-- The grammar of symbols.  A text splits exactly if its braces come in pairs and a name character
stands before each pair.  It is then a row of occurrences with free text behind them: it has one
symbol for each of them, and its token is what is left without the symbols and the blanks. -/
theorem splitSymbols_grammar (s : List Char) :
    ((∃ result, splitSymbols s = .ok result) ↔ Paired (braces s) ∧ BracesNamed s) ∧
    ∀ token symbols, splitSymbols s = .ok (token, symbols) →
      ∃ (os : List Occurrence) (rest : List Char), Unbraced rest ∧
        s = os.flatMap Occurrence.text ++ rest ∧
        symbols = os.map Occurrence.symbol ∧
        token = unblanked (os.flatMap Occurrence.left ++ rest) := by
  have hrow : ∀ result, splitSymbols s = .ok result → ∃ (os : List Occurrence) (rest : List Char),
      Unbraced rest ∧ s = os.flatMap Occurrence.text ++ rest := by
    intro result h
    unfold splitSymbols at h
    split at h
    · next final hfinal =>
      refine Split.exists_occurrences Split.ended_start hfinal ?_
      unfold Split.result at h
      split at h
      · cases h
      · assumption
    · cases h
  refine ⟨⟨fun ⟨result, h⟩ => exists_occurrences_iff.mp (hrow result h), fun h => ?_⟩,
    fun token symbols h => ?_⟩
  · obtain ⟨os, rest, hrest, rfl⟩ := exists_occurrences_iff.mpr h
    exact ⟨_, splitSymbols_of_occurrences os hrest⟩
  · obtain ⟨os, rest, hrest, rfl⟩ := hrow _ h
    rw [splitSymbols_of_occurrences os hrest] at h
    cases h
    exact ⟨os, rest, hrest, rfl, rfl, rfl⟩

example : splitSymbols "h tloop\x7b2\x7dx_1\x7b a\x7d".toList =
    .ok ("ht".toList, [⟨"loop".toList, "2".toList⟩, ⟨"x_1".toList, " a".toList⟩]) := by decide

end RhythmChart
