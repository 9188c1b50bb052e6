import RhythmChart.Proofs.Records

/-! # Streaks

What judging does to combo, longest combo and empty presses, and to the last errors of the keys.

Main statements.

* `Streak.foldl_move`: the order of hits and misses matters only where both occur;
* `Judge.pays_expire`: the queue counts the notes that it misses, and nothing else;
* `Holds.charges_sweep`: a change of the holds counts its endings, and the misses among them are errors
  of the keys that drove the holds. -/

namespace RhythmChart

open Judge Holds

/-! ### Streaks -/

/-- The combo, and the longest one so far. -/
@[ext]
structure Streak where
  combo : Nat
  longest : Nat
  deriving DecidableEq

namespace Streak

/-- A hit carries the combo on. -/
def hit (c : Streak) : Streak := ⟨c.combo + 1, max c.longest (c.combo + 1)⟩

/-- A miss ends the combo. -/
def miss (c : Streak) : Streak := ⟨0, c.longest⟩

/-- The effect of a grade. -/
def move (c : Streak) (g : Grade) : Streak := if g.isMiss then c.miss else c.hit

/-- The effect of some misses and then of some hits. -/
def pay (misses hits : Nat) (c : Streak) : Streak := hit^[hits] (miss^[misses] c)

/-- Payments add up unless a miss comes after a hit. -/
theorem pay_pay {misses hits misses' hits' : Nat} (h : hits = 0 ∨ misses' = 0) (c : Streak) :
    pay misses' hits' (pay misses hits c) = pay (misses + misses') (hits + hits') c := by
  unfold pay
  rcases h with rfl | rfl
  · rw [Nat.zero_add, Nat.add_comm misses, Function.iterate_add_apply]
    rfl
  · rw [Nat.add_zero, Nat.add_comm hits, Function.iterate_add_apply]
    rfl

/-- Where only misses or only hits occur, their numbers say what becomes of the streak. -/
theorem foldl_move {w : List Grade}
    (h : w.countP Grade.isMiss = 0 ∨ w.countP (fun g => !g.isMiss) = 0) (c : Streak) :
    w.foldl move c = c.pay (w.countP Grade.isMiss) (w.countP fun g => !g.isMiss) := by
  induction w generalizing c with
  | nil => rfl
  | cons g w ih =>
      have hfirst : c.move g = c.pay g.isMiss.toNat (!g.isMiss).toNat := by
        unfold move
        cases g.isMiss <;> rfl
      have hmisses : (g :: w).countP Grade.isMiss = g.isMiss.toNat + w.countP Grade.isMiss := by
        rw [List.countP_cons]
        cases g.isMiss <;> simp [Nat.add_comm]
      have hhits : (g :: w).countP (fun g => !g.isMiss) =
          (!g.isMiss).toNat + w.countP fun g => !g.isMiss := by
        rw [List.countP_cons]
        cases g.isMiss <;> simp [Nat.add_comm]
      rw [hmisses, hhits] at h ⊢
      rw [List.foldl_cons, hfirst, ih (h.imp (by omega) (by omega)), pay_pay (by omega)]

end Streak

namespace Score

/-- The streak that a score is at. -/
def streak (s : Score) : Streak := ⟨s.combo, s.maxCombo⟩

theorem streak_applyGrade (s : Score) (g : Grade) : (s.applyGrade g).streak = s.streak.move g := by
  unfold applyGrade Streak.move
  split_ifs <;> rfl

theorem streak_record (s : Score) (g : Grade) : (s.record g).streak = s.streak.move g :=
  streak_applyGrade s g

theorem emptyPresses_record (s : Score) (g : Grade) :
    (s.record g).emptyPresses = s.emptyPresses := by
  unfold record applyGrade
  split_ifs <;> rfl

theorem lastError_record (s : Score) (g : Grade) : (s.record g).lastError = s.lastError := by
  unfold record applyGrade
  split_ifs <;> rfl

end Score

/-! ### Counting grades -/

namespace Board

/-- How many live notes have a grade of some kind. -/
def tally (p : Grade → Bool) (b : Board) : Nat := b.live.countP fun n => n.result.any p

/-- The second board comes from the first by judging notes: `w` are their grades in order. -/
structure Pays (w : List Grade) (b b' : Board) : Prop where
  streak : b'.score.streak = w.foldl Streak.move b.score.streak
  tally : ∀ p : Grade → Bool, b'.tally p = b.tally p + w.countP p
  empties : b'.score.emptyPresses = b.score.emptyPresses

theorem Pays.refl (b : Board) : Pays [] b b := ⟨rfl, fun _ => rfl, rfl⟩

theorem Pays.trans {w w' : List Grade} {b b' b'' : Board} (h : Pays w b b') (h' : Pays w' b' b'') :
    Pays (w ++ w') b b'' := by
  refine ⟨?_, fun p => ?_, h'.empties.trans h.empties⟩
  · rw [List.foldl_append, ← h.streak, h'.streak]
  · rw [List.countP_append, h'.tally, h.tally, Nat.add_assoc]

/-- A note without a grade gets one. -/
theorem tally_settle (b : Board) {id : Nat} {n : LiveNote} (hn : b.live[id]? = some n)
    (hu : n.result = none) (n' : LiveNote) (g : Grade) (time : Float) (p : Grade → Bool) :
    (b.settle id n' g time).tally p = b.tally p + (p g).toNat := by
  have hcount := countP_modify (fun n : LiveNote => n.result.any p)
    (fun n => { n with result := some g }) hn
  rw [hu] at hcount
  exact hcount

theorem pays_record (b : Board) {id : Nat} {n : LiveNote} (hn : b.live[id]? = some n)
    (hu : n.result = none) (n' : LiveNote) (g : Grade) (time : Float) :
    Pays [g] b ((b.mapScore fun s => s.record g).settle id n' g time) := by
  refine ⟨Score.streak_record _ g, fun p => ?_, Score.emptyPresses_record _ g⟩
  refine (tally_settle (b.mapScore fun s => s.record g) hn hu n' g time p).trans ?_
  cases hp : p g <;> simp [hp, tally, mapScore]

end Board

/-- The queue counts the notes that it misses, and nothing else. -/
theorem Judge.pays_expire (w : Windows) (now : Float) (scans : Nat)
    (queue : List Nat) (worst : List (Nat × Float × Grade)) (b : Board) :
    let b' := (expire w now scans queue worst b).2.2
    (∃ gs, Board.Pays gs b b') ∧ b'.score.lastError = b.score.lastError := by
  intro b'
  unfold b'
  fun_induction expire w now scans queue worst b with
  | case1 => exact ⟨⟨[], .refl _⟩, rfl⟩
  | case2 => exact ⟨⟨[], .refl _⟩, rfl⟩
  | case3 worst b scans id queue hn ih => exact ih
  | case4 worst b scans id queue n hn hjudged ih => exact ih
  | case5 => exact ⟨⟨[], .refl _⟩, rfl⟩
  | case6 worst b scans id queue n hn hopen hlate grade ih =>
      have hu : n.result = none := by
        rw [LiveNote.isJudged, Bool.not_eq_true] at hopen
        exact Option.isNone_iff_eq_none.mp (by simpa using hopen)
      obtain ⟨⟨gs, hpays⟩, herrors⟩ := ih
      exact ⟨⟨grade :: gs, (Board.pays_record _ hn hu n grade now).trans hpays⟩,
        herrors.trans (Score.lastError_record _ _)⟩

/-- A score that has taken in a hit or a miss of grade `g`. -/
structure Score.Struck (g : Grade) (s s' : Score) : Prop where
  streak : s'.streak = s.streak.move g
  lastError : s'.lastError = s.lastError
  empties : s'.emptyPresses = s.emptyPresses

theorem Score.struck_applyGrade (s : Score) (g : Grade) : Struck g s (s.applyGrade g) := by
  refine ⟨streak_applyGrade s g, ?_, ?_⟩ <;>
  · unfold applyGrade
    split_ifs <;> rfl

theorem Judge.struck_pressSingle (j : Judge) (time : Float) (id : Nat) (n : LiveNote) (b : Board) :
    Score.Struck (j.windows.grade (n.trigger - time)) b.score (j.pressSingle time id n b).2.score :=
  ⟨Score.streak_record _ _, Score.lastError_record _ _, Score.emptyPresses_record _ _⟩

/-- A layer moves the streak by its own grade, also where the note gets the grade of its worst layer. -/
theorem Judge.struck_pressLayer (j : Judge) (time : Float) (layers id : Nat) (n : LiveNote)
    (b : Board) : Score.Struck (j.windows.grade (n.trigger - time)) b.score
      (j.pressLayer time layers id n b).2.score := by
  have hstruck := Score.struck_applyGrade b.score (j.windows.grade (n.trigger - time))
  unfold pressLayer
  dsimp only
  split_ifs
  · exact ⟨hstruck.streak, hstruck.lastError, hstruck.empties⟩
  · exact hstruck

/-! ### Errors of keys -/

/-- The time of the error that a change counts against the key of a hold. -/
def HoldFate.fault? : HoldFate → Option Float
  | .grade g time => if g.isMiss then some time else none
  | _ => none

namespace Holds

theorem finishHold_eq {h : Hold} {b : Board} {n : LiveNote} (hn : b.live[h.live]? = some n)
    {k : Key} (hk : h.phase.key? = some k) (g : Grade) (time : Float) :
    finishHold h g time b =
      if g.isMiss then
        ((b.mapScore fun s => s.record g).mapScore fun s => s.markError k time).settle h.live n g time
      else (b.mapScore fun s => s.record g).settle h.live n g time := by
  have hplain : (b.mapScore fun s => s.record g).live[h.live]? = some n := hn
  have hmarked : ((b.mapScore fun s => s.record g).mapScore fun s =>
      s.markError k time).live[h.live]? = some n := hn
  unfold finishHold
  rw [hk]
  cases g.isMiss with
  | false =>
      simp only [hplain]
      rfl
  | true =>
      simp only [hmarked]
      rfl

/-- A hold that gets its grade is counted, and a miss is an error of its key. -/
theorem pays_finishHold {h : Hold} {b : Board} {n : LiveNote} (hn : b.live[h.live]? = some n)
    (hu : n.result = none) {k : Key} (hk : h.phase.key? = some k) (g : Grade) (time : Float) :
    let b' := finishHold h g time b
    Board.Pays [g] b b' ∧
      b'.score.lastError.lookup k = (HoldFate.grade g time).fault?.or (b.score.lastError.lookup k) ∧
      ∀ k', k' ≠ k → b'.score.lastError.lookup k' = b.score.lastError.lookup k' := by
  intro b'
  have hpays := Board.pays_record b hn hu n g time
  have herrors := Score.lastError_record b.score g
  have hfault : (HoldFate.grade g time).fault? = if g.isMiss then some time else none := rfl
  unfold b'
  rw [finishHold_eq hn hk, hfault]
  split_ifs with hmiss
  · have hmarked : (((b.mapScore fun s => s.record g).mapScore fun s =>
        s.markError k time).settle h.live n g time).score.lastError =
          Assoc.put k time b.score.lastError := by
      rw [← herrors]
      rfl
    refine ⟨⟨hpays.streak, hpays.tally, hpays.empties⟩, ?_, fun k' hne => ?_⟩
    · rw [hmarked, Assoc.lookup_put_self]
      rfl
    · rw [hmarked, Assoc.lookup_put_of_ne hne]
  · have hsame : ((b.mapScore fun s => s.record g).settle h.live n g time).score.lastError =
        b.score.lastError := herrors
    exact ⟨hpays, by rw [hsame]; rfl, fun k' _ => by rw [hsame]⟩

/-- What a change of the holds `hs` does to the counters. -/
structure Charges (fate : Board → Hold → HoldFate) (hs : List Hold) (b b' : Board) : Prop where
  pays : ∃ gs, Board.Pays gs b b'
  spared : ∀ k, (∀ h ∈ hs, h.phase.key? ≠ some k) →
    b'.score.lastError.lookup k = b.score.lastError.lookup k
  blamed : ∀ h ∈ hs, ∀ k, h.phase.key? = some k →
    b'.score.lastError.lookup k = (fate .blank h).fault?.or (b.score.lastError.lookup k)

section Alone

variable {h : Hold} {rest : List Hold} (halone : ∀ x ∈ h :: rest, ∀ y ∈ h :: rest, ∀ k,
  x.phase.key? = some k → y.phase.key? = some k → x.live = y.live)

include halone

theorem alone_of_cons : ∀ x ∈ rest, ∀ y ∈ rest, ∀ k, x.phase.key? = some k →
    y.phase.key? = some k → x.live = y.live :=
  fun x hx y hy => halone x (List.mem_cons_of_mem _ hx) y (List.mem_cons_of_mem _ hy)

/-- A key that drives the first hold drives none of the others. -/
theorem key_ne_of_cons (hnot : h.live ∉ rest.map Hold.live) {k : Key} (hk : h.phase.key? = some k) :
    ∀ x ∈ rest, x.phase.key? ≠ some k := by
  intro x hx hk'
  have := halone h List.mem_cons_self x (List.mem_cons_of_mem _ hx) k hk hk'
  exact hnot (this ▸ List.mem_map_of_mem hx)

end Alone

/-- A change counts its endings, and the misses among them are errors of the keys. -/
theorem charges_sweep {fate : Board → Hold → HoldFate} (hf : Lawful fate) (hblind : Blind fate)
    {hs : List Hold} {b : Board} (hnodup : (hs.map Hold.live).Nodup) (hopen : OpenNotes hs b)
    (halone : ∀ h ∈ hs, ∀ h' ∈ hs, ∀ k, h.phase.key? = some k → h'.phase.key? = some k →
      h.live = h'.live) :
    Charges fate hs b (sweep fate hs b).2 := by
  revert halone
  refine sweep_induction hf (P := fun hs b _ b' => (∀ h ∈ hs, ∀ h' ∈ hs, ∀ k, h.phase.key? = some k →
    h'.phase.key? = some k → h.live = h'.live) → Charges fate hs b b') (fun b _ => ?_) ?_ ?_ ?_ hnodup hopen
  · exact ⟨⟨[], .refl b⟩, fun _ _ => rfl, fun _ h => (nomatch h)⟩
  · intro h h' rest b hfate _ _ hnot ih halone
    obtain ⟨hpays, hspared, hblamed⟩ := ih (alone_of_cons halone)
    refine ⟨hpays, fun k hk => hspared k fun x hx => hk x (List.mem_cons_of_mem _ hx),
      fun x hx k hk => ?_⟩
    rcases List.mem_cons.mp hx with rfl | hx
    · rw [← hblind b x (Option.isSome_of_eq_some hk), hfate]
      exact hspared k (key_ne_of_cons halone hnot hk)
    · exact hblamed x hx k hk
  · intro h g time n rest b hfate he _ hn hu hnot graded ih halone
    obtain ⟨own, hown⟩ := Option.isSome_iff_exists.mp he
    have hother := key_ne_of_cons halone hnot hown
    obtain ⟨hfirst, hblame, hspare⟩ := pays_finishHold hn hu hown g time
    obtain ⟨⟨gs, hpays⟩, hspared, hblamed⟩ := ih (alone_of_cons halone)
    refine ⟨⟨g :: gs, hfirst.trans hpays⟩, fun k hk => ?_, fun x hx k hk => ?_⟩
    · have hne : k ≠ own := fun heq => hk h List.mem_cons_self (heq ▸ hown)
      exact (hspared k fun x hx => hk x (List.mem_cons_of_mem _ hx)).trans (hspare k hne)
    · rcases List.mem_cons.mp hx with rfl | hx
      · obtain rfl := Option.some.inj (hown.symm.trans hk)
        rw [← hblind b x he, hfate]
        exact (hspared own hother).trans hblame
      · have hne : k ≠ own := fun heq => hother x hx (heq ▸ hk)
        rw [← hspare k hne]
        exact hblamed x hx k hk
  · intro h rest b _ hidle _ ih halone
    obtain ⟨hpays, hspared, hblamed⟩ := ih (alone_of_cons halone)
    refine ⟨hpays, fun k hk => hspared k fun x hx => hk x (List.mem_cons_of_mem _ hx),
      fun x hx k hk => ?_⟩
    rcases List.mem_cons.mp hx with rfl | hx
    · rw [HoldPhase.isEngaged, hk] at hidle
      cases hidle
    · exact hblamed x hx k hk

end Holds

end RhythmChart
