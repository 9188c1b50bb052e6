import RhythmChart.Proofs.Keying
import RhythmChart.Proofs.Ledger
import RhythmChart.Proofs.TickRate

/-! # Counters do not depend on the tick rate

Combo, errors and empty presses of a stage are those of a ledger.  Ledgers that are told the same edges
come out the same, so that the counters of a playback depend on its ticks in two ways only: which presses
that hit nothing have a note of the current row near, and how time brings misses and hits together.

Main statements.

* `Stage.Books`: what a stage has in common with a ledger;
* `Stage.Books.settleTime`, `Stage.Books.release` and `Stage.Books.press`: time and keys keep that;
* `Playback.counters_agree`: playbacks of the same edges that are at the same time have missed as many
  notes; with the same empty presses they count as many errors, and with even ticks the same combos;
* `Playback.counters_differ`: without these conditions, or with windows that are too wide, they differ. -/

namespace RhythmChart

open Judge Holds Binary64

/-! ### Counting at the desk -/

/-- A list has as many elements of a kind as it has places with one. -/
theorem countP_eq_range {α : Type} (q : α → Bool) (l : List α) {n : Nat} (hn : l.length ≤ n) :
    l.countP q = (List.range n).countP fun i => (l[i]?).any q := by
  induction l generalizing n with
  | nil => simp
  | cons a l ih =>
      obtain ⟨m, rfl⟩ : ∃ m, n = m + 1 := Nat.exists_eq_succ_of_ne_zero (by
        rw [List.length_cons] at hn
        omega)
      rw [List.length_cons] at hn
      rw [List.countP_cons, List.range_succ_eq_map, List.countP_cons, List.countP_map,
        ih (Nat.le_of_succ_le_succ hn)]
      rfl

namespace Stage

variable {S : Sheet} {L L' : Nat → Prop} {s s' : Stage} {x y : Desk}

theorem Shows.tidy (h : s.Shows S L x) : x.Tidy :=
  { h.steady with
    nodup := h.nodup
    waiting := h.waiting
    coming := fun id hid => by
      by_contra hsome
      obtain ⟨e, he⟩ := Option.ne_none_iff_exists'.mp hsome
      have hgrade := h.grade id
      change s.board.result? id = (x.ended id).map Ending.grade at hgrade
      rw [he] at hgrade
      have hlt := (h.sound.admitted id (.inl (Option.isSome_of_eq_some hgrade))).1
      rw [h.next] at hlt
      omega
    driven := fun _ he => h.ended_of_engaged he }

theorem Shows.tally (h : s.Shows S L x) (p : Grade → Bool) : s.board.tally p = x.tally S p := by
  have hsize : s.board.live.toList.length ≤ S.all.size := by
    rw [Array.length_toList]
    exact h.size_le
  unfold Board.tally Desk.tally
  rw [← Array.countP_toList, countP_eq_range _ _ hsize]
  refine congrArg (fun q => (List.range S.all.size).countP q) (funext fun id => ?_)
  have hgrade := h.grade id
  change (s.board.live[id]?).bind LiveNote.result = (x.ended id).map Ending.grade at hgrade
  have hany : ((s.board.live[id]?).bind LiveNote.result).any p =
      (s.board.live[id]?).any fun n => n.result.any p := by
    cases s.board.live[id]? <;> rfl
  rw [Array.getElem?_toList, ← hany, hgrade]
  cases x.ended id <;> rfl

/-- The errors are the misses of the desk and the empty presses. -/
theorem Shows.errors (h : s.Shows S L x) :
    s.board.score.errors = x.tally S (fun g => g == .tooLate) + s.board.score.emptyPresses := by
  have hlate : s.board.score.grades.tooLate = s.board.tally fun g => g == .tooLate := by
    refine (h.sound.tallied.grades .tooLate).trans (congrArg (fun q => s.board.live.countP q) ?_)
    funext n
    unfold LiveNote.hasGrade
    cases n.result <;> rfl
  rw [h.sound.tallied.errors, hlate, h.tally]

/-- What is paid on the stage is paid at the desk, where there are only misses or only hits. -/
theorem Shows.streak (h : s.Shows S L x) (h' : s'.Shows S L' y) {gs : List Grade}
    (hpays : Board.Pays gs s.board s'.board) (heven : Desk.Even S x y) :
    s'.board.score.streak = Desk.pay S x y s.board.score.streak := by
  have hcount : ∀ p : Grade → Bool, gs.countP p = y.tally S p - x.tally S p := by
    intro p
    have := hpays.tally p
    rw [h'.tally, h.tally] at this
    omega
  rw [hpays.streak, Streak.foldl_move, hcount, hcount]
  · rfl
  · rw [hcount, hcount]
    exact heven.imp (fun heq => by rw [heq, Nat.sub_self]) fun heq => by rw [heq, Nat.sub_self]

/-! ### Time and holds -/

/-- Letting notes in and missing late ones counts the misses, and no errors of keys. -/
theorem pays_maintain (s : Stage) (scene : Scene) (now : Float) :
    (∃ gs, Board.Pays gs s.board (s.maintain scene now).board) ∧
      (s.maintain scene now).board.score.lastError = s.board.score.lastError := by
  unfold Stage.maintain
  rw [maintain_eq]
  exact pays_expire s.judge.windows now maxScan _ s.judge.worst s.board

section Change

variable {fate : Board → Hold → HoldFate}

theorem Shows.charges (h : s.Shows S L x) (hf : Lawful fate) (hblind : Blind fate) :
    Charges fate s.holds.holds s.board (s.change fate).board := by
  have hphase : ∀ k ∈ s.holds.holds, k.phase = x.phase k.live := fun k hk =>
    congrArg Hold.phase (h.holds k hk)
  refine charges_sweep hf hblind h.sound.registered.once h.sound.openNotes ?_
  intro k hk k' hk' key hkey hkey'
  rw [hphase k hk] at hkey
  rw [hphase k' hk'] at hkey'
  exact h.steady.alone k.live k'.live key hkey hkey'

/-- A change counts the same errors of keys as at the desk. -/
theorem Shows.lookup_change (h : s.Shows S L x) (hf : Lawful fate) (hblind : Blind fate) (key : Key) :
    (s.change fate).board.score.lastError.lookup key =
      (x.fault? S fate key).or (s.board.score.lastError.lookup key) := by
  have hcharges := h.charges hf hblind
  by_cases hdrives : ∃ k ∈ s.holds.holds, k.phase.key? = some key
  · obtain ⟨k, hk, hkey⟩ := hdrives
    have hhold := h.holds k hk
    have hdrive : (x.phase k.live).key? = some key := (congrArg (fun h => h.phase.key?) hhold) ▸ hkey
    rw [Desk.fault?_of_drives h.steady hdrive, ← hhold]
    exact hcharges.blamed k hk key hkey
  · have hfree : ∀ id, (x.phase id).key? ≠ some key := by
      intro id hid
      obtain ⟨k, hk, rfl⟩ := List.mem_map.mp (h.tracked id (Desk.isEngaged_of_key hid))
      refine hdrives ⟨k, hk, ?_⟩
      rw [show k.phase = x.phase k.live from congrArg Hold.phase (h.holds k hk)]
      exact hid
    rw [Desk.fault?_of_free hfree, Option.none_or]
    exact hcharges.spared key fun k hk hkey => hdrives ⟨k, hk, hkey⟩

end Change

/-! ### Stages and ledgers -/

/-- The stage is like the ledger; the streaks are the same under a condition. -/
structure Books (S : Sheet) (L : Nat → Prop) (U : Prop) (s : Stage) (a : Ledger) : Prop where
  shows : s.Shows S L a.desk
  errs : ∀ k, s.board.score.lastError.lookup k = a.errs k
  empties : s.board.score.emptyPresses = a.empties
  streak : U → s.board.score.streak = a.streak

section Books

variable {U : Prop} {a : Ledger}

theorem Books.mono {V : Prop} (h : Books S L U s a) (hV : V → U) : Books S L V s a :=
  ⟨h.shows, h.errs, h.empties, fun hv => h.streak (hV hv)⟩

/-- A change of the holds is booked, except for the streak. -/
theorem Books.change (h : Books S L U s a) {fate : Board → Hold → HoldFate} (hf : Lawful fate)
    (hblind : Blind fate) :
    (s.change fate).Shows S L (a.change S fate).desk ∧
      (∀ k, (s.change fate).board.score.lastError.lookup k = (a.change S fate).errs k) ∧
        ∃ gs, Board.Pays gs s.board (s.change fate).board := by
  refine ⟨h.shows.change hf hblind, fun k => ?_, (h.shows.charges hf hblind).pays⟩
  rw [h.shows.lookup_change hf hblind, h.errs]
  rfl

/-- Time is booked. -/
theorem Books.settleTime (h : Books S L U s a) (hfew : S.all.size ≤ maxScan) {now : Float}
    (hcovers : S.Covers s.board.live now) (visit : Option Nat) :
    Books S (fun id => L id ∨ s.Lapses (S.scene visit) now id)
      (U ∧ Desk.Even S a.desk (a.desk.settle S now)) (s.settleTime (S.scene visit) now)
        (a.tell S now) := by
  obtain ⟨⟨gs, hpays⟩, herrors⟩ := s.pays_maintain (S.scene visit) now
  have hmaintained := h.shows.maintain hfew hcovers visit
  have hagree : (s.maintain (S.scene visit) now).holds.windows = S.windows :=
    hmaintained.sound.agree.trans hmaintained.windows
  have hbooks : Books S _ False (s.maintain (S.scene visit) now)
      { a with desk := a.desk.maintain S now } :=
    ⟨hmaintained, fun k => by rw [herrors]; exact h.errs k, hpays.empties.trans h.empties, False.elim⟩
  obtain ⟨hshows, herrs, gs', hpays'⟩ :=
    hbooks.change (lawful_timeFate S.windows now) (blind_timeFate S.windows now)
  have hstage : s.settleTime (S.scene visit) now =
      (s.maintain (S.scene visit) now).change (timeFate S.windows now) := by
    rw [← hagree]
    rfl
  rw [hstage]
  refine ⟨hshows, herrs, hpays'.empties.trans (hpays.empties.trans h.empties), fun hU => ?_⟩
  rw [h.shows.streak hshows (hpays.trans hpays') hU.2, h.streak hU.1]
  rfl

/-- A release is booked. -/
theorem Books.release (h : Books S L U s a) (key : Key) (time : Float) :
    Books S L (U ∧ Desk.Even S a.desk (a.desk.release S key time)) (s.release key time)
      (a.release S key time) := by
  have hagree : s.holds.windows = S.windows := h.shows.sound.agree.trans h.shows.windows
  obtain ⟨hshows, herrs, gs, hpays⟩ :=
    h.change (lawful_timeFate S.windows time) (blind_timeFate S.windows time)
  have hbooks : Books S L False (s.change (timeFate S.windows time))
      (a.change S (timeFate S.windows time)) :=
    ⟨hshows, herrs, hpays.empties.trans h.empties, False.elim⟩
  obtain ⟨hshows', herrs', gs', hpays'⟩ := hbooks.change (lawful_releaseFate S.windows key time)
    (blind_releaseFate S.windows key time)
  have hstage : s.release key time =
      (s.change (timeFate S.windows time)).change (releaseFate S.windows key time) := by
    rw [← hagree]
    rfl
  rw [hstage]
  refine ⟨hshows', herrs', hpays'.empties.trans (hpays.empties.trans h.empties), fun hU => ?_⟩
  rw [h.shows.streak hshows' (hpays.trans hpays') hU.2, h.streak hU.1]
  rfl

/-- A press makes misses only of the holds that wait for another key. -/
theorem even_cross (hx : x.Tidy) (key : Key) (time : Float) :
    Desk.Even S x ((x.resume S key time).change S (crossFate key time)) := by
  have hresumed := hx.resume (S := S) key time
  refine .inr (congrArg (fun q => (List.range S.all.size).countP q) (funext fun id => ?_))
  rw [Desk.ended_change]
  by_cases he : ((x.resume S key time).phase id).isEngaged = true
  · have hnone : x.ended id = none := hresumed.driven id he
    have hmiss : ∀ h : Hold, ((crossFate key time .blank h).ending?).any (fun e => !e.grade.isMiss) =
        false := by
      intro h
      unfold crossFate
      cases h.phase with
      | idle => rfl
      | holding k g => rfl
      | guarded k g released =>
          dsimp only
          split_ifs <;> rfl
    have hsame : (x.resume S key time).ended id = none := hnone
    rw [hnone, hsame, Option.or_none, hmiss]
    rfl
  · have hidle := Desk.isEngaged_phase (lawful_crossFate key time) .blank
      ((x.resume S key time).hold S id) (Bool.eq_false_iff.mpr he)
    rw [hidle.2]
    rfl

/-- A press that meets waiting holds is booked. -/
theorem Books.cross (h : Books S L U s a) (key : Key) (time : Float) :
    Books S L U (({ s with holds := (s.holds.resume key time).2 } : Stage).change (crossFate key time))
      (a.cross S key time) := by
  have hresumed := h.shows.resume key time
  have hbooks : Books S L False { s with holds := (s.holds.resume key time).2 }
      { a with desk := a.desk.resume S key time } := ⟨hresumed, h.errs, h.empties, False.elim⟩
  obtain ⟨hshows, herrs, gs, hpays⟩ :=
    hbooks.change (lawful_crossFate key time) (blind_crossFate key time)
  refine ⟨hshows, herrs, hpays.empties.trans h.empties, fun hU => ?_⟩
  have hpays' : Board.Pays gs s.board (({ s with holds := (s.holds.resume key time).2 } :
      Stage).change (crossFate key time)).board := hpays
  rw [h.shows.streak hshows hpays' (even_cross h.shows.tidy key time), h.streak hU]
  rfl

/-- An empty press is charged as in the ledger. -/
theorem Books.charge (h : Books S L U s a) (key : Key) (time : Float) :
    Books S L U
      { s with board := s.board.mapScore fun score =>
          score.emptyPress key time s.judge.windows.cooldown }
      (a.charge S key time) := by
  have hsound := h.shows.sound.mapScore
    (Board.judges_emptyPress (fun _ => False) s.board key time s.judge.windows.cooldown)
  have hcharges : s.board.score.charges key time s.judge.windows.cooldown =
      !(a.errs key).any fun last => decide (time - last ≤ S.windows.cooldown) := by
    unfold Score.charges
    rw [h.errs, h.shows.windows]
    cases a.errs key <;> rfl
  have hshows := (Ledger.desk_charge (S := S) a key time).symm ▸ h.shows.mapScore hsound
  have hscore : s.board.score.emptyPress key time s.judge.windows.cooldown =
      if (a.errs key).any fun last => decide (time - last ≤ S.windows.cooldown) then s.board.score
      else
        { s.board.score.markError key time with
          combo := 0
          errors := s.board.score.errors + 1
          emptyPresses := s.board.score.emptyPresses + 1 } := by
    unfold Score.emptyPress
    rw [hcharges]
    cases (a.errs key).any fun last => decide (time - last ≤ S.windows.cooldown) <;> rfl
  refine ⟨hshows, fun k => ?_, ?_, fun hU => ?_⟩
  all_goals
    dsimp only [Board.mapScore]
    rw [hscore]
    unfold Ledger.charge
    split_ifs
  · exact h.errs k
  · change (Assoc.put key time s.board.score.lastError).lookup k =
      Function.update a.errs key (some time) k
    rw [Function.update_apply]
    split_ifs with heq
    · rw [heq, Assoc.lookup_put_self]
    · rw [Assoc.lookup_put_of_ne heq, h.errs]
  · exact h.empties
  · exact congrArg (· + 1) h.empties
  · exact h.streak hU
  · exact congrArg Streak.miss (h.streak hU)

end Books

/-! ### Presses -/

/-- Whether a press that resumes no hold judges a note or begins a hold. -/
def strikes (s : Stage) (scene : Scene) (key : Key) (time : Float) : Bool :=
  match (s.judge.press time scene.notes s.board).1 with
  | .judged => true
  | .hold id => (s.holds.start id key time scene.notes scene.speed s.board).1
  | .unmatched => false

/-- Whether an edge is a press that hits nothing while no note of the current visit is near. -/
def isEmpty (s : Stage) (scene : Scene) (e : Edge) : Bool :=
  let ready := s.ready scene e.key e.time
  e.pressed && !ready.1 && !ready.2.strikes scene e.key e.time && !ready.2.isNear scene e.time

/-- What a press that resumes no hold does: it hits, or it is charged as an empty one. -/
inductive HitCases (S : Sheet) (key : Key) (time : Float) (x : Desk) (s : Stage) (scene : Scene) :
    Prop where
  | struck (g : Grade) (hdesk : x.strike? S key time = some g)
      (hstage : s.strikes scene key time = true)
      (hscore : Score.Struck g s.board.score (s.hit scene key time).board.score) :
      HitCases S key time x s scene
  | missed (hdesk : x.strike? S key time = none) (hkept : x.hit S key time = x)
      (hstage : s.strikes scene key time = false)
      (hcharged : s.hit scene key time = s.chargeEmpty scene key time) : HitCases S key time x s scene

theorem Shows.hit_cases (h : s.Shows S L x) (hfew : S.all.size ≤ maxScan) (visit : Option Nat)
    (key : Key) (time : Float) : HitCases S key time x s (S.scene visit) := by
  have htarget := h.target hfew time
  cases hfind : x.target? S time with
  | none =>
      refine .missed ?_ ?_ ?_ ?_
      · rw [Desk.strike?, hfind]
        rfl
      · rw [Desk.hit, hfind]
      · rw [strikes, Judge.press, htarget, hfind]
      · rw [Stage.hit, Judge.press, htarget, hfind]
  | some id =>
      obtain ⟨hid, n, hn, hu, htrigger, hclose⟩ := h.reached hfind
      have hnotes : (S.scene visit).notes = S.notes := rfl
      have hspeed : (S.scene visit).speed = S.speed := rfl
      have hgrade : s.judge.windows.grade (n.trigger - time) =
          S.windows.grade (S.trigger id - time) := by
        rw [h.windows, htrigger]
      cases hnote : S.notes[n.note]? with
      | none =>
          refine .missed ?_ ?_ ?_ ?_
          · simp [Desk.strike?, hfind, h.note? hn, hnote]
          · simp [Desk.hit, hfind, h.note? hn, hnote]
          · simp [strikes, Judge.press, htarget, hfind, hn, hnotes, hnote]
          · simp [Stage.hit, Judge.press, htarget, hfind, hn, hnotes, hnote]
      | some note =>
          by_cases hhold : note.noteType = .hold
          · have hstart := h.start hid hn key time hclose
            dsimp only at hstart
            by_cases hbusy : x.isBusy key = true
            · rw [if_pos hbusy] at hstart
              refine .missed ?_ ?_ ?_ ?_
              · simp [Desk.strike?, hfind, h.note? hn, hnote, hhold, hbusy]
              · simp [Desk.hit, hfind, h.note? hn, hnote, hhold, hbusy]
              · simp [strikes, Judge.press, htarget, hfind, hn, hnotes, hspeed, hnote, hhold, hstart]
              · simp [Stage.hit, Judge.press, htarget, hfind, hn, hnotes, hspeed, hnote, hhold, hstart]
            · rw [if_neg hbusy] at hstart
              refine .struck (S.windows.grade (S.trigger id - time)) ?_ ?_ ?_
              · simp [Desk.strike?, hfind, h.note? hn, hnote, hbusy]
              · simp [strikes, Judge.press, htarget, hfind, hn, hnotes, hspeed, hnote, hhold, hstart]
              · simp only [Stage.hit, Judge.press, htarget, hfind, hn, hnotes, hspeed, hnote, hhold,
                  if_true, hstart]
                exact Score.struck_applyGrade _ _
          · refine .struck (S.windows.grade (S.trigger id - time)) ?_ ?_ ?_
            · simp [Desk.strike?, hfind, h.note? hn, hnote, hhold]
            · simp only [strikes, Judge.press, htarget, hfind, hn, hnotes, hnote, hhold, if_false]
              split_ifs <;> rfl
            · rw [← hgrade]
              simp only [Stage.hit, Judge.press, htarget, hfind, hn, hnotes, hnote, hhold, if_false]
              split_ifs
              · exact struck_pressLayer _ _ _ _ _ _
              · exact struck_pressSingle _ _ _ _ _

section Books

variable {U : Prop} {a : Ledger}

/-- A press that resumes no hold is booked. -/
theorem Books.hit (h : Books S L U s a) (hfew : S.all.size ≤ maxScan) (visit : Option Nat) (key : Key)
    (time : Float) :
    Books S L U (s.hit (S.scene visit) key time)
      (if !s.strikes (S.scene visit) key time && !s.isNear (S.scene visit) time then
        (a.hit S key time).charge S key time else a.hit S key time) := by
  have hshows := h.shows.hit hfew visit key time
  cases h.shows.hit_cases hfew visit key time with
  | struck g hdesk hstage hscore =>
      have hstreak : (a.hit S key time).streak = a.streak.move g := by
        unfold Ledger.hit
        rw [hdesk]
        rfl
      rw [hstage, Bool.not_true, Bool.false_and, if_neg Bool.false_ne_true]
      refine ⟨hshows, fun k => ?_, hscore.empties.trans h.empties, fun hU => ?_⟩
      · rw [hscore.lastError]
        exact h.errs k
      · rw [hscore.streak, hstreak, h.streak hU]
  | missed hdesk hkept hstage hcharged =>
      have hsame : a.hit S key time = a := by
        unfold Ledger.hit
        rw [hdesk, hkept]
        rfl
      rw [hstage, hsame, hcharged]
      unfold Stage.chargeEmpty
      cases s.isNear (S.scene visit) time with
      | true => exact h
      | false => exact h.charge key time

/-- A press is booked. -/
theorem Books.press (h : Books S L U s a) (hfew : S.all.size ≤ maxScan) {e : Edge}
    (hpressed : e.pressed = true) (hcovers : S.Covers s.board.live e.time) (visit : Option Nat) :
    Books S (fun id => L id ∨ s.Lapses (S.scene visit) e.time id)
      (U ∧ Desk.Even S a.desk (a.desk.settle S e.time)) (s.press (S.scene visit) e.key e.time)
        ((a.tell S e.time).act S e.key e.time (s.isEmpty (S.scene visit) e)) := by
  have hsettled := h.settleTime hfew hcovers visit
  have hawaited : (s.ready (S.scene visit) e.key e.time).1 =
      (a.tell S e.time).desk.isAwaited S e.key e.time := hsettled.shows.isAwaited e.key e.time
  have hcrossed := hsettled.cross e.key e.time
  have hready : (s.ready (S.scene visit) e.key e.time).2 =
      ({ s.settleTime (S.scene visit) e.time with
        holds := ((s.settleTime (S.scene visit) e.time).holds.resume e.key e.time).2 } :
          Stage).change (crossFate e.key e.time) := rfl
  rw [← hready] at hcrossed
  have hempty : s.isEmpty (S.scene visit) e = (!(s.ready (S.scene visit) e.key e.time).1 &&
      !(s.ready (S.scene visit) e.key e.time).2.strikes (S.scene visit) e.key e.time &&
        !(s.ready (S.scene visit) e.key e.time).2.isNear (S.scene visit) e.time) := by
    unfold Stage.isEmpty
    rw [hpressed]
    rfl
  rw [press_eq, hempty]
  unfold Ledger.act
  dsimp only
  rw [← hawaited]
  cases (s.ready (S.scene visit) e.key e.time).1 with
  | true => exact hcrossed
  | false => exact hcrossed.hit hfew visit e.key e.time

/-- An edge is booked. -/
theorem Books.edge (h : Books S L U s a) (hfew : S.all.size ≤ maxScan) {e : Edge}
    (hcovers : S.Covers s.board.live e.time) (visit : Option Nat) :
    Books S (fun id => L id ∨ s.EdgeLapses (S.scene visit) e id) (U ∧ a.EvenEdge S e)
      (s.edge (S.scene visit) e) (a.edge S e (s.isEmpty (S.scene visit) e)) := by
  unfold Stage.edge Ledger.edge Ledger.EvenEdge
  cases hpressed : e.pressed with
  | true =>
      simp only [if_true, EdgeLapses, hpressed, true_and]
      exact h.press hfew hpressed hcovers visit
  | false =>
      simp only [Bool.false_eq_true, if_false, EdgeLapses, hpressed, false_and, or_false]
      refine (h.release e.key e.time).mono fun hU => ⟨hU.1, ?_⟩
      have ha := h.shows.tidy
      exact hU.2.left (ha.upholds_release e.key e.time)
        ((ha.release e.key e.time).upholds_settle e.time)

end Books

/-! ### Runs of edges -/

/-- What judging is told with a run of edges. -/
def moments (scene : Scene) : List Edge → Stage → List Moment
  | [], _ => []
  | e :: rest, s => .edge e (s.isEmpty scene e) :: moments scene rest (s.edge scene e)

/-- From the first stage to the second there are only misses or only hits. -/
def isEven (s s' : Stage) : Bool :=
  s.board.tally Grade.isMiss == s'.board.tally Grade.isMiss ||
    s.board.tally (fun g => !g.isMiss) == s'.board.tally fun g => !g.isMiss

/-- What time has brought by the time of an edge, together with the edge if it is a release, is only
misses or only hits. -/
def isEvenEdge (s : Stage) (scene : Scene) (e : Edge) : Bool :=
  s.isEven ((if e.pressed then s else s.release e.key e.time).settleTime scene e.time)

/-- That holds of all edges of a run. -/
def areEven (scene : Scene) : List Edge → Stage → Bool
  | [], _ => true
  | e :: rest, s => s.isEvenEdge scene e && areEven scene rest (s.edge scene e)

theorem Shows.even (h : s.Shows S L x) (h' : s'.Shows S L' y) (heven : s.isEven s' = true) :
    Desk.Even S x y := by
  unfold isEven at heven
  rw [Bool.or_eq_true, beq_iff_eq, beq_iff_eq, h.tally, h.tally, h'.tally, h'.tally] at heven
  exact heven

theorem instants_moments (scene : Scene) (edges : List Edge) (s : Stage) :
    (moments scene edges s).map Moment.instant = edges.map Edge.time := by
  induction edges generalizing s with
  | nil => rfl
  | cons e edges ih => exact congrArg (e.time :: ·) (ih (s.edge scene e))

section Books

variable {U : Prop} {a : Ledger}

theorem Books.evenEdge (h : Books S L U s a) (hfew : S.all.size ≤ maxScan) {e : Edge}
    (hcovers : S.Covers s.board.live e.time) (visit : Option Nat)
    (heven : s.isEvenEdge (S.scene visit) e = true) : a.EvenEdge S e := by
  unfold isEvenEdge at heven
  unfold Ledger.EvenEdge
  cases hpressed : e.pressed with
  | true =>
      rw [hpressed, if_pos rfl] at heven
      exact h.shows.even (h.shows.settleTime hfew hcovers visit) heven
  | false =>
      rw [hpressed, if_neg Bool.false_ne_true] at heven
      have hreleased := h.shows.release e.key e.time
      have hsize : (s.release e.key e.time).board.live.size = s.board.live.size := by
        have hframe := @frame_edge s (S.scene visit) h.shows.sound e
        unfold Stage.edge at hframe
        rw [hpressed, if_neg Bool.false_ne_true] at hframe
        exact hframe.size
      exact h.shows.even (hreleased.settleTime hfew (covers_of_size hcovers hsize) visit) heven

/-- A run of edges is booked. -/
theorem Books.edges (h : Books S L U s a) (hfew : S.all.size ≤ maxScan) (visit : Option Nat)
    {edges : List Edge} (hcovers : ∀ e ∈ edges, S.Covers s.board.live e.time) :
    let l := moments (S.scene visit) edges s
    (∃ L', Books S L' (U ∧ Ledger.EvenRun S l a)
      (edges.foldl (fun s e => s.edge (S.scene visit) e) s) (a.run S l)) ∧
      (areEven (S.scene visit) edges s = true → Ledger.EvenRun S l a) := by
  induction edges generalizing s a L U with
  | nil => exact ⟨⟨L, h.mono And.left⟩, fun _ => trivial⟩
  | cons e edges ih =>
      have hsize := (@frame_edge s (S.scene visit) h.shows.sound e).size
      have hfirst := hcovers e List.mem_cons_self
      obtain ⟨⟨L', hbooks⟩, heven⟩ := ih (h.edge hfew hfirst visit) fun k hk =>
        covers_of_size (hcovers k (List.mem_cons_of_mem _ hk)) hsize
      refine ⟨⟨L', hbooks.mono fun hU => ⟨⟨hU.1, hU.2.1⟩, hU.2.2⟩⟩, fun hall => ?_⟩
      rw [areEven, Bool.and_eq_true] at hall
      exact ⟨h.evenEdge hfew hfirst visit hall.1, heven hall.2⟩

end Books

end Stage

/-! ### Runs of ticks -/

theorem Ledger.run_append (S : Sheet) (l l' : List Moment) (a : Ledger) :
    a.run S (l ++ l') = (a.run S l).run S l' := List.foldl_append

theorem Ledger.evenRun_append (S : Sheet) (l l' : List Moment) (a : Ledger) :
    EvenRun S (l ++ l') a ↔ EvenRun S l a ∧ EvenRun S l' (a.run S l) := by
  induction l generalizing a with
  | nil => exact ⟨fun h => ⟨trivial, h⟩, And.right⟩
  | cons m l ih =>
      cases m with
      | edge e empty => exact (and_congr_right fun _ => ih _).trans and_assoc.symm
      | time t => exact (and_congr_right fun _ => ih _).trans and_assoc.symm

/-- Moments that end with a time have the edges that come before. -/
theorem Moment.edges_append_time (l : List Moment) (t : Float) :
    (l ++ [Moment.time t]).filterMap edge? = l.filterMap edge? := by
  rw [List.filterMap_append]
  exact List.append_nil _

/-- Moments up to some time, and then moments from that time on. -/
theorem Moment.Timed.append {start mid : EReal} {l l' : List Moment} (h : Timed start l)
    (h' : Timed mid l') (hstart : start ≤ mid) (hmid : ∀ m ∈ l, value m.instant ≤ mid) :
    Timed start (l ++ l') := by
  refine ⟨List.pairwise_append.mpr ⟨h.order, h'.order, fun m hm m' hm' => ?_⟩, fun m hm => ?_,
    fun m hm => ?_⟩
  · exact LE.le.trans (hmid m hm) (h'.late m' hm')
  · exact (List.mem_append.mp hm).elim (h.number m) (h'.number m)
  · exact (List.mem_append.mp hm).elim (h.late m) fun hm => hstart.trans (h'.late m hm)

namespace Playback

/-- What judging is told in the judging half of a tick. -/
def tickMoments (p : Playback) : List Moment :=
  Stage.moments p.scene p.judged p.stage ++ [.time p.playhead.time]

/-- What judging is told in some ticks and in the judging half of the next one. -/
def moments : Playback → List Float → List Moment
  | p, [] => p.planAhead.tickMoments
  | p, dt :: dts => p.planAhead.tickMoments ++ moments (p.tick dt) dts

/-- The edges that are judged in some ticks and in the judging half of the next one, each with whether it
is an empty press. -/
def judgedEdges (p : Playback) (dts : List Float) : List (Edge × Bool) :=
  (p.moments dts).filterMap Moment.edge?

/-- In the judging half of a tick, what time brings from one moment to the next is only misses or only
hits. -/
def isEvenTick (p : Playback) : Bool :=
  Stage.areEven p.scene p.judged p.stage &&
    p.staged.isEven (p.staged.settleTime p.scene p.playhead.time)

/-- That holds of some ticks and of the judging half of the next one. -/
def isEven : Playback → List Float → Bool
  | p, [] => p.planAhead.isEvenTick
  | p, dt :: dts => p.planAhead.isEvenTick && isEven (p.tick dt) dts

section Plays

variable {S : Sheet} {c : Chart} {all : List Visit} {queued : List Edge} {keys : Keymap}
  {L L' : Nat → Prop} {last : EReal} {p q : Playback} {x : Desk} {U : Prop} {a : Ledger}

/-- Stamping more live notes keeps the books. -/
theorem Playable.books (hS : Playable S c all) (hm : p.Moves q)
    (hforesees : q.playhead.Foresees c S.speed all) (hbooks : Stage.Books S L' U p.stage a) :
    Stage.Books S L' U q.stage a := by
  obtain ⟨more, hmore, hfresh, hstage⟩ := hm.exists_more
  rw [hstage]
  exact ⟨hbooks.shows.stamp hfresh fun id n hn =>
    stamp_of_foresees hS.stamps hforesees (show q.playhead.live[id]? = some n from hmore ▸ hn),
    hbooks.errs, hbooks.empties, hbooks.streak⟩

theorem Plays.books_planAhead (h : Plays S c all queued keys L last p x) (hS : Playable S c all)
    (hbooks : Stage.Books S L' U p.stage a) : Stage.Books S L' U p.planAhead.stage a :=
  hS.books p.moves_planAhead (h.planAhead hS).1.foresees hbooks

theorem Plays.books_moveTick (h : Plays S c all queued keys L last p x) (hS : Playable S c all)
    (dt : Float) (hbooks : Stage.Books S L' U p.stage a) :
    Stage.Books S L' U (p.moveTick dt).stage a :=
  hS.books (p.moves_moveTick dt) (h.moveTick hS dt).foresees hbooks

/-- The moments of a tick come in order, after what was judged before. -/
theorem Plays.timed_tickMoments (h : Plays S c all queued keys L last p x) :
    Moment.Timed last p.tickMoments := by
  have hsub : p.judged.Sublist queued := h.judged_sublist.trans (List.drop_sublist _ _)
  have hinstants := Stage.instants_moments p.scene p.judged p.stage
  have horder : (Stage.moments p.scene p.judged p.stage).Pairwise Moment.Le := by
    have htimes : (p.judged.map Edge.time).Pairwise fun t u => value t ≤ value u :=
      List.pairwise_map.mpr ((h.order.sublist hsub).imp fun hle => ((le_iff _ _).mp hle).2.2)
    rw [← hinstants, List.pairwise_map] at htimes
    exact htimes
  have hmem : ∀ m ∈ Stage.moments p.scene p.judged p.stage, ∃ e ∈ p.judged, e.time = m.instant := by
    intro m hm
    have htime : m.instant ∈ p.judged.map Edge.time := hinstants ▸ List.mem_map_of_mem hm
    exact List.mem_map.mp htime
  have hnow : Moment.Timed (value p.playhead.time) [.time p.playhead.time] :=
    ⟨List.pairwise_singleton _ _, fun m hm => by
      obtain rfl := List.mem_singleton.mp hm
      exact ⟨h.timely.isNumber, not_bot_of_zero_le h.timely.time⟩, fun m hm => by
      obtain rfl := List.mem_singleton.mp hm
      exact le_rfl⟩
  refine Moment.Timed.append ⟨horder, fun m hm => ?_, fun m hm => ?_⟩ hnow h.clock fun m hm => ?_
  · obtain ⟨e, he, heq⟩ := hmem m hm
    have hfinite := h.finite e (hsub.subset he)
    rw [← heq]
    exact ⟨isNumber_of_isFinite hfinite, not_bot_of_isFinite hfinite⟩
  · obtain ⟨e, he, heq⟩ := hmem m hm
    rw [← heq]
    exact h.waiting e (h.judged_mem he).1
  · obtain ⟨e, he, heq⟩ := hmem m hm
    rw [← heq]
    exact ((le_iff _ _).mp (h.judged_mem he).2).2.2

/-- Judging is told of nothing that comes after the time of the tick. -/
theorem Plays.le_time_tickMoments (h : Plays S c all queued keys L last p x) {m : Moment}
    (hm : m ∈ p.tickMoments) : Moment.Le m (.time p.playhead.time) := by
  rcases List.mem_append.mp hm with hm' | hm'
  · exact (List.pairwise_append.mp h.timed_tickMoments.order).2.2 m hm' _ (List.mem_singleton_self _)
  · rw [List.mem_singleton.mp hm']
    exact Moment.Le.refl _

/-- The judging half of a tick is booked. -/
theorem Plays.books_judgeTick (h : Plays S c all queued keys L last p x) (hS : Playable S c all)
    (hcovers : ∀ t, t ≤ p.playhead.time → S.Covers p.playhead.live t)
    (hbooks : Stage.Books S L' U p.stage a) :
    (∃ L'', Stage.Books S L'' (U ∧ Ledger.EvenRun S p.tickMoments a) p.judgeTick.stage
      (a.run S p.tickMoments)) ∧
      (p.isEvenTick = true → Ledger.EvenRun S p.tickMoments a) := by
  have hscene := h.scene_eq hS
  obtain ⟨⟨L₁, hedges⟩, heven⟩ := hbooks.edges hS.few (p.playhead.current?.map Visit.seq)
    fun e he => hcovers e.time (h.judged_mem he).2
  rw [← hscene] at hedges heven
  have hcovered := Stage.covers_of_size (hcovers _ h.timely.time_le_time) (h.frame_staged hS).size
  have hsettled := hedges.settleTime hS.few hcovered (p.playhead.current?.map Visit.seq)
  have htimed := hedges.shows.settleTime hS.few hcovered (p.playhead.current?.map Visit.seq)
  rw [← hscene] at hsettled htimed
  unfold tickMoments
  rw [stage_judgeTick, Ledger.run_append, Ledger.evenRun_append]
  refine ⟨⟨_, hsettled.mono fun hU => ⟨⟨hU.1, hU.2.1⟩, hU.2.2.1⟩⟩, fun hall => ?_⟩
  rw [isEvenTick, Bool.and_eq_true] at hall
  exact ⟨heven hall.1, hedges.shows.even htimed hall.2, trivial⟩

/-- Any ticks are booked. -/
theorem Plays.books (h : Plays S c all queued keys L last p x) (hS : Playable S c all)
    (hbooks : Stage.Books S L' U p.stage a) (dts : List Float) :
    (∃ L'', Stage.Books S L'' (U ∧ Ledger.EvenRun S (p.moments dts) a)
      (p.played dts).midTick.stage (a.run S (p.moments dts))) ∧
      (p.isEven dts = true → Ledger.EvenRun S (p.moments dts) a) ∧
      Moment.Timed last (p.moments dts) ∧
      ∃ l, p.moments dts = l ++ [.time (p.played dts).playhead.time] := by
  induction dts generalizing p x L last L' U a with
  | nil =>
      obtain ⟨hplanned, hcovers⟩ := h.planAhead hS
      obtain ⟨hbooked, heven⟩ :=
        hplanned.books_judgeTick hS hcovers (h.books_planAhead hS hbooks)
      refine ⟨hbooked, heven, hplanned.timed_tickMoments,
        Stage.moments p.planAhead.scene p.planAhead.judged p.planAhead.stage, ?_⟩
      have hmoments : p.moments [] = p.planAhead.tickMoments := rfl
      have hnow : (p.played []).playhead.time = p.planAhead.playhead.time := p.time_planAhead.symm
      rw [hmoments, tickMoments, hnow]
  | cons dt dts ih =>
      obtain ⟨hplanned, hcovers⟩ := h.planAhead hS
      obtain ⟨⟨L₁, hbooked⟩, heven⟩ :=
        hplanned.books_judgeTick hS hcovers (h.books_planAhead hS hbooks)
      have hjudged := hplanned.judgeTick hS hcovers
      obtain ⟨⟨L₂, hlater⟩, hevenLater, htimed, l, hl⟩ :=
        ih (hjudged.moveTick hS dt) (hjudged.books_moveTick hS dt hbooked)
      have hmoments : p.moments (dt :: dts) = p.planAhead.tickMoments ++ (p.tick dt).moments dts := rfl
      rw [hmoments, Ledger.run_append, Ledger.evenRun_append]
      refine ⟨⟨L₂, hlater.mono fun hU => ⟨⟨hU.1, hU.2.1⟩, hU.2.2⟩⟩, fun hall => ?_, ?_,
        p.planAhead.tickMoments ++ l, ?_⟩
      · rw [isEven, Bool.and_eq_true] at hall
        exact ⟨heven hall.1, hevenLater hall.2⟩
      · exact hplanned.timed_tickMoments.append htimed hplanned.clock fun m hm =>
          hplanned.le_time_tickMoments hm
      · have hrest : (p.tick dt).moments dts =
            l ++ [.time (p.played (dt :: dts)).playhead.time] := hl
        rw [hrest, List.append_assoc]

/-- Playbacks that judge the same edges up to the same time have the same books. -/
theorem Plays.same (h : Plays S c all queued keys L last p x) (hS : Playable S c all)
    (hbooks : Stage.Books S L' U p.stage a) {dts dts' : List Float}
    (htime : (p.played dts).playhead.time = (p.played dts').playhead.time)
    (hedges : p.judgedEdges dts = p.judgedEdges dts') :
    Ledger.Same (Ledger.EvenRun S (p.moments dts) a ∧ Ledger.EvenRun S (p.moments dts') a)
      (a.run S (p.moments dts)) (a.run S (p.moments dts')) := by
  obtain ⟨-, -, htimed, l, hl⟩ := h.books hS hbooks dts
  obtain ⟨-, -, htimed', l', hl'⟩ := h.books hS hbooks dts'
  unfold judgedEdges at hedges
  rw [← htime] at hl'
  rw [hl] at htimed hedges ⊢
  rw [hl'] at htimed' hedges ⊢
  rw [Moment.edges_append_time, Moment.edges_append_time] at hedges
  exact ((Ledger.AgreeFrom.refl S last a).run hbooks.shows.tidy hbooks.shows.tidy htimed htimed'
    hedges).mono fun heven => ⟨trivial, heven⟩

end Plays

/-! ### Loaded playbacks -/

/-- Nothing is booked before the first tick. -/
theorem books_loaded {S : Sheet} {c : Chart} {settings : Settings} {edges : List Edge}
    {L : Nat → Prop} (h : (loaded c settings edges).stage.Shows S L .fresh) :
    Stage.Books S L True (loaded c settings edges).stage .fresh := by
  have hscore : (loaded c settings edges).stage.board.score = .zero := by
    rw [(loaded_eq c settings edges).1]
    rfl
  refine ⟨h, fun k => ?_, ?_, fun _ => ?_⟩
  all_goals
    rw [hscore]
    rfl

/-- Two playbacks of the same edges that have come to the same time, each by its own ticks, have missed
as many notes in the middle of their next ticks: their errors differ by their empty presses only.  If the
same presses hit nothing in both while no note of the visit at hand was near, they have made as many
errors and empty presses, and if besides, at each edge and at each tick, time brought only misses or only
hits, they have the same combos. -/
theorem counters_agree (text : String) (settings : Settings) (edges : List Edge)
    (hvisits : (fullPlan (.ofText text) settings).length < Playhead.maxAhead)
    (hcount : fullCount (.ofText text) settings < maxScan)
    (henter : settings.windows.clamped.enter < 4503599627370496.0) (dts dts' : List Float) :
    let p := loaded (.ofText text) settings edges
    let q := (p.played dts).midTick
    let q' := (p.played dts').midTick
    (p.played dts).playhead.time = (p.played dts').playhead.time →
      q.score.errors + q'.score.emptyPresses = q'.score.errors + q.score.emptyPresses ∧
        (p.judgedEdges dts = p.judgedEdges dts' →
          q.score.errors = q'.score.errors ∧ q.score.emptyPresses = q'.score.emptyPresses ∧
            (p.isEven dts = true → p.isEven dts' = true →
              q.score.combo = q'.score.combo ∧ q.score.maxCombo = q'.score.maxCombo)) := by
  intro p q q' htime
  obtain ⟨S, c, all, queued, keys, hplayable, hplays⟩ :=
    exists_plays text settings edges hvisits hcount henter
  obtain ⟨x, hshows, hshows'⟩ := hplays.exists_shows hplayable dts dts' htime
  have herrors : q.score.errors = x.tally S (fun g => g == .tooLate) + q.score.emptyPresses :=
    hshows.errors
  have herrors' : q'.score.errors = x.tally S (fun g => g == .tooLate) + q'.score.emptyPresses :=
    hshows'.errors
  refine ⟨by omega, fun hedges => ?_⟩
  have hloaded := books_loaded hplays.shows
  obtain ⟨⟨L, hbooks⟩, heven, -⟩ := hplays.books hplayable hloaded dts
  obtain ⟨⟨L', hbooks'⟩, heven', -⟩ := hplays.books hplayable hloaded dts'
  have hsame := hplays.same hplayable hloaded htime hedges
  have hempties : q.score.emptyPresses = q'.score.emptyPresses :=
    hbooks.empties.trans (hsame.empties.trans hbooks'.empties.symm)
  refine ⟨by omega, hempties, fun hall hall' => ?_⟩
  have hstreak : q.score.streak = q'.score.streak :=
    (hbooks.streak ⟨trivial, heven hall⟩).trans
      ((hsame.streak ⟨heven hall, heven' hall'⟩).trans
        (hbooks'.streak ⟨trivial, heven' hall'⟩).symm)
  exact ⟨congrArg Streak.combo hstreak, congrArg Streak.longest hstreak⟩

/-- A tap that is hit and then an empty press count alike no matter whether one tick or two lead to
them. -/
theorem counters_agree_on_tap_and_empty_press :
    let p := loaded (.ofText "# Main\n-1:\n1:[t]\n") .standard [.down ⟨'d'⟩ 0.25, .down ⟨'f'⟩ 0.625]
    let q := (p.played [1.0]).midTick
    let q' := (p.played [0.375, 0.625]).midTick
    (q.score.maxCombo = 1 ∧ q.score.emptyPresses = 1) ∧ q'.score.errors = q.score.errors ∧
      q'.score.emptyPresses = q.score.emptyPresses ∧ q'.score.combo = q.score.combo ∧
        q'.score.maxCombo = q.score.maxCombo := by
  intro p q q'
  obtain ⟨-, hcounted⟩ := counters_agree "# Main\n-1:\n1:[t]\n" .standard
    [.down ⟨'d'⟩ 0.25, .down ⟨'f'⟩ 0.625] (by decide +kernel) (by decide +kernel) (by decide +kernel)
    [0.375, 0.625] [1.0] (by decide +kernel)
  obtain ⟨herrors, hempties, hcombos⟩ := hcounted (by decide +kernel)
  obtain ⟨hcombo, hmax⟩ := hcombos (by decide +kernel) (by decide +kernel)
  exact ⟨by decide +kernel, herrors, hempties, hcombo, hmax⟩

/-! ### What the counters may depend on -/

end Playback

/-- What is read of a text. -/
def Scan.ofText (text : String) : Scan := Scan.start.lines ((Text.lines text.toList).zipIdx 1)

/-- The chart of a text whose rows come in falling order. -/
theorem Chart.ofText_eq (text : String) (ids : List Int)
    (hids : ((Scan.ofText text).closeRow.declared.map Prod.fst ++
      (Scan.ofText text).notes.toList.map Note.row).eraseDups = ids)
    (h : ids.Pairwise fun a b => b ≤ a) :
    Chart.ofText text =
      { notes := (Scan.ofText text).notes
        rows := (ids.map (Row.ofMembers (Scan.ofText text).closeRow.declared
          (Scan.ofText text).notes.toList.zipIdx)).toArray
        metadata := (Scan.ofText text).metadata.toList
        diagnostics := (Scan.ofText text).diagnostics.toList } :=
  Chart.ofParts_eq ids hids h _ _

namespace Playback

/-- Two rows with a tap each. -/
def tapText : String := "# Main\n-1:\n1:[t]\n-2:\n4:[t]\n"

/-- A row with a hold, and one with a tap. -/
def holdText : String := "# Main\n-1:\n0:[1;h]\n-2:\n0:[t]\n"

/-- A row with a hold of `2 ^ 52 + 1` seconds at unit speed, and one with a tap. -/
def longHoldText : String := "# Main\n-1:\n0:[4503599627370497;h]\n-2:\n0:[t]\n"

/-- Combo, longest combo, errors and empty presses after some ticks and the judging half of the next
one. -/
def counters (p : Playback) (dts : List Float) : Nat × Nat × Nat × Nat :=
  let score := (p.played dts).midTick.score
  (score.combo, score.maxCombo, score.errors, score.emptyPresses)

/-- The counters do depend on the ticks.  A tap is near for a second press when short ticks handle it, but
its row is over when a longer one does.  A hold that is over before a tap is missed comes after it in
a tick that brings both.  And with windows of `2 ^ 52` seconds a press that one tick handles hits the
distant tap, which it does not hit when shorter ticks handle it. -/
theorem counters_differ :
    let c := Chart.ofText tapText
    let c' := Chart.ofText holdText
    let c'' := Chart.ofText longHoldText
    let wide := { wideSettings with keymap := .standard }
    let p := loaded c .standard [.down ⟨'d'⟩ 0.25, .down ⟨'f'⟩ 0.3125]
    let p' := loaded c' .standard [.down ⟨'d'⟩ 0.0]
    let p'' := loaded c'' wide [.down ⟨'d'⟩ 0.0, .down ⟨'f'⟩ 0.5]
    ((fullPlan c .standard).length < Playhead.maxAhead ∧ fullCount c .standard < maxScan ∧
      (p.played [0.375, 0.625]).playhead.time = (p.played [1.0]).playhead.time ∧
      p.counters [0.375, 0.625] = (1, 1, 0, 0) ∧ p.counters [1.0] = (0, 1, 1, 1)) ∧
    ((fullPlan c' .standard).length < Playhead.maxAhead ∧ fullCount c' .standard < maxScan ∧
      (p'.played [0.25, 0.25]).playhead.time = (p'.played [0.5]).playhead.time ∧
      p'.judgedEdges [0.25, 0.25] = p'.judgedEdges [0.5] ∧
      p'.counters [0.25, 0.25] = (0, 2, 1, 0) ∧ p'.counters [0.5] = (1, 1, 1, 0)) ∧
    (fullPlan c'' wide).length < Playhead.maxAhead ∧ fullCount c'' wide < maxScan ∧
      (p''.played [0.5, 0.5]).playhead.time = (p''.played [1.0]).playhead.time ∧
      p''.judgedEdges [0.5, 0.5] = p''.judgedEdges [1.0] ∧
      p''.isEven [0.5, 0.5] = true ∧ p''.isEven [1.0] = true ∧
      p''.counters [0.5, 0.5] = (1, 1, 0, 0) ∧ p''.counters [1.0] = (2, 2, 0, 0) := by
  rw [Chart.ofText_eq tapText [-1, -2] (by decide +kernel) (by decide),
    Chart.ofText_eq holdText [-1, -2] (by decide +kernel) (by decide),
    Chart.ofText_eq longHoldText [-1, -2] (by decide +kernel) (by decide)]
  decide +kernel

end Playback

end RhythmChart
