import RhythmChart.Proofs.Counters
import RhythmChart.Proofs.HoldVerdict

/-! # Errors of keys

A score holds the time of the last error of each key.  Two things write it: an empty press that is charged,
at the time of the press, and a hold that is missed, at the time of the press of another key or at the time
at which its grace period was over.  A hold is found to be missed late, but no error that is written comes
before one that is there already.

Main statements.

* `Stage.Current`: no error comes after the present, nor after the release of a hold that waits for its key;
* `Stage.Follows`: the last error of a key does not move back, and a key that drives a hold drives it on or
  has an error when it is missed;
* `Stage.follows_change`: a change of the holds that is `Punctual` is like that;
* `Stage.follows_settleTime`, `Stage.follows_ready`, `Stage.follows_release`, `Stage.follows_hit`: and so are
  the parts of judging, which keep `Stage.Current`;
* `Stage.charging_hit`: a press that resumes no hold leaves errors alone, or is charged. -/

namespace RhythmChart

open Judge Holds Binary64

namespace Stage

variable {notes : Array Note} {scene : Scene} {keymap : Keymap} {keyboard : Keyboard}
  {s s' s'' : Stage} {now time : Float} {k : Key} {id : Nat}

/-! ### Errors of keys -/

/-- The time of the last error of a key. -/
def error? (s : Stage) (k : Key) : Option Float := s.board.score.lastError.lookup k

/-- A key had an error at `time` or later. -/
def Erred (s : Stage) (k : Key) (time : Float) : Prop := ∃ last, s.error? k = some last ∧ time ≤ last

/-- A key drives the hold of a live note. -/
def Drives (s : Stage) (k : Key) (id : Nat) : Prop :=
  ∃ h ∈ s.holds.holds, h.live = id ∧ h.phase.key? = some k

/-- The hold of a live note is over, and if it was missed, the key had an error then or later. -/
def Settled (s : Stage) (k : Key) (id : Nat) : Prop :=
  ∃ g time, s.board.Gave id g time ∧ (g.isMiss = true → s.Erred k time)

/-- What judging does to errors and to holds that are driven. -/
structure Follows (s s' : Stage) : Prop where
  erred : ∀ k time, s.Erred k time → s'.Erred k time
  gave : ∀ id g time, s.board.Gave id g time → s'.board.Gave id g time
  driven : ∀ k id, s.Drives k id → s'.Drives k id ∨ s'.Settled k id

theorem Follows.refl (s : Stage) : Follows s s := ⟨fun _ _ h => h, fun _ _ _ h => h, fun _ _ h => .inl h⟩

theorem Follows.settled (h : Follows s s') (hs : s.Settled k id) : s'.Settled k id := by
  obtain ⟨g, time, hgave, herred⟩ := hs
  exact ⟨g, time, h.gave id g time hgave, fun hmiss => h.erred k time (herred hmiss)⟩

theorem Follows.trans (h : Follows s s') (h' : Follows s' s'') : Follows s s'' where
  erred k time herred := h'.erred k time (h.erred k time herred)
  gave id g time hgave := h'.gave id g time (h.gave id g time hgave)
  driven k id hdrives := by
    rcases h.driven k id hdrives with hdrives | hsettled
    · exact h'.driven k id hdrives
    · exact .inr (h'.settled hsettled)

/-- A step that changes no error, keeps what is announced, and leaves the keys of the holds alone. -/
theorem Follows.of_keeps (hs : s.Sound notes) (hs' : s'.Sound notes) (hk : s.board.Keeps s'.board)
    (herrors : ∀ k, s'.error? k = s.error? k)
    (hholds : ∀ h ∈ s.holds.holds, h.phase.isEngaged = true →
      ∃ h' ∈ s'.holds.holds, h'.live = h.live ∧ h'.phase.key? = h.phase.key?) : Follows s s' where
  erred k time := by
    rintro ⟨last, hlast, hle⟩
    exact ⟨last, (herrors k).trans hlast, hle⟩
  gave id g time hgave := hgave.of_keeps hk hs.tallied hs'.tallied
  driven k id := by
    rintro ⟨h, hh, hlive, hkey⟩
    obtain ⟨h', hh', hlive', hkey'⟩ := hholds h hh (Option.isSome_of_eq_some hkey)
    exact .inl ⟨h', hh', hlive'.trans hlive, hkey'.trans hkey⟩

/-- No error comes after `now`, nor after the release of a hold that waits for its key. -/
structure Current (now : Float) (s : Stage) : Prop where
  past : ∀ k last, s.error? k = some last → last ≤ now
  waiting : ∀ h ∈ s.holds.holds, ∀ k g released last, h.phase = .guarded k g released →
    s.error? k = some last → last ≤ released

theorem Current.later (h : s.Current now) (hle : now ≤ time) : s.Current time :=
  ⟨fun k last hlast => le_of_le_of_le (h.past k last hlast) hle, h.waiting⟩

/-! ### Changes of the holds -/

section Change

variable {fate : Board → Hold → HoldFate}

/-- No two holds are driven by one key. -/
theorem alone (hapart : s.holds.holds.Pairwise Differ) :
    ∀ h ∈ s.holds.holds, ∀ h' ∈ s.holds.holds, ∀ k, h.phase.key? = some k →
      h'.phase.key? = some k → h.live = h'.live := by
  intro h hh h' hh' k hkey hkey'
  by_contra hne
  exact hapart.forall hh hh' (fun heq => hne (congrArg Hold.live heq)) k hkey hkey'

theorem charges_change (hs : s.Sound notes) (hapart : s.holds.holds.Pairwise Differ) (hf : Lawful fate)
    (hblind : Blind fate) : Charges fate s.holds.holds s.board (s.change fate).board :=
  charges_sweep hf hblind hs.registered.once hs.openNotes (alone hapart)

/-- After a change, the last error of a key is what it was, or the fault of a hold that the key drove. -/
theorem error?_change (hs : s.Sound notes) (hapart : s.holds.holds.Pairwise Differ)
    (hf : Lawful fate) (hblind : Blind fate) (k : Key) :
    (s.change fate).error? k = s.error? k ∨ ∃ h ∈ s.holds.holds, ∃ missed, h.phase.key? = some k ∧
      (fate .blank h).fault? = some missed ∧ (s.change fate).error? k = some missed := by
  have hcharges := charges_change hs hapart hf hblind
  by_cases hdrives : ∃ h ∈ s.holds.holds, h.phase.key? = some k
  · obtain ⟨h, hh, hkey⟩ := hdrives
    have herror : (s.change fate).error? k = (fate .blank h).fault?.or (s.error? k) :=
      hcharges.blamed h hh k hkey
    cases hfault : (fate .blank h).fault? with
    | none => exact .inl (by rw [herror, hfault, Option.none_or])
    | some missed => exact .inr ⟨h, hh, missed, hkey, hfault, by rw [herror, hfault, Option.some_or]⟩
  · exact .inl (hcharges.spared k fun h hh hkey => hdrives ⟨h, hh, hkey⟩)

/-- A change that is made at `now`: the misses that it finds come neither after `now` nor before the last
error of their key, and no hold began to wait for its key after `now`. -/
structure Punctual (now : Float) (s : Stage) (fate : Board → Hold → HoldFate) : Prop where
  fault : ∀ h ∈ s.holds.holds, ∀ k time, h.phase.key? = some k → (fate .blank h).fault? = some time →
    time ≤ now ∧ ∀ last, s.error? k = some last → last ≤ time
  waiting : ∀ h ∈ s.holds.holds, ∀ h' k g released, fate .blank h = .goOn h' →
    h'.phase = .guarded k g released → h.phase = .guarded k g released ∨ released = now

theorem follows_change (hs : s.Sound notes) (hapart : s.holds.holds.Pairwise Differ)
    (hf : Lawful fate) (hblind : Blind fate) (hp : s.Punctual now fate) :
    Follows s (s.change fate) := by
  have herred : ∀ k time, s.Erred k time → (s.change fate).Erred k time := by
    rintro k time ⟨last, hlast, hle⟩
    rcases error?_change hs hapart hf hblind k with hsame | ⟨h, hh, missed, hkey, hfault, herror⟩
    · exact ⟨last, hsame.trans hlast, hle⟩
    · exact ⟨missed, herror, le_of_le_of_le hle ((hp.fault h hh k missed hkey hfault).2 last hlast)⟩
  refine
    { erred := herred
      gave := fun id g time hgave =>
        hgave.of_keeps (keeps_board_change hs hf) hs.tallied (hs.change hf).tallied
      driven := ?_ }
  rintro k id ⟨h, hh, hlive, hkey⟩
  obtain ⟨hgo, hgrade⟩ := change_engaged hs hf hblind hh (Option.isSome_of_eq_some hkey)
  cases hfate : fate .blank h with
  | goOn h' =>
      have hc := hf.continues hfate
      exact .inl ⟨h', hgo h' hfate, hc.live.trans hlive, hc.key.trans hkey⟩
  | grade g time =>
      refine .inr ⟨g, time, hlive ▸ hgrade g time hfate, fun hmiss => ?_⟩
      have hfault : (fate .blank h).fault? = some time := by
        rw [hfate]
        exact if_pos hmiss
      obtain ⟨hnumber, -, -⟩ := (le_iff _ _).mp (hp.fault h hh k time hkey hfault).1
      refine ⟨time, ?_, le_self hnumber⟩
      exact ((charges_change hs hapart hf hblind).blamed h hh k hkey).trans (by rw [hfault, Option.some_or])
  | drop =>
      have hidle := hf.idle hfate
      rw [HoldPhase.isEngaged, hkey] at hidle
      cases hidle

theorem Current.change (hc : s.Current now) (hs : s.Sound notes)
    (hapart : s.holds.holds.Pairwise Differ) (hf : Lawful fate) (hblind : Blind fate)
    (hp : s.Punctual now fate) : (s.change fate).Current now := by
  refine ⟨fun k last hlast => ?_, fun h' hh' k g released last hphase hlast => ?_⟩
  · rcases error?_change hs hapart hf hblind k with hsame | ⟨h, hh, missed, hkey, hfault, herror⟩
    · exact hc.past k last (hsame.symm.trans hlast)
    · obtain rfl := Option.some.inj (herror.symm.trans hlast)
      exact (hp.fault h hh k missed hkey hfault).1
  · -- A hold that goes on found no fault.
    obtain ⟨h, hh, b, hgo⟩ := origin_sweep hh'
    have hkey : h.phase.key? = some k := by
      rw [← (hf.continues hgo).key, hphase]
      rfl
    rw [hblind b h (Option.isSome_of_eq_some hkey)] at hgo
    have hsame : (s.change fate).error? k = s.error? k :=
      ((charges_change hs hapart hf hblind).blamed h hh k hkey).trans (by rw [hgo]; rfl)
    rw [hsame] at hlast
    rcases hp.waiting h hh h' k g released hgo hphase with hbefore | rfl
    · exact hc.waiting h hh k g released last hbefore hlast
    · exact hc.past k last hlast

/-- Time makes misses at the ends of grace periods. -/
theorem Current.punctual_timeFate (hc : s.Current now) {w : Windows}
    (hgrace : 0.0 ≤ w.holdGrace) : s.Punctual now (timeFate w now) := by
  refine ⟨fun h hh k time hkey hfault => ?_, fun h hh h' k g released hgo hphase => ?_⟩
  · unfold timeFate at hfault
    cases hphase : h.phase with
    | idle =>
        rw [hphase] at hkey
        cases hkey
    | holding k' g =>
        simp only [hphase] at hfault
        split_ifs at hfault <;> cases hfault
    | guarded k' g released =>
        rw [hphase] at hkey
        obtain rfl : k' = k := Option.some.inj hkey
        simp only [hphase] at hfault
        split_ifs at hfault with hover hlost
        · cases hfault
        · obtain rfl : released + w.holdGrace = time := Option.some.inj hfault
          have hexpired : released + w.holdGrace ≤ now := add_le_of_lt_sub hlost
          refine ⟨hexpired, fun last hlast => ?_⟩
          exact le_of_le_of_le (hc.waiting h hh _ g released last hphase hlast)
            (le_add_of_isNumber ((le_iff _ _).mp hexpired).1 hgrace)
        · cases hfault
  · rw [← eq_of_timeFate hgo]
    exact .inl hphase

/-- Another key makes misses at its own time. -/
theorem Current.punctual_crossFate (hc : s.Current now) (hnow : IsNumber now) (key : Key) :
    s.Punctual now (crossFate key now) := by
  refine ⟨fun h hh k time hkey hfault => ?_, fun h hh h' k g released hgo hphase => ?_⟩
  · unfold crossFate at hfault
    cases hphase : h.phase with
    | idle => simp only [hphase] at hfault; cases hfault
    | holding k' g => simp only [hphase] at hfault; cases hfault
    | guarded k' g released =>
        simp only [hphase] at hfault
        split_ifs at hfault
        · cases hfault
        · obtain rfl : now = time := Option.some.inj hfault
          exact ⟨le_self hnow, fun last hlast => hc.past k last hlast⟩
  · rw [← (eq_of_crossFate hgo).1]
    exact .inl hphase

/-- A release makes no misses. -/
theorem punctual_releaseFate (s : Stage) (w : Windows) (key : Key) (now : Float) :
    s.Punctual now (releaseFate w key now) := by
  refine ⟨fun h hh k time hkey hfault => ?_, fun h hh h' k g released hgo hphase => ?_⟩
  · unfold releaseFate at hfault
    split at hfault
    · split_ifs at hfault <;> cases hfault
    · cases hfault
  · rcases eq_of_releaseFate hgo with ⟨rfl, -⟩ | ⟨g', -, rfl⟩
    · exact .inl hphase
    · cases hphase
      exact .inr rfl

end Change

/-! ### The parts of judging -/

theorem error?_maintain (s : Stage) (scene : Scene) (now : Float) (k : Key) :
    (s.maintain scene now).error? k = s.error? k :=
  congrArg (List.lookup k) (s.pays_maintain scene now).2

theorem follows_maintain (hs : s.Sound scene.notes) (now : Float) : Follows s (s.maintain scene now) := by
  obtain ⟨ids, hgrows⟩ := grows_maintain hs now
  exact .of_keeps hs (hs.maintain now) (keeps_maintain hs now) (error?_maintain s scene now)
    fun h hh _ => ⟨h, hgrows.subset hh, rfl, rfl⟩

theorem Current.maintain (hc : s.Current time) (hs : s.Sound scene.notes) (now : Float) :
    (s.maintain scene now).Current time := by
  refine ⟨fun k last hlast => ?_, fun h hh k g released last hphase hlast => ?_⟩
  · rw [error?_maintain] at hlast
    exact hc.past k last hlast
  · rw [error?_maintain] at hlast
    obtain ⟨ids, hgrows⟩ := grows_maintain hs now
    have he : h.phase.isEngaged = true := by
      rw [hphase]
      rfl
    exact hc.waiting h (hgrows.mem_of_isEngaged hh he) k g released last hphase hlast

/-- Time up to the present. -/
theorem follows_settleTime (hs : s.Sound scene.notes) (hk : Keyed keymap keyboard s.holds.holds)
    (hc : s.Current now) :
    Follows s (s.settleTime scene now) ∧ (s.settleTime scene now).Current now := by
  have hs' := hs.maintain now
  have hapart := (keyed_maintain hs hk now).apart
  have hc' := hc.maintain hs now
  have hgrace : 0.0 ≤ (s.maintain scene now).holds.windows.holdGrace := by
    rw [hs'.agree]
    exact hs'.ordered.zero_le_holdGrace
  have hf := lawful_timeFate (s.maintain scene now).holds.windows now
  have hblind := blind_timeFate (s.maintain scene now).holds.windows now
  have hp := hc'.punctual_timeFate hgrace
  exact ⟨(follows_maintain hs now).trans (follows_change hs' hapart hf hblind hp),
    hc'.change hs' hapart hf hblind hp⟩

/-- A key that comes back. -/
theorem follows_resume (hs : s.Sound notes) (key : Key) (time : Float) :
    Follows s { s with holds := (s.holds.resume key time).2 } := by
  refine .of_keeps hs (hs.resume key time) (.refl _) (fun _ => rfl) fun h hh _ => ?_
  rcases mem_or_mem_modifyFirst (canResume s.holds.windows key time) resumed hh with hin | ⟨hin, -⟩
  · exact ⟨h, hin, rfl, rfl⟩
  · have hc := continues_resumed h
    exact ⟨resumed h, hin, hc.live, hc.key⟩

theorem Current.resume (hc : s.Current now) (key : Key) (time : Float) :
    ({ s with holds := (s.holds.resume key time).2 } : Stage).Current now := by
  refine ⟨hc.past, fun h hh k g released last hphase hlast => ?_⟩
  rcases mem_modifyFirst hh with hh | ⟨y, hy, htest, rfl⟩
  · exact hc.waiting h hh k g released last hphase hlast
  · -- The hold does not wait any more.
    obtain ⟨g', released', hy⟩ := guarded_of_canResume htest
    rw [resumed, hy] at hphase
    cases hphase

/-- Time and keys up to a press. -/
theorem follows_ready (hs : s.Sound scene.notes) (hk : Keyed keymap keyboard s.holds.holds)
    (hc : s.Current time) (hnumber : IsNumber time) (key : Key) :
    Follows s (s.ready scene key time).2 ∧ (s.ready scene key time).2.Current time := by
  obtain ⟨hsettled, hc₁⟩ := follows_settleTime hs hk hc
  have hs₁ := hs.settleTime time
  have hk₁ := keyed_settleTime hs hk time
  have hs₂ := hs₁.resume key time
  have hc₂ := hc₁.resume key time
  have hapart := apart_resume hk₁ key time
  have hf := lawful_crossFate key time
  have hp := hc₂.punctual_crossFate hnumber key
  exact ⟨(hsettled.trans (follows_resume hs₁ key time)).trans
      (follows_change hs₂ hapart hf (blind_crossFate key time) hp),
    hc₂.change hs₂ hapart hf (blind_crossFate key time) hp⟩

/-- A release. -/
theorem follows_release (hs : s.Sound notes) (hk : Keyed keymap keyboard s.holds.holds)
    (hc : s.Current time) (key : Key) :
    Follows s (s.release key time) ∧ (s.release key time).Current time := by
  have hgrace : 0.0 ≤ s.holds.windows.holdGrace := by
    rw [hs.agree]
    exact hs.ordered.zero_le_holdGrace
  have hf := lawful_timeFate s.holds.windows time
  have hblind := blind_timeFate s.holds.windows time
  have hp := hc.punctual_timeFate hgrace
  have hs₁ := hs.change hf
  have hc₁ := hc.change hs hk.apart hf hblind hp
  have hapart := (keyed_updateHolds hk time).apart
  have hf₁ := lawful_releaseFate s.holds.windows key time
  have hp₁ := punctual_releaseFate (s.updateHolds time) s.holds.windows key time
  exact ⟨(follows_change hs hk.apart hf hblind hp).trans
      (follows_change hs₁ hapart hf₁ (blind_releaseFate _ key time) hp₁),
    hc₁.change hs₁ hapart hf₁ (blind_releaseFate _ key time) hp₁⟩

/-! ### Presses that hit nothing -/

/-- What a press that resumes no hold does to errors: it leaves them alone, or it is charged, and then no
note of the visit at hand is near. -/
inductive Charging (scene : Scene) (key : Key) (time : Float) (s s' : Stage) : Prop where
  | spared (herrors : s'.board.score.lastError = s.board.score.lastError)
      (hempties : s'.board.score.emptyPresses = s.board.score.emptyPresses) : Charging scene key time s s'
  | charged (hfar : s.isNear scene time = false)
      (hdue : s.board.score.charges key time s.judge.windows.cooldown = true)
      (herrors : s'.board.score.lastError = Assoc.put key time s.board.score.lastError)
      (hempties : s'.board.score.emptyPresses = s.board.score.emptyPresses + 1) :
      Charging scene key time s s'

theorem charging_chargeEmpty (s : Stage) (scene : Scene) (key : Key) (time : Float) :
    Charging scene key time s (s.chargeEmpty scene key time) := by
  unfold Stage.chargeEmpty
  split_ifs with hnear
  · exact .spared rfl rfl
  · dsimp only [Board.mapScore, Score.emptyPress]
    cases hdue : s.board.score.charges key time s.judge.windows.cooldown with
    | true => exact .charged (Bool.eq_false_iff.mpr hnear) hdue rfl rfl
    | false => exact .spared rfl rfl

theorem charging_hit (hs : s.Sound scene.notes) (key : Key) (time : Float) :
    Charging scene key time s (s.hit scene key time) := by
  have hstruck : ∀ {s' : Stage} {g : Grade}, Score.Struck g s.board.score s'.board.score →
      Charging scene key time s s' := fun h => .spared h.lastError h.empties
  have hlanded := hit_cases hs.registered scene key time
  generalize s.hit scene key time = s' at hlanded ⊢
  cases hlanded with
  | empty => exact charging_chargeEmpty s scene key time
  | single => exact hstruck (struck_pressSingle _ _ _ _ _)
  | layer => exact hstruck (struck_pressLayer _ _ _ _ _ _)
  | refused id n note hr _ _ _ t =>
      -- Holds have no part in the charge.
      cases charging_chargeEmpty ⟨s.judge, t, s.board⟩ scene key time with
      | spared herrors hempties => exact .spared herrors hempties
      | charged hfar hdue herrors hempties => exact .charged hfar hdue herrors hempties
  | begun => exact hstruck (Score.struck_applyGrade _ _)

/-- A press that judges a note or begins a hold is not counted as an empty one. -/
theorem empties_hit_of_strikes (hs : s.Sound scene.notes) {key : Key}
    (h : s.strikes scene key time = true) :
    (s.hit scene key time).board.score.emptyPresses = s.board.score.emptyPresses := by
  have hlanded := hit_cases hs.registered scene key time
  generalize s.hit scene key time = s' at hlanded ⊢
  cases hlanded with
  | empty hpress =>
      rw [strikes, hpress] at h
      cases h
  | single => exact (struck_pressSingle _ _ _ _ _).empties
  | layer => exact (struck_pressLayer _ _ _ _ _ _).empties
  | refused id n note hr _ _ hpress t _ _ hstart =>
      rw [strikes, hpress] at h
      dsimp only at h
      rw [hstart] at h
      cases h
  | begun => exact Score.emptyPresses_applyGrade _ _

/-- After a press that resumes no hold, the last error of a key is what it was, or the press. -/
theorem error?_hit (hs : s.Sound scene.notes) (key : Key) (time : Float) (k : Key) :
    (s.hit scene key time).error? k = s.error? k ∨
      k = key ∧ (s.hit scene key time).error? k = some time := by
  cases charging_hit hs key time with
  | spared herrors => exact .inl (congrArg (List.lookup k) herrors)
  | charged _ _ herrors =>
      by_cases hk : k = key
      · subst hk
        exact .inr ⟨rfl, (congrArg (List.lookup k) herrors).trans (Assoc.lookup_put_self _ _ _)⟩
      · exact .inl ((congrArg (List.lookup k) herrors).trans (Assoc.lookup_put_of_ne hk _ _))

/-- A press that resumes no hold, by a key that drives none. -/
theorem follows_hit (hs : s.Sound scene.notes) (hc : s.Current time) (hnumber : IsNumber time)
    {key : Key} (hfree : ∀ h ∈ s.holds.holds, h.phase.key? ≠ some key) :
    Follows s (s.hit scene key time) ∧ (s.hit scene key time).Current time := by
  obtain ⟨hkeeps, hstay⟩ := keeps_board_hit hs key time
  have hs' := hs.hit key time
  -- A hold that waits for its key was there before the press, and the key is another one.
  have hwaits : ∀ h ∈ (s.hit scene key time).holds.holds, ∀ k g released,
      h.phase = .guarded k g released → h ∈ s.holds.holds ∧ k ≠ key := by
    intro h hh k g released hphase
    have he : h.phase.isEngaged = true := by rw [hphase]; rfl
    rcases begun_of_hit hs key time hh he with hin | ⟨-, -, g', -, -, -, -, hbegun, -⟩
    · refine ⟨hin, ?_⟩
      rintro rfl
      exact hfree h hin (by rw [hphase]; rfl)
    · rw [hbegun] at hphase
      cases hphase
  refine ⟨⟨?_, ?_, ?_⟩, ⟨?_, ?_⟩⟩
  · rintro k t ⟨last, hlast, hle⟩
    rcases error?_hit hs key time k with hsame | ⟨-, herror⟩
    · exact ⟨last, hsame.trans hlast, hle⟩
    · exact ⟨time, herror, le_of_le_of_le hle (hc.past k last hlast)⟩
  · exact fun id g t hgave => hgave.of_keeps hkeeps hs.tallied hs'.tallied
  · rintro k id ⟨h, hh, hlive, hkey⟩
    exact .inl ⟨h, hstay h hh (Option.isSome_of_eq_some hkey), hlive, hkey⟩
  · intro k last hlast
    rcases error?_hit hs key time k with hsame | ⟨-, herror⟩
    · exact hc.past k last (hsame.symm.trans hlast)
    · obtain rfl := Option.some.inj (herror.symm.trans hlast)
      exact le_self hnumber
  · intro h hh k g released last hphase hlast
    obtain ⟨hin, hne⟩ := hwaits h hh k g released hphase
    rcases error?_hit hs key time k with hsame | ⟨hkey, -⟩
    · exact hc.waiting h hin k g released last hphase (hsame.symm.trans hlast)
    · exact absurd hkey hne

/-! ### Empty presses are counted by presses alone -/

theorem empties_change (hs : s.Sound notes) (hapart : s.holds.holds.Pairwise Differ)
    {fate : Board → Hold → HoldFate} (hf : Lawful fate) (hblind : Blind fate) :
    (s.change fate).board.score.emptyPresses = s.board.score.emptyPresses := by
  obtain ⟨gs, hpays⟩ := (charges_change hs hapart hf hblind).pays
  exact hpays.empties

theorem empties_settleTime (hs : s.Sound scene.notes) (hk : Keyed keymap keyboard s.holds.holds)
    (now : Float) : (s.settleTime scene now).board.score.emptyPresses = s.board.score.emptyPresses := by
  obtain ⟨⟨gs, hpays⟩, -⟩ := s.pays_maintain scene now
  exact (empties_change (hs.maintain now) (keyed_maintain hs hk now).apart (lawful_timeFate _ now)
    (blind_timeFate _ now)).trans hpays.empties

theorem empties_ready (hs : s.Sound scene.notes) (hk : Keyed keymap keyboard s.holds.holds) (key : Key)
    (time : Float) :
    (s.ready scene key time).2.board.score.emptyPresses = s.board.score.emptyPresses :=
  (empties_change ((hs.settleTime time).resume key time) (apart_resume (keyed_settleTime hs hk time) key time)
    (lawful_crossFate key time) (blind_crossFate key time)).trans (empties_settleTime hs hk time)

theorem empties_release (hs : s.Sound notes) (hk : Keyed keymap keyboard s.holds.holds) (key : Key)
    (time : Float) : (s.release key time).board.score.emptyPresses = s.board.score.emptyPresses := by
  have hf := lawful_timeFate s.holds.windows time
  exact (empties_change (hs.change hf) (keyed_updateHolds hk time).apart (lawful_releaseFate _ key time)
    (blind_releaseFate _ key time)).trans (empties_change hs hk.apart hf (blind_timeFate _ time))

end Stage

end RhythmChart
