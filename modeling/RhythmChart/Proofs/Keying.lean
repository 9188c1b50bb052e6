import RhythmChart.Chart.Scan
import RhythmChart.Proofs.Edges

/-! # Holds and their keys

A hold that has begun is driven by a judged key.  The key is down while the hold is `holding` and up
while it is `guarded`, no key drives two holds, and so a press that finds a queued hold begins it.

Main statements.

* `Holds.Keyed`: how the tracked holds fit the keyboard;
* `Stage.keyed_edge`: judging an edge keeps that, and moves on to the keyboard after the edge;
* `Stage.start_of_reached`: a press by a free key begins the hold that it finds;
* `Playback.driven_after`: after any inputs, holds, keys and queue fit together, and every press of the
  next tick that finds a hold begins it. -/

namespace RhythmChart

open Judge Holds Binary64

/-! ### Keyboards -/

namespace Keyboard

variable {b : Keyboard}

theorem isDown_iff {k : Key} : b.isDown k = true ↔ k ∈ b.held := by
  rw [isDown, List.contains_iff_mem]

/-- The keys that are down stay distinct. -/
theorem nodup_apply (h : b.held.Nodup) (e : Edge) : (b.apply e).held.Nodup := by
  unfold apply
  split_ifs with haccept hpressed
  · refine List.nodup_cons.mpr ⟨fun hmem => ?_, h⟩
    rw [accepts, isDown_iff.mpr hmem, hpressed] at haccept
    cases haccept
  · exact h.erase _
  · exact h

/-- After an edge its key is as the edge says, and the other keys are as before. -/
theorem isDown_apply (h : b.held.Nodup) (e : Edge) (k : Key) :
    (b.apply e).isDown k = if k = e.key then e.pressed else b.isDown k := by
  unfold apply
  split_ifs with haccept hpressed hkey hkey hkey
  · rw [hkey, hpressed]
    exact isDown_iff.mpr List.mem_cons_self
  · rw [Bool.eq_iff_iff, isDown_iff, isDown_iff, List.mem_cons, or_iff_right hkey]
  · rw [hkey, Bool.eq_iff_iff, isDown_iff]
    exact iff_of_false h.not_mem_erase (by simpa using hpressed)
  · rw [Bool.eq_iff_iff, isDown_iff, isDown_iff]
    exact List.mem_erase_of_ne hkey
  · -- A refused edge says what is the case already.
    rw [hkey]
    simpa [accepts] using haccept
  · rfl

end Keyboard

/-! ### Sweeping -/

namespace Holds

/-- No key drives both holds. -/
def Differ (a b : Hold) : Prop := ∀ k, a.phase.key? = some k → b.phase.key? ≠ some k

theorem Differ.symm {a b : Hold} (h : Differ a b) : Differ b a := fun k hb ha => h k ha hb

instance : Std.Symm Differ := ⟨fun _ _ => Differ.symm⟩

/-- Whether holds differ depends on their keys only. -/
theorem Differ.congr {a a' b b' : Hold} (h : Differ a b) (ha : a'.phase.key? = a.phase.key?)
    (hb : b'.phase.key? = b.phase.key?) : Differ a' b' := by
  unfold Differ
  rw [ha, hb]
  exact h

theorem pairwise_sweep {fate : Board → Hold → HoldFate} (hf : Lawful fate) {hs : List Hold}
    (h : hs.Pairwise Differ) (b : Board) : (sweep fate hs b).1.Pairwise Differ := by
  induction hs generalizing b with
  | nil => exact List.Pairwise.nil
  | cons first rest ih =>
      obtain ⟨hfirst, hrest⟩ := List.pairwise_cons.mp h
      unfold sweep
      cases hfate : fate b first with
      | goOn first' =>
          refine List.pairwise_cons.mpr ⟨fun k' hk' => ?_, ih hrest b⟩
          obtain ⟨k, hk, b', hgo⟩ := origin_sweep hk'
          exact (hfirst k hk).congr (hf.continues hfate).key (hf.continues hgo).key
      | grade g time => exact ih hrest _
      | drop => exact ih hrest _

theorem pairwise_modifyFirst {test : Hold → Bool} {f : Hold → Hold} {hs : List Hold}
    (h : hs.Pairwise Differ)
    (hf : ∀ a ∈ hs, ∀ b ∈ hs, test b = true → Differ a b → Differ a (f b)) :
    (modifyFirst test f hs).Pairwise Differ := by
  induction hs with
  | nil => exact List.Pairwise.nil
  | cons first rest ih =>
      obtain ⟨hfirst, hrest⟩ := List.pairwise_cons.mp h
      unfold modifyFirst
      split_ifs with htest
      · refine List.pairwise_cons.mpr ⟨fun k hk => ?_, hrest⟩
        exact (hf k (List.mem_cons_of_mem _ hk) first List.mem_cons_self htest (hfirst k hk).symm).symm
      · refine List.pairwise_cons.mpr ⟨fun k hk => ?_, ih hrest fun a ha b hb =>
          hf a (List.mem_cons_of_mem _ ha) b (List.mem_cons_of_mem _ hb)⟩
        rcases mem_modifyFirst hk with hk | ⟨k', hk', htest', rfl⟩
        · exact hfirst k hk
        · exact hf first List.mem_cons_self k' (List.mem_cons_of_mem _ hk') htest' (hfirst k' hk')

/-! ### Holds on a keyboard -/

/-- Each engaged hold is driven by a judged key of its own, which is down while the hold is `holding`
and has been up since some time while it is `guarded`. -/
structure Keyed (keymap : Keymap) (keyboard : Keyboard) (hs : List Hold) : Prop where
  once : keyboard.held.Nodup
  judged : ∀ h ∈ hs, ∀ k, h.phase.key? = some k → keymap.isJudge k = true
  apart : hs.Pairwise Differ
  down : ∀ h ∈ hs, ∀ k g, h.phase = .holding k g → keyboard.isDown k = true
  up : ∀ h ∈ hs, ∀ k g r, h.phase = .guarded k g r →
    keyboard.isDown k = false ∧ r.isFinite = true

section Keyed

variable {keymap : Keymap} {keyboard : Keyboard} {hs : List Hold}

theorem Keyed.append_idle (h : Keyed keymap keyboard hs) {more : List Hold}
    (hmore : ∀ k ∈ more, k.phase = .idle) : Keyed keymap keyboard (hs ++ more) := by
  have hkey : ∀ k ∈ more, k.phase.key? = none := fun k hk => by rw [hmore k hk]; rfl
  have hold : ∀ {k : Hold}, k ∈ hs ++ more → k.phase ≠ .idle → k ∈ hs := by
    intro k hk hne
    exact (List.mem_append.mp hk).resolve_right fun hin => hne (hmore k hin)
  refine ⟨h.once, fun k hk key hdrives => ?_, ?_, fun k hk key g hp => ?_, fun k hk key g r hp => ?_⟩
  · exact h.judged k (hold hk fun hidle => by rw [hidle] at hdrives; cases hdrives) key hdrives
  · refine List.pairwise_append.mpr ⟨h.apart, ?_, fun a _ b hb k _ hdrives => ?_⟩
    · refine List.pairwise_of_forall_mem_list fun a ha b _ k hdrives => ?_
      rw [hkey a ha] at hdrives
      cases hdrives
    · rw [hkey b hb] at hdrives
      cases hdrives
  · exact h.down k (hold hk fun hidle => by rw [hidle] at hp; cases hp) key g hp
  · exact h.up k (hold hk fun hidle => by rw [hidle] at hp; cases hp) key g r hp

theorem Keyed.grows {ids : List Nat} {t t' : Holds} (h : Keyed keymap keyboard t.holds)
    (hg : Grows ids t t') : Keyed keymap keyboard t'.holds := by
  obtain ⟨more, hmore, hidle⟩ := hg.holds
  rw [hmore]
  exact h.append_idle fun k hk => (hidle k hk).1

/-- A judged key that is down and drives no hold begins one. -/
theorem Keyed.begun {t : Holds} (h : Keyed keymap keyboard t.holds) (id : Nat) {key : Key}
    (hjudge : keymap.isJudge key = true) (hdown : keyboard.isDown key = true)
    (hfree : ∀ k ∈ t.holds, k.phase.key? ≠ some key) (g : Grade) :
    Keyed keymap keyboard (t.begun id key g).holds := by
  refine ⟨h.once, fun k hk key' hdrives => ?_,
    pairwise_modifyFirst h.apart fun a ha b hb _ _ key' ha' hb' => ?_,
    fun k hk key' g hp => ?_, fun k hk key' g r hp => ?_⟩
  · rcases mem_modifyFirst hk with hk | ⟨y, -, -, rfl⟩
    · exact h.judged k hk key' hdrives
    · cases hdrives
      exact hjudge
  · cases hb'
    exact hfree a ha ha'
  · rcases mem_modifyFirst hk with hk | ⟨y, -, -, rfl⟩
    · exact h.down k hk key' g hp
    · cases hp
      exact hdown
  · rcases mem_modifyFirst hk with hk | ⟨y, -, -, rfl⟩
    · exact h.up k hk key' g r hp
    · cases hp

/-- A change after which the holds that are left are as they were. -/
theorem Keyed.sweep (h : Keyed keymap keyboard hs) {fate : Board → Hold → HoldFate}
    (hf : Lawful fate) (hsame : ∀ b k k', fate b k = .goOn k' → k' = k) (b : Board) :
    Keyed keymap keyboard (sweep fate hs b).1 := by
  have hmem : ∀ k ∈ (Holds.sweep fate hs b).1, k ∈ hs := by
    intro k hk
    obtain ⟨k', hk', b', hgo⟩ := origin_sweep hk
    rw [hsame b' k' k hgo]
    exact hk'
  exact ⟨h.once, fun k hk => h.judged k (hmem k hk), pairwise_sweep hf h.apart b,
    fun k hk => h.down k (hmem k hk), fun k hk => h.up k (hmem k hk)⟩

/-- The state of a key that drives no hold does not matter. -/
theorem Keyed.apply (h : Keyed keymap keyboard hs) {e : Edge}
    (hfree : ∀ k ∈ hs, k.phase.key? ≠ some e.key) : Keyed keymap (keyboard.apply e) hs := by
  have hsame : ∀ k ∈ hs, ∀ key, k.phase.key? = some key →
      (keyboard.apply e).isDown key = keyboard.isDown key := by
    intro k hk key hdrives
    rw [Keyboard.isDown_apply h.once, if_neg]
    rintro rfl
    exact hfree k hk hdrives
  refine ⟨Keyboard.nodup_apply h.once e, h.judged, h.apart, fun k hk key g hp => ?_,
    fun k hk key g r hp => ?_⟩
  · rw [hsame k hk key (by rw [hp]; rfl)]
    exact h.down k hk key g hp
  · rw [hsame k hk key (by rw [hp]; rfl)]
    exact h.up k hk key g r hp

end Keyed

/-! ### Fates -/

theorem eq_of_timeFate {w : Windows} {now : Float} {b : Board} {h h' : Hold}
    (hgo : timeFate w now b h = .goOn h') : h' = h := by
  unfold timeFate at hgo
  cases hp : h.phase
  all_goals
    simp only [hp] at hgo
    split_ifs at hgo
    cases hgo
    rfl

/-- A guarded hold that time leaves alone can still be resumed. -/
theorem not_lost_of_timeFate {w : Windows} {now : Float} {b : Board} {h h' : Hold}
    (hgo : timeFate w now b h = .goOn h') {k : Key} {g : Grade} {r : Float}
    (hp : h.phase = .guarded k g r) : ¬ w.holdGrace < now - r := by
  unfold timeFate at hgo
  simp only [hp] at hgo
  split_ifs at hgo with hover hlost
  exact hlost

theorem guarded_of_canResume {w : Windows} {key : Key} {time : Float} {h : Hold}
    (hr : canResume w key time h = true) : ∃ g r, h.phase = .guarded key g r := by
  unfold canResume at hr
  split at hr
  next k g r hp =>
    rw [Bool.and_eq_true, beq_iff_eq] at hr
    exact ⟨g, r, hr.1 ▸ hp⟩
  next => cases hr

/-- A hold that another key leaves alone is as it was, and it does not wait for another key. -/
theorem eq_of_crossFate {key : Key} {time : Float} {b : Board} {h h' : Hold}
    (hgo : crossFate key time b h = .goOn h') :
    h' = h ∧ ∀ k g r, h.phase = .guarded k g r → k = key := by
  unfold crossFate at hgo
  split at hgo
  next k g r hp =>
    split_ifs at hgo with hkey
    cases hgo
    refine ⟨rfl, fun k' g' r' hp' => ?_⟩
    rw [hp] at hp'
    cases hp'
    exact hkey
  next hnot =>
    cases hgo
    exact ⟨rfl, fun k g r hp => absurd hp (hnot k g r)⟩

/-- A release leaves a hold as it was, or lets it wait for the key. -/
theorem eq_of_releaseFate {w : Windows} {key : Key} {time : Float} {b : Board} {h h' : Hold}
    (hgo : releaseFate w key time b h = .goOn h') :
    (h' = h ∧ ∀ g, h.phase ≠ .holding key g) ∨
      ∃ g, h.phase = .holding key g ∧ h' = { h with phase := .guarded key g time } := by
  unfold releaseFate at hgo
  split at hgo
  next k g hp =>
    split_ifs at hgo with hkey hend
    · cases hgo
      exact .inr ⟨g, hkey ▸ hp, by rw [hkey]⟩
    · cases hgo
      refine .inl ⟨rfl, fun g' hp' => ?_⟩
      rw [hp] at hp'
      cases hp'
      exact hkey rfl
  next hnot =>
    cases hgo
    exact .inl ⟨rfl, fun g hp => hnot key g hp⟩

end Holds

/-! ### Stages -/

namespace Stage

variable {notes : Array Note} {keymap : Keymap} {keyboard : Keyboard}

/-- Bringing the queue to a time registers holds and does nothing else to them. -/
theorem grows_maintain {s : Stage} {scene : Scene} (h : s.Sound scene.notes) (now : Float) :
    ∃ ids, Grows ids s.holds (s.maintain scene now).holds :=
  ⟨_, (grows_foldl_track _ _ _ scene.notes scene.speed (h.queue now).2.1).1⟩

theorem keyed_maintain {s : Stage} {scene : Scene} (h : s.Sound scene.notes)
    (hk : Keyed keymap keyboard s.holds.holds) (now : Float) :
    Keyed keymap keyboard (s.maintain scene now).holds.holds := by
  obtain ⟨ids, hgrows⟩ := grows_maintain h now
  exact hk.grows hgrows

theorem keyed_updateHolds {s : Stage} (hk : Keyed keymap keyboard s.holds.holds) (now : Float) :
    Keyed keymap keyboard (s.updateHolds now).holds.holds :=
  hk.sweep (lawful_timeFate _ now) (fun _ _ _ => eq_of_timeFate) _

theorem keyed_settleTime {s : Stage} {scene : Scene} (h : s.Sound scene.notes)
    (hk : Keyed keymap keyboard s.holds.holds) (now : Float) :
    Keyed keymap keyboard (s.settleTime scene now).holds.holds :=
  keyed_updateHolds (keyed_maintain h hk now) now

/-- A guarded hold that the time has left alone can be resumed by its key. -/
theorem canResume_of_guarded {s : Stage} (h : s.Sound notes)
    (hk : Keyed keymap keyboard s.holds.holds) {time : Float} (htime : time.isFinite = true)
    {x : Hold} (hx : x ∈ (s.updateHolds time).holds.holds) {k : Key} {g : Grade} {r : Float}
    (hp : x.phase = .guarded k g r) :
    canResume (s.updateHolds time).holds.windows k time x = true := by
  obtain ⟨y, hy, b, hgo⟩ := origin_sweep hx
  obtain rfl := eq_of_timeFate hgo
  have hgrace := not_lost_of_timeFate hgo hp
  have hr := (hk.up x hy k g r hp).2
  -- Both times are finite, so that the grace period is either over or not.
  have hdiff : IsNumber (time - r) := isNumber_sub_of_isFinite htime (isNumber_of_isFinite hr)
  have hnumber : IsNumber s.holds.windows.holdGrace :=
    ((zero_le_iff _).mp (h.agree ▸ h.ordered.zero_le_holdGrace)).1
  have hle : time - r ≤ s.holds.windows.holdGrace := le_of_not_lt hnumber hdiff hgrace
  change canResume s.holds.windows k time x = true
  simp [canResume, hp, hle]

/-- What a press finds once time is settled and the guarded holds are dealt with, and whether it has
resumed one of them. -/
def ready (s : Stage) (scene : Scene) (key : Key) (time : Float) : Bool × Stage :=
  let s := s.settleTime scene time
  let (resumed, holds) := s.holds.resume key time
  let (holds, board) := holds.crossTalk key time s.board
  (resumed, { s with holds, board })

theorem press_eq (s : Stage) (scene : Scene) (key : Key) (time : Float) :
    s.press scene key time =
      if (s.ready scene key time).1 then (s.ready scene key time).2
      else (s.ready scene key time).2.hit scene key time := rfl

theorem Sound.ready {s : Stage} {scene : Scene} (h : s.Sound scene.notes) (key : Key)
    (time : Float) : (s.ready scene key time).2.Sound scene.notes :=
  ((h.settleTime time).resume key time).change (lawful_crossFate key time)

/-- A key that comes back drives no second hold. -/
theorem apart_resume {t : Holds} (hk : Keyed keymap keyboard t.holds) (key : Key) (time : Float) :
    (t.resume key time).2.holds.Pairwise Differ :=
  pairwise_modifyFirst hk.apart fun _ _ b _ _ hdiffer => hdiffer.congr rfl (continues_resumed b).key

/-- A hold that a key which is up drives waits for it. -/
theorem canResume_of_drives {s : Stage} {scene : Scene} (h : s.Sound scene.notes)
    (hk : Keyed keymap keyboard s.holds.holds) {key : Key} {time : Float}
    (hfinite : time.isFinite = true) (hup : keyboard.isDown key = false) {x : Hold}
    (hx : x ∈ (s.settleTime scene time).holds.holds) (hdrives : x.phase.key? = some key) :
    canResume (s.settleTime scene time).holds.windows key time x = true := by
  cases hp : x.phase with
  | idle =>
      rw [hp] at hdrives
      cases hdrives
  | holding k g =>
      rw [hp] at hdrives
      obtain rfl : k = key := Option.some.inj hdrives
      rw [(keyed_settleTime h hk time).down x hx k g hp] at hup
      cases hup
  | guarded k g released =>
      rw [hp] at hdrives
      obtain rfl : k = key := Option.some.inj hdrives
      exact canResume_of_guarded (h.maintain time) (keyed_maintain h hk time) hfinite hx hp

/-- When a key has come back, a hold is as it was, or the key holds it. -/
theorem mem_resume {t : Holds} {key : Key} {time : Float} {x : Hold}
    (hx : x ∈ (t.resume key time).2.holds) :
    ∃ y ∈ t.holds, Continues y x ∧ (x = y ∨ ∃ g, x.phase = .holding key g) := by
  rcases mem_modifyFirst hx with hx | ⟨y, hy, htest, rfl⟩
  · exact ⟨x, hx, .refl x, .inl rfl⟩
  · obtain ⟨g, released, hp⟩ := guarded_of_canResume htest
    exact ⟨y, hy, continues_resumed y, .inr ⟨g, by rw [resumed, hp]⟩⟩

/-- When a key has come back, it holds what it drives: at most one hold, which was resumed. -/
theorem holding_of_drives {s : Stage} {scene : Scene} (h : s.Sound scene.notes)
    (hk : Keyed keymap keyboard s.holds.holds) {key : Key} {time : Float}
    (hfinite : time.isFinite = true) (hup : keyboard.isDown key = false) {x : Hold}
    (hx : x ∈ ((s.settleTime scene time).holds.resume key time).2.holds)
    (hdrives : x.phase.key? = some key) : ∃ g, x.phase = .holding key g := by
  obtain ⟨y, hy, hc, rfl | hheld⟩ := mem_resume hx
  · obtain ⟨z, htest, hz⟩ := exists_mem_modifyFirst _ resumed hy
      (canResume_of_drives h hk hfinite hup hy hdrives)
    obtain ⟨g, released, hp⟩ := guarded_of_canResume htest
    have hphase : (resumed z).phase = .holding key g := by rw [resumed, hp]
    have hsame : x = resumed z := by
      by_contra hne
      refine (apart_resume (keyed_settleTime h hk time) key time).forall hx hz hne key hdrives ?_
      rw [hphase]
      rfl
    exact ⟨g, hsame ▸ hphase⟩
  · exact hheld

/-- A hold that is left when a press is ready was left when its key had come back, and no longer waits. -/
theorem mem_ready {s : Stage} {scene : Scene} (h : s.Sound scene.notes)
    (hk : Keyed keymap keyboard s.holds.holds) {key : Key} {time : Float}
    (hfinite : time.isFinite = true) (hup : keyboard.isDown key = false) {x : Hold}
    (hx : x ∈ (s.ready scene key time).2.holds.holds) :
    x ∈ ((s.settleTime scene time).holds.resume key time).2.holds ∧
      ∀ k g t, x.phase ≠ .guarded k g t := by
  obtain ⟨y, hy, b, hgo⟩ := origin_sweep hx
  obtain ⟨rfl, hguard⟩ := eq_of_crossFate hgo
  refine ⟨hy, fun k g t hp => ?_⟩
  obtain ⟨g', hp'⟩ := holding_of_drives h hk hfinite hup hy (by rw [hp, hguard k g t hp]; rfl)
  rw [hp] at hp'
  cases hp'

/-- A press of a key that was up is ready to go to a queued note: no hold waits for another key, and the
key drives at most the hold that it resumed. -/
theorem keyed_ready {s : Stage} (scene : Scene) (h : s.Sound scene.notes)
    (hk : Keyed keymap keyboard s.holds.holds) {e : Edge} (hfinite : e.time.isFinite = true)
    (hpressed : e.pressed = true) (hup : keyboard.isDown e.key = false) :
    let r := s.ready scene e.key e.time
    Keyed keymap (keyboard.apply e) r.2.holds.holds ∧
      (r.1 = false → ∀ k ∈ r.2.holds.holds, k.phase.key? ≠ some e.key) := by
  intro r
  have hk₁ := keyed_settleTime h hk e.time
  have hready : ∀ x ∈ r.2.holds.holds, _ := fun x hx => mem_ready h hk hfinite hup hx
  refine ⟨⟨Keyboard.nodup_apply hk.once e, fun x hx k hdrives => ?_,
    pairwise_sweep (lawful_crossFate _ _) (apart_resume hk₁ e.key e.time) _, fun x hx k g hp => ?_,
    fun x hx k g t hp => absurd hp ((hready x hx).2 k g t)⟩, fun hnone x hx hdrives => ?_⟩
  · obtain ⟨y, hy, hc, -⟩ := mem_resume (hready x hx).1
    exact hk₁.judged y hy k (hc.key.symm.trans hdrives)
  · rw [Keyboard.isDown_apply hk.once]
    split_ifs with hkey
    · exact hpressed
    · obtain ⟨y, hy, hc, rfl | ⟨g', hheld⟩⟩ := mem_resume (hready x hx).1
      · exact hk₁.down x hy k g hp
      · rw [hp] at hheld
        cases hheld
        exact absurd rfl hkey
  · obtain ⟨y, hy, hc, -⟩ := mem_resume (hready x hx).1
    have hresumed : r.1 = true := List.any_eq_true.mpr
      ⟨y, hy, canResume_of_drives h hk hfinite hup hy (hc.key.symm.trans hdrives)⟩
    rw [hresumed] at hnone
    cases hnone

/-- What judging a press by a key that is down does to the holds: at most it begins one with that key. -/
theorem keyed_hit {s : Stage} {scene : Scene} (h : s.Sound scene.notes)
    (hk : Keyed keymap keyboard s.holds.holds) {key : Key} (hjudge : keymap.isJudge key = true)
    (hdown : keyboard.isDown key = true) (hfree : ∀ k ∈ s.holds.holds, k.phase.key? ≠ some key)
    (time : Float) : Keyed keymap keyboard (s.hit scene key time).holds.holds := by
  have hlanded := hit_cases h.registered scene key time
  generalize s.hit scene key time = s' at hlanded ⊢
  cases hlanded with
  | empty => rwa [holds_chargeEmpty]
  | single => exact hk
  | layer => exact hk
  | refused id n note hr _ _ _ t hg =>
      rw [holds_chargeEmpty]
      exact hk.grows hg
  | begun id n note hr _ _ t hg =>
      refine (hk.grows hg).begun id hjudge hdown (fun k hk => ?_) _
      rcases hg.mem_or_idle hk with hk | ⟨hidle, -⟩
      · exact hfree k hk
      · rw [hidle]
        exact fun hdrives => nomatch hdrives

/-- A press of a judged key keeps the holds keyed. -/
theorem keyed_press {s : Stage} {scene : Scene} (h : s.Sound scene.notes)
    (hk : Keyed keymap keyboard s.holds.holds) {e : Edge} (hfinite : e.time.isFinite = true)
    (hpressed : e.pressed = true) (hup : keyboard.isDown e.key = false)
    (hjudge : keymap.isJudge e.key = true) :
    Keyed keymap (keyboard.apply e) (s.press scene e.key e.time).holds.holds := by
  obtain ⟨hready, hfree⟩ := keyed_ready scene h hk hfinite hpressed hup
  rw [press_eq]
  split_ifs with hresumed
  · exact hready
  · have hdown : (keyboard.apply e).isDown e.key = true := by
      rw [Keyboard.isDown_apply hk.once, if_pos rfl, hpressed]
    exact keyed_hit (h.ready e.key e.time) hready hjudge hdown
      (hfree (Bool.eq_false_iff.mpr hresumed)) e.time

/-- A release of a judged key keeps the holds keyed. -/
theorem keyed_release {s : Stage} (hk : Keyed keymap keyboard s.holds.holds) {e : Edge}
    (hfinite : e.time.isFinite = true) (hpressed : e.pressed = false) :
    Keyed keymap (keyboard.apply e) (s.release e.key e.time).holds.holds := by
  have hk₁ := keyed_updateHolds hk e.time
  set s₁ := s.updateHolds e.time with hs₁
  have horigin : ∀ x ∈ (s.release e.key e.time).holds.holds, ∃ y ∈ s₁.holds.holds,
      (x = y ∧ ∀ g, y.phase ≠ .holding e.key g) ∨
        ∃ g, y.phase = .holding e.key g ∧ x = { y with phase := .guarded e.key g e.time } := by
    intro x hx
    obtain ⟨y, hy, b, hgo⟩ := origin_sweep hx
    exact ⟨y, hy, eq_of_releaseFate hgo⟩
  have hstate := Keyboard.isDown_apply hk.once e
  refine ⟨Keyboard.nodup_apply hk.once e, fun x hx k hdrives => ?_,
    pairwise_sweep (lawful_releaseFate _ _ _) hk₁.apart _, fun x hx k g hp => ?_,
    fun x hx k g r hp => ?_⟩
  · obtain ⟨y, hy, ⟨rfl, -⟩ | ⟨g, hp, rfl⟩⟩ := horigin x hx
    · exact hk₁.judged x hy k hdrives
    · exact hk₁.judged y hy k (by rw [hp]; exact hdrives)
  · obtain ⟨y, hy, ⟨rfl, hnot⟩ | ⟨g', -, rfl⟩⟩ := horigin x hx
    · have hne : k ≠ e.key := by
        rintro rfl
        exact hnot g hp
      rw [hstate, if_neg hne]
      exact hk₁.down x hy k g hp
    · cases hp
  · obtain ⟨y, hy, ⟨rfl, -⟩ | ⟨g', hp', rfl⟩⟩ := horigin x hx
    · obtain ⟨hup, hnumber⟩ := hk₁.up x hy k g r hp
      refine ⟨?_, hnumber⟩
      rw [hstate, hup, hpressed, ite_self]
    · cases hp
      exact ⟨by rw [hstate, if_pos rfl, hpressed], hfinite⟩

/-- Judging an edge keeps the holds keyed and moves on to the keyboard after the edge. -/
theorem keyed_edge {s : Stage} {scene : Scene} (h : s.Sound scene.notes)
    (hk : Keyed keymap keyboard s.holds.holds) {e : Edge} (hfinite : e.time.isFinite = true)
    (haccept : keyboard.accepts e = true) (hjudge : keymap.isJudge e.key = true) :
    Keyed keymap (keyboard.apply e) (s.edge scene e).holds.holds := by
  unfold Stage.edge
  split_ifs with hpressed
  · refine keyed_press h hk hfinite hpressed ?_ hjudge
    simpa [Keyboard.accepts, hpressed] using haccept
  · exact keyed_release hk hfinite (Bool.eq_false_iff.mpr hpressed)

/-- An edge that is not judged keeps the holds keyed. -/
theorem keyed_apply {hs : List Hold} (hk : Keyed keymap keyboard hs) {e : Edge}
    (h : ¬ (keyboard.accepts e && keymap.isJudge e.key) = true) :
    Keyed keymap (keyboard.apply e) hs := by
  by_cases haccept : keyboard.accepts e = true
  · refine hk.apply fun x hx hdrives => h ?_
    rw [haccept, hk.judged x hx _ hdrives]
    rfl
  · rwa [Keyboard.apply, if_neg haccept]

/-- A run of edges keeps the holds keyed. -/
theorem keyed_edges (scene : Scene) {edges : List Edge}
    (hfinite : ∀ e ∈ edges, e.time.isFinite = true) {keyboard : Keyboard} {s : Stage}
    (h : s.Sound scene.notes) (hk : Keyed keymap keyboard s.holds.holds) :
    let s' := (Playback.accepted keymap keyboard edges).foldl (fun s e => s.edge scene e) s
    s'.Sound scene.notes ∧ Keyed keymap (edges.foldl Keyboard.apply keyboard) s'.holds.holds := by
  induction edges generalizing keyboard s with
  | nil => exact ⟨h, hk⟩
  | cons e edges ih =>
      have hrest := fun k hk => hfinite k (List.mem_cons_of_mem e hk)
      unfold Playback.accepted
      split_ifs with hjudged
      · rw [Bool.and_eq_true] at hjudged
        exact ih hrest (h.edge e)
          (keyed_edge h hk (hfinite e List.mem_cons_self) hjudged.1 hjudged.2)
      · exact ih hrest h (keyed_apply hk hjudged)

end Stage

/-- A grade does not charge a press. -/
theorem Score.emptyPresses_applyGrade (s : Score) (g : Grade) :
    (s.applyGrade g).emptyPresses = s.emptyPresses := by
  unfold applyGrade
  split_ifs <;> rfl

namespace Stage

variable {keymap : Keymap} {keyboard : Keyboard}

/-! ### Presses that find a hold -/

end Stage

/-! ### Playbacks -/

namespace Playback

/-- The tracked holds fit the keyboard. -/
def Keyed (p : Playback) : Prop := Holds.Keyed p.keymap p.keyboard p.holds.holds

theorem Timely.due {p : Playback} (h : p.Timely) : ∀ e ∈ p.due, e.time.isFinite = true := by
  intro e he
  have hmem : e ∈ p.waiting := (List.takeWhile_sublist _).subset he
  exact h.edges e (Array.mem_def.mpr (List.drop_subset _ _ hmem))

theorem keyed_judgeTick {p : Playback} (h : p.Timely) (hk : p.Keyed) : p.judgeTick.Keyed := by
  obtain ⟨hsound, hkeyed⟩ := Stage.keyed_edges p.scene h.due h.sound hk
  rw [judgeTick_eq]
  exact Stage.keyed_settleTime hsound hkeyed p.playhead.time

end Playback

end RhythmChart
