import RhythmChart.Proofs.Completeness
import RhythmChart.Proofs.Script

/-! # Judging a script

When every judgable live note has a stroke of its own that begins at the time of the note, judging the
edges of the strokes gives every note the best grade.  The queue never misses a note, a press finds the
note that it is meant for, and no hold is released before its end.

Main statements.

* `Sheet.Aimed`: what a stroke has to do with the live note that it hits;
* `Stage.OnScript`: a stage on which the first strokes have begun, and nothing went wrong;
* `Stage.OnScript.settleTime`, `Stage.OnScript.press` and `Stage.OnScript.release`: time and the next edge
  keep that;
* `Stage.OnScript.edges`: so does any run of edges that follows the strokes. -/

namespace RhythmChart

open Judge Holds Binary64

/-- A free key begins an idle hold that is tracked, near its time. -/
theorem Holds.start_of_find {t : Holds} {id : Nat} {k : Hold} (hfind : t.find? id = some k) {key : Key}
    (hfree : ∀ h ∈ t.holds, h.phase.key? ≠ some key) (hidle : k.phase.isEngaged = false)
    {time : Float} (hclose : (k.trigger - time).abs ≤ t.windows.exit) (notes : Array Note)
    (speed : Float) (b : Board) :
    t.start id key time notes speed b =
      (true, t.begun id key (t.windows.grade (k.trigger - time)),
        b.mapScore fun score => score.applyGrade (t.windows.grade (k.trigger - time))) := by
  have hbusy : ¬ t.isBusy key = true := by
    intro hany
    obtain ⟨h, hh, hdrives⟩ := List.any_eq_true.mp hany
    exact hfree h hh (beq_iff_eq.mp hdrives)
  have htrack : t.track id b.live notes speed = t := by
    unfold track
    rw [hfind]
  unfold start
  rw [if_neg hbusy]
  simp only [htrack, hfind]
  rw [if_neg (not_or.mpr ⟨by simp [hidle], not_lt_of_le hclose⟩)]
  rfl

/-! ### Offsets -/

/-- A note is not late before its time. -/
theorem Windows.sub_le_exit {w : Windows} (h : w.Ordered) {now trigger : Float} {r : ℝ}
    (hr : value trigger = r) (hle : now ≤ trigger) : now - trigger ≤ w.exit := by
  obtain ⟨hexit, hzero⟩ := h.zero_le_exit
  obtain ⟨hnow, htrigger, hv⟩ := (le_iff _ _).mp hle
  have hn : IsNumber (now - trigger) := by
    refine (isNumber_sub_iff _ _).mpr ⟨hnow, htrigger, ?_⟩
    rw [hr]
    exact ⟨fun h => EReal.coe_ne_top r (EReal.neg_eq_bot_iff.mp h.2),
      fun h => EReal.coe_ne_bot r (EReal.neg_eq_top_iff.mp h.2)⟩
  refine (le_iff _ _).mpr ⟨hn, hexit, ?_⟩
  rw [value_sub hn]
  have hnear := nearest_mono (EReal.sub_nonpos.mpr hv)
  rw [nearest_zero] at hnear
  exact hnear.trans hzero

/-- A press at the time of a note is within all windows, and gets the best grade. -/
theorem Windows.grade_eq_critical {w : Windows} (h : w.Ordered) {time trigger : Float} {r : ℝ}
    (hr : value trigger = r) (hle : time ≤ trigger) (hge : trigger ≤ time) :
    trigger - time ≤ w.enter ∧ (trigger - time).abs ≤ w.exit ∧
      w.grade (trigger - time) = .critical := by
  obtain ⟨htime, hn, hv⟩ := (le_iff _ _).mp hle
  obtain ⟨-, -, hv'⟩ := (le_iff _ _).mp hge
  have hr' : value time = r := (le_antisymm hv hv').trans hr
  have hsub : IsNumber (trigger - time) := by
    refine (isNumber_sub_iff _ _).mpr ⟨hn, htime, ?_⟩
    rw [hr]
    exact ⟨fun h => EReal.coe_ne_top r h.1, fun h => EReal.coe_ne_bot r h.1⟩
  have hvalue : value (trigger - time) = 0 := by
    rw [value_sub hsub, hr, hr', ← EReal.coe_sub, sub_self, EReal.coe_zero, nearest_zero]
  have habs : value (trigger - time).abs = 0 := by
    rw [value_abs, hvalue, neg_zero, max_self]
  have hnumber := (isNumber_abs_iff (trigger - time)).mpr hsub
  obtain ⟨hfixed, hfixedv⟩ := (zero_le_iff _).mp h.zero_le_fixed
  obtain ⟨hexit, hexitv⟩ := h.zero_le_exit
  obtain ⟨henter, henterv⟩ := (zero_le_iff _).mp h.zero_le_enter
  have hclose : (trigger - time).abs ≤ w.fixed :=
    (le_iff _ _).mpr ⟨hnumber, hfixed, habs.trans_le hfixedv⟩
  refine ⟨(le_iff _ _).mpr ⟨hsub, henter, hvalue.trans_le henterv⟩,
    (le_iff _ _).mpr ⟨hnumber, hexit, habs.trans_le hexitv⟩, ?_⟩
  unfold Windows.grade
  dsimp only
  rw [if_pos hclose]

/-! ### Boards without a flaw -/

namespace Board

/-- No press was empty, and every grade is the best one. -/
structure Flawless (b : Board) : Prop where
  empty : b.score.emptyPresses = 0
  best : ∀ id g, b.result? id = some g → g = .critical

theorem Flawless.mapScore {b : Board} (h : b.Flawless) {f : Score → Score}
    (hf : (f b.score).emptyPresses = b.score.emptyPresses) : (b.mapScore f).Flawless :=
  ⟨hf.trans h.empty, h.best⟩

theorem Flawless.settle {b : Board} (h : b.Flawless) (id : Nat) (n : LiveNote) (time : Float) :
    (b.settle id n .critical time).Flawless := by
  refine ⟨h.empty, fun i g hg => ?_⟩
  change ((b.live.modify id _)[i]?).bind LiveNote.result = some g at hg
  rw [Array.getElem?_modify] at hg
  split_ifs at hg with hid
  · obtain ⟨n', hn', hresult⟩ := Option.bind_eq_some_iff.mp hg
    obtain ⟨m, -, rfl⟩ := Option.map_eq_some_iff.mp hn'
    exact (Option.some.inj hresult).symm
  · exact h.best i g hg

theorem Flawless.finishHold {b : Board} (h : b.Flawless) (k : Hold) (time : Float) :
    (finishHold k .critical time b).Flawless := by
  have hrecord : (b.mapScore fun s => s.record .critical).Flawless := h.mapScore rfl
  unfold Holds.finishHold
  simp only [show Grade.critical.isMiss = false from rfl]
  cases (b.mapScore fun s => s.record .critical).live[k.live]? with
  | some n => exact hrecord.settle _ _ _
  | none => exact hrecord

/-- A change that gives no other grade than the best one. -/
theorem Flawless.sweep {fate : Board → Hold → HoldFate} {hs : List Hold} {b : Board} (h : b.Flawless)
    (hbest : ∀ k ∈ hs, ∀ b g time, fate b k = .grade g time → g = .critical) :
    (Holds.sweep fate hs b).2.Flawless := by
  induction hs generalizing b with
  | nil => exact h
  | cons k hs ih =>
      have hrest := fun k hk => hbest k (List.mem_cons_of_mem _ hk)
      unfold Holds.sweep
      cases hfate : fate b k with
      | goOn k' => exact ih h hrest
      | grade g time =>
          obtain rfl := hbest k List.mem_cons_self b g time hfate
          exact ih (h.finishHold k time) hrest
      | drop => exact ih h hrest

/-- A judged layer gives no grade. -/
theorem Flawless.layer {b : Board} (h : b.Flawless) (id : Nat) :
    ({ b with live := b.live.modify id fun n =>
      { n with layersDone := n.layersDone + 1 } } : Board).Flawless := by
  refine ⟨h.empty, fun i g hg => h.best i g ?_⟩
  change ((b.live.modify id _)[i]?).bind LiveNote.result = some g at hg
  rw [Array.getElem?_modify] at hg
  rw [result?, ← hg]
  split_ifs
  · cases b.live[i]? <;> rfl
  · rfl

theorem Flawless.pressSingle {b : Board} (h : b.Flawless) {j : Judge} {time : Float} {n : LiveNote}
    (hgrade : j.windows.grade (n.trigger - time) = .critical) (id : Nat) :
    (j.pressSingle time id n b).2.Flawless := by
  unfold Judge.pressSingle
  rw [hgrade]
  exact (h.mapScore (f := fun score => score.record .critical) rfl).settle id n time

/-- The only layer of a multi note. -/
theorem Flawless.pressLayer {b : Board} (h : b.Flawless) {j : Judge} {time : Float} {n : LiveNote}
    (hgrade : j.windows.grade (n.trigger - time) = .critical) (hworst : j.worst = []) {layers : Nat}
    (hlayers : layers ≤ 1) (id : Nat) :
    (j.pressLayer time layers id n b).1.worst = [] ∧ (j.pressLayer time layers id n b).2.Flawless ∧
      ((b.live[id]?).isSome → ((j.pressLayer time layers id n b).2.result? id).isSome) := by
  have hlast : layers ≤ n.layersDone + 1 := hlayers.trans (Nat.le_add_left 1 _)
  have hlayered : (j.layered time id n b).Flawless := by
    unfold Judge.layered
    rw [hgrade]
    have hdone := (h.layer id).mapScore (f := fun score => score.applyGrade .critical) rfl
    exact ⟨hdone.empty, hdone.best⟩
  rw [Judge.pressLayer_eq, hgrade, hworst, if_pos hlast]
  refine ⟨rfl, (hlayered.mapScore (f := fun score => score.tally .critical) rfl).settle id n time,
    fun hlive => ?_⟩
  obtain ⟨m, hm⟩ := Option.isSome_iff_exists.mp hlive
  have hcounted : (j.layered time id n b).live[id]? = some { m with layersDone := m.layersDone + 1 } := by
    rw [Judge.getElem?_layered, if_pos rfl, hm]
    rfl
  exact Option.isSome_of_eq_some (result?_settle hcounted _ n .critical time)

end Board

/-! ### Strokes that hit -/

/-- A live note and the stroke that is meant for it. -/
structure Hit where
  id : Nat
  stroke : Stroke

namespace Sheet

/-- The stroke begins at the time of its note, and ends with it if the note is a hold. -/
structure Aimed (S : Sheet) (h : Hit) : Prop where
  note : ∃ note, S.note? h.id = some note ∧ note.noteType.isJudgable = true ∧
    (note.noteType = .multi → note.layers.length ≤ 1) ∧
    (note.noteType = .hold → h.stroke.up = S.finish h.id)
  finite : h.stroke.down.isFinite = true
  early : h.stroke.down ≤ S.trigger h.id
  late : S.trigger h.id ≤ h.stroke.down

theorem Aimed.exists_value {S : Sheet} {h : Hit} (ha : S.Aimed h) :
    ∃ r : ℝ, value (S.trigger h.id) = r := by
  obtain ⟨r, hr⟩ := exists_coe_of_isFinite ha.finite
  exact ⟨r, (le_antisymm ((le_iff _ _).mp ha.late).2.2 ((le_iff _ _).mp ha.early).2.2).trans hr⟩

/-- The strokes hit all judgable notes, one after the other. -/
structure Aims (S : Sheet) (hits : List Hit) : Prop where
  sorted : hits.Pairwise fun h k => h.id < k.id
  aimed : ∀ h ∈ hits, S.Aimed h
  complete : ∀ id note, S.note? id = some note → note.noteType.isJudgable = true →
    ∃ h ∈ hits, h.id = id

end Sheet

namespace Stage

/-- The strokes `past` have begun and the strokes `coming` have not; every note was hit as it should. -/
structure OnScript (S : Sheet) (past coming : List Hit) (s : Stage) : Prop where
  sound : s.Sound S.notes
  queued : s.Queued S.notes
  rising : s.Rising
  stamps : ∀ (id : Nat) (n : LiveNote), s.board.live[id]? = some n → S.all[id]? = some n.stamp
  flawless : s.board.Flawless
  worst : s.judge.worst = []
  begun : ∀ h ∈ past, (s.board.result? h.id).isSome ∨
    ∃ k ∈ s.holds.holds, k.live = h.id ∧ k.phase.isEngaged = true
  opened : ∀ h ∈ coming, s.board.result? h.id = none
  driven : ∀ k ∈ s.holds.holds, k.phase.isEngaged = true →
    ∃ h ∈ past, k.live = h.id ∧ (∃ g, k.phase = .holding h.stroke.key g) ∧ k.finish = h.stroke.up
  ends : ∀ k ∈ s.holds.holds, k.finish = S.finish k.live

variable {S : Sheet} {past coming : List Hit} {s : Stage}

/-- An open note is one whose stroke is to come. -/
theorem OnScript.mem_coming (h : s.OnScript S past coming) (hA : S.Aims (past ++ coming)) {id : Nat}
    (hopen : isOpen S.notes s.board.live id = true)
    (hidle : ∀ k ∈ s.holds.holds, k.phase.isEngaged = true → k.live ≠ id) :
    ∃ k ∈ coming, k.id = id := by
  obtain ⟨n, hn, hwaits⟩ := (Option.any_eq_true _ _).mp hopen
  rw [Bool.and_eq_true] at hwaits
  obtain ⟨note, hnote, hjudgable⟩ := (Option.any_eq_true _ _).mp hwaits.1
  have hnote' : S.note? id = some note := (Sheet.note?_of_stamp (h.stamps id n hn)).trans hnote
  obtain ⟨k, hk, rfl⟩ := hA.complete id note hnote' hjudgable
  rcases List.mem_append.mp hk with hk | hk
  · exfalso
    rcases h.begun k hk with hjudged | ⟨x, hx, hlive, he⟩
    · rw [result?_of_isOpen hopen] at hjudged
      cases hjudged
    · exact hidle x hx he hlive
  · exact ⟨k, hk, rfl⟩

/-! ### Time -/

/-- Nothing leaves a queue whose first note is neither judged nor late. -/
theorem expire_eq_self {w : Windows} {now : Float} (scans : Nat) {queue : List Nat}
    (worst : List (Nat × Float × Grade)) {b : Board}
    (h : ∀ id ∈ queue.head?, ∃ n, b.live[id]? = some n ∧ n.result = none ∧
      now - n.trigger ≤ w.exit) :
    expire w now scans queue worst b = (queue, worst, b) := by
  cases queue with
  | nil => cases scans <;> rfl
  | cons id queue =>
      cases scans with
      | zero => rfl
      | succ scans =>
          obtain ⟨n, hn, hu, hearly⟩ := h id rfl
          unfold expire
          simp only [hn]
          rw [if_neg (by simp [LiveNote.isJudged, hu]), if_pos hearly]

/-- What stands in line is open. -/
theorem Queued.isOpen_line (h : s.Queued S.notes) (hs : s.Sound S.notes) {next id : Nat}
    (hid : id ∈ s.judge.queue ++ openBetween S.notes s.board.live s.judge.nextLive next) :
    isOpen S.notes s.board.live id = true := by
  rcases List.mem_append.mp hid with hid | hid
  · have hn := Array.getElem?_eq_getElem ((hs.queued id hid).trans_le hs.near)
    have hwaiting := h.waiting id hid
    rw [Board.result?, hn, Option.bind_some] at hwaiting
    rw [isOpen, hn, Option.any_some, (hs.admitted_queue hid).2 _ hn, LiveNote.isJudged, hwaiting]
    rfl
  · exact (mem_openBetween.mp hid).2.2

/-- The strokes for the notes in line are to come, so that none of these notes is late before they do. -/
theorem OnScript.expire_line (h : s.OnScript S past coming) (hA : S.Aims (past ++ coming)) {now : Float}
    (hwait : ∀ k ∈ coming, now ≤ k.stroke.down) (next : Nat) :
    let line := s.judge.queue ++ openBetween S.notes s.board.live s.judge.nextLive next
    expire s.judge.windows now maxScan line s.judge.worst s.board = (line, s.judge.worst, s.board) := by
  intro line
  refine expire_eq_self _ _ fun id hid => ?_
  have hmem : id ∈ line := List.mem_of_mem_head? hid
  have hopen := h.queued.isOpen_line h.sound hmem
  obtain ⟨k, hk, rfl⟩ := h.mem_coming hA hopen
    fun k hk he heq => h.sound.not_mem_line next hk he (heq ▸ hmem)
  obtain ⟨n, hn, hwaits⟩ := (Option.any_eq_true _ _).mp hopen
  rw [Bool.and_eq_true, Bool.not_eq_true'] at hwaits
  have haimed := hA.aimed k (List.mem_append_right _ hk)
  have htrigger := Sheet.trigger_of_stamp (h.stamps _ n hn)
  obtain ⟨r, hr⟩ := haimed.exists_value
  refine ⟨n, hn, by simpa [LiveNote.isJudged] using hwaits.2, ?_⟩
  exact Windows.sub_le_exit h.sound.ordered (htrigger ▸ hr)
    (htrigger ▸ le_of_le_of_le (hwait k hk) haimed.early)

/-- As long as the strokes to come are not late, the queue misses nothing. -/
theorem OnScript.maintain (h : s.OnScript S past coming) (hA : S.Aims (past ++ coming)) {now : Float}
    (hwait : ∀ k ∈ coming, now ≤ k.stroke.down) (visit : Option Nat) :
    (s.maintain (S.scene visit) now).OnScript S past coming := by
  have hsound := @Sound.maintain s (S.scene visit) h.sound now
  have hqueued := @Queued.maintain s (S.scene visit) h.sound h.queued now
  have hrising := h.rising.of_frame (@frame_maintain s (S.scene visit) h.sound now)
  set next := frontier s.judge.windows.enter now s.board.live s.judge.nextLive with hnext
  set entered := openBetween S.notes s.board.live s.judge.nextLive next with hentered
  set holds := (entered.filter (isHold S.notes s.board.live)).foldl
    (fun (t : Holds) id => t.track id s.board.live S.notes S.speed) s.holds with hholds
  have hstage : s.maintain (S.scene visit) now =
      ⟨{ s.judge with queue := s.judge.queue ++ entered, nextLive := next }, holds, s.board⟩ := by
    unfold Stage.maintain
    rw [maintain_eq]
    dsimp only [Sheet.scene]
    rw [h.expire_line hA hwait next]
  obtain ⟨more, hmore, hidle⟩ := (grows_foldl_track (entered.filter (isHold S.notes s.board.live))
    s.holds s.board.live S.notes S.speed h.sound.registered).1.holds
  change holds.holds = s.holds.holds ++ more at hmore
  rw [hstage] at hsound hqueued hrising ⊢
  refine
    { sound := hsound
      queued := hqueued
      rising := hrising
      stamps := h.stamps
      flawless := h.flawless
      worst := h.worst
      begun := fun k hk => ?_
      opened := h.opened
      driven := fun k hk he => ?_
      ends := fun k hk => ?_ }
  · refine (h.begun k hk).imp_right fun hbegun => ?_
    obtain ⟨x, hx, hlive, he⟩ := hbegun
    exact ⟨x, hmore ▸ List.mem_append_left _ hx, hlive, he⟩
  · change k ∈ holds.holds at hk
    rw [hmore] at hk
    rcases List.mem_append.mp hk with hk | hk
    · exact h.driven k hk he
    · rw [(hidle k hk).1] at he
      cases he
  · rcases mem_foldl_track hk with hk | ⟨id, n, -, hn, rfl⟩
    · exact h.ends k hk
    · exact (Sheet.finish_of_stamp (h.stamps id n hn)).symm

/-- A change that gives the best grade to some holds and leaves the others as they are. -/
theorem OnScript.change (h : s.OnScript S past coming) (hA : S.Aims (past ++ coming))
    {fate : Board → Hold → HoldFate} (hf : Lawful fate) (hp : Patient fate)
    (hbest : ∀ k ∈ s.holds.holds, ∀ b g time, fate b k = .grade g time → g = .critical)
    (hsame : ∀ k ∈ s.holds.holds, ∀ b k', fate b k = .goOn k' → k' = k) :
    (s.change fate).OnScript S past coming := by
  have r := swept hf h.sound.registered.once h.sound.openNotes
  have hkept : ∀ k ∈ (s.change fate).holds.holds, k ∈ s.holds.holds := by
    intro k hk
    obtain ⟨k', hk', b, hgo⟩ := origin_sweep hk
    rw [hsame k' hk' b k hgo]
    exact hk'
  have hframe : s.Frame (s.change fate) := (keeps_change h.sound hf).toFrame
  refine
    { sound := h.sound.change hf
      queued := h.queued.change h.sound hf hp
      rising := h.rising.of_frame hframe
      stamps := fun id n hn => ?_
      flawless := h.flawless.sweep hbest
      worst := h.worst
      begun := fun k hk => ?_
      opened := fun k hk => ?_
      driven := fun k hk he => h.driven k (hkept k hk) he
      ends := fun k hk => h.ends k (hkept k hk) }
  · obtain ⟨m, hm, hstamp⟩ := LiveNote.exists_of_stamps r.judges.stamp hn
    rw [h.stamps id m hm, hstamp]
  · rcases h.begun k hk with hjudged | ⟨x, hx, hlive, he⟩
    · obtain ⟨g, hg⟩ := Option.isSome_iff_exists.mp hjudged
      exact .inl (Option.isSome_of_eq_some (r.judges.final k.id g hg))
    · rcases r.finished x hx he with ⟨x', hx', hc⟩ | hsome
      · exact .inr ⟨x', hx', hc.live.trans hlive, hc.engaged.trans he⟩
      · exact .inl (hlive ▸ hsome)
  · -- The holds that are graded belong to strokes that have begun.
    have hnot : ¬ ∃ x ∈ s.holds.holds, x.phase.isEngaged = true ∧ x.live = k.id := by
      rintro ⟨x, hx, he, hlive⟩
      obtain ⟨p, hp, hpl, -, -⟩ := h.driven x hx he
      have hlt := (List.pairwise_append.mp hA.sorted).2.2 p hp k hk
      omega
    change (s.change fate).board.result? k.id = none
    rw [Board.result?, show (s.change fate).board.live[k.id]? = s.board.live[k.id]? from
      r.judges.frame k.id hnot]
    exact h.opened k hk

/-- No hold waits for its key to come back. -/
theorem OnScript.idle_or_holding (h : s.OnScript S past coming) {k : Hold} (hk : k ∈ s.holds.holds) :
    k.phase = .idle ∨ ∃ x ∈ past, k.live = x.id ∧ k.finish = x.stroke.up ∧
      ∃ g, k.phase = .holding x.stroke.key g := by
  cases hp : k.phase with
  | idle => exact .inl rfl
  | holding key g =>
      obtain ⟨x, hx, hlive, hphase, hfinish⟩ := h.driven k hk (by rw [hp]; rfl)
      exact .inr ⟨x, hx, hlive, hfinish, hp ▸ hphase⟩
  | guarded key g released =>
      obtain ⟨x, -, -, ⟨g', hphase⟩, -⟩ := h.driven k hk (by rw [hp]; rfl)
      rw [hp] at hphase
      cases hphase

theorem OnScript.updateHolds (h : s.OnScript S past coming) (hA : S.Aims (past ++ coming))
    (now : Float) : (s.updateHolds now).OnScript S past coming ∧
      ∀ k ∈ (s.updateHolds now).holds.holds, k.phase.isEngaged = true → ¬ k.finish ≤ now := by
  refine ⟨h.change hA (lawful_timeFate _ now) (patient_timeFate _ now) (fun k hk b g time hgrade => ?_)
    fun k _ b k' => eq_of_timeFate, fun k hk he hover => ?_⟩
  · unfold timeFate at hgrade
    rcases h.idle_or_holding hk with hp | ⟨x, -, -, -, g', hp⟩
    · simp only [hp] at hgrade
      split_ifs at hgrade
    · simp only [hp] at hgrade
      split_ifs at hgrade
      cases hgrade
      rfl
  · obtain ⟨k', hk', b, hgo⟩ := origin_sweep hk
    obtain rfl := eq_of_timeFate hgo
    rcases h.idle_or_holding hk' with hp | ⟨x, -, -, -, g, hp⟩
    · rw [hp] at he
      cases he
    · unfold timeFate at hgo
      simp only [hp] at hgo
      rw [if_pos hover] at hgo
      cases hgo

/-- Time passes, and the strokes to come are not late. -/
theorem OnScript.settleTime (h : s.OnScript S past coming) (hA : S.Aims (past ++ coming)) {now : Float}
    (hwait : ∀ k ∈ coming, now ≤ k.stroke.down) (visit : Option Nat) :
    (s.settleTime (S.scene visit) now).OnScript S past coming ∧
      ∀ k ∈ (s.settleTime (S.scene visit) now).holds.holds, k.phase.isEngaged = true →
        ¬ k.finish ≤ now :=
  (h.maintain hA hwait visit).updateHolds hA now

/-! ### Keys -/

/-- A key comes up when all its strokes are over. -/
theorem OnScript.release (h : s.OnScript S past coming) (hA : S.Aims (past ++ coming)) {key : Key}
    {time : Float} (hended : ∀ x ∈ past, x.stroke.key = key → x.stroke.up ≤ time) :
    (s.release key time).OnScript S past coming := by
  obtain ⟨hupdated, hover⟩ := h.updateHolds hA time
  -- Time has ended all holds of the key.
  have hnone : ∀ k ∈ (s.updateHolds time).holds.holds, ∀ g, k.phase ≠ .holding key g := by
    intro k hk g hp
    obtain ⟨x, hx, -, ⟨g', hphase⟩, hfinish⟩ := hupdated.driven k hk (by rw [hp]; rfl)
    rw [hp] at hphase
    cases hphase
    exact hover k hk (by rw [hp]; rfl) (hfinish ▸ hended x hx rfl)
  refine hupdated.change hA (lawful_releaseFate _ key time) (patient_releaseFate _ key time)
    (fun k hk b g t hgrade => ?_) fun k hk b k' hgo => ?_
  · exfalso
    unfold releaseFate at hgrade
    split at hgrade
    next key' g' hp =>
      split_ifs at hgrade with hkey
      exact hnone k hk g' (hkey ▸ hp)
    next => cases hgrade
  · rcases eq_of_releaseFate hgo with ⟨heq, -⟩ | ⟨g, hp, -⟩
    · exact heq
    · exact absurd hp (hnone k hk g)

/-- A press whose key has no stroke that is not over finds its key free. -/
theorem OnScript.ready (h : s.OnScript S past coming) (hA : S.Aims (past ++ coming)) {key : Key}
    {time : Float} (hwait : ∀ k ∈ coming, time ≤ k.stroke.down)
    (hfree : ∀ x ∈ past, x.stroke.key = key → x.stroke.up ≤ time) (visit : Option Nat) :
    (s.ready (S.scene visit) key time).1 = false ∧
      (s.ready (S.scene visit) key time).2.OnScript S past coming ∧
      ∀ k ∈ (s.ready (S.scene visit) key time).2.holds.holds, k.phase.key? ≠ some key := by
  obtain ⟨hsettled, hover⟩ := h.settleTime hA hwait visit
  set s₁ := s.settleTime (S.scene visit) time with hs₁
  have hnever : ∀ k ∈ s₁.holds.holds, canResume s₁.holds.windows key time k = false := by
    intro k hk
    rcases hsettled.idle_or_holding hk with hp | ⟨x, -, -, -, g, hp⟩
    · rw [canResume, hp]
    · rw [canResume, hp]
  have hnone : s₁.holds.resume key time = (false, s₁.holds) := by
    have hsame : modifyFirst (canResume s₁.holds.windows key time) resumed s₁.holds.holds =
        s₁.holds.holds := by
      generalize s₁.holds.holds = hs at hnever
      induction hs with
      | nil => rfl
      | cons k hs ih =>
          rw [modifyFirst, hnever k List.mem_cons_self, if_neg Bool.false_ne_true,
            ih fun k hk => hnever k (List.mem_cons_of_mem _ hk)]
    refine Prod.ext (List.any_eq_false.mpr fun k hk => ?_) ?_
    · rw [hnever k hk]
      exact Bool.false_ne_true
    · change (⟨s₁.holds.windows, modifyFirst (canResume s₁.holds.windows key time) resumed
        s₁.holds.holds⟩ : Holds) = s₁.holds
      rw [hsame]
  have hready : s.ready (S.scene visit) key time = (false, s₁.change (crossFate key time)) := by
    unfold Stage.ready
    dsimp only
    rw [← hs₁, hnone]
    rfl
  rw [hready]
  refine ⟨rfl, hsettled.change hA (lawful_crossFate key time) (patient_crossFate key time)
    (fun k hk b g t hgrade => ?_) fun k _ b k' hgo => (eq_of_crossFate hgo).1, fun k hk hdrives => ?_⟩
  · exfalso
    unfold crossFate at hgrade
    rcases hsettled.idle_or_holding hk with hp | ⟨x, -, -, -, g', hp⟩
    · simp only [hp] at hgrade
      cases hgrade
    · simp only [hp] at hgrade
      cases hgrade
  · obtain ⟨k', hk', b, hgo⟩ := origin_sweep hk
    obtain rfl := (eq_of_crossFate hgo).1
    rcases hsettled.idle_or_holding hk' with hp | ⟨x, hx, -, hfinish, g, hp⟩
    · rw [hp] at hdrives
      cases hdrives
    · have hkey : x.stroke.key = key := by
        rw [hp] at hdrives
        exact Option.some.inj hdrives
      exact hover k hk' (by rw [hp]; rfl) (hfinish ▸ hfree x hx hkey)

/-- The first note to come is the first one of the queue. -/
theorem OnScript.queue_eq {x : Hit} (h : s.OnScript S past (x :: coming))
    (hA : S.Aims (past ++ x :: coming)) (hlt : x.id < s.judge.nextLive)
    (hlive : x.id < s.board.live.size) : ∃ rest, s.judge.queue = x.id :: rest := by
  obtain ⟨-, hrising, hcross⟩ := List.pairwise_append.mp hA.sorted
  have hn := Array.getElem?_eq_getElem hlive
  have hwaiting := h.opened x List.mem_cons_self
  have hopen : isOpen S.notes s.board.live x.id = true := by
    obtain ⟨note, hnote, hjudgable, -⟩ := (hA.aimed x (by simp)).note
    have hnote' : S.notes[s.board.live[x.id].note]? = some note :=
      (Sheet.note?_of_stamp (h.stamps _ _ hn)).symm.trans hnote
    rw [Board.result?, hn, Option.bind_some] at hwaiting
    rw [isOpen, hn, Option.any_some, Board.isJudgable, hnote', Option.any_some, hjudgable,
      LiveNote.isJudged, hwaiting]
    rfl
  have hqueued : x.id ∈ s.judge.queue := by
    rcases h.sound.attended x.id hlt hopen with hqueued | ⟨k, hk, hlive, he⟩
    · exact hqueued
    · obtain ⟨y, hy, hy', -⟩ := h.driven k hk he
      have := hcross y hy x List.mem_cons_self
      omega
  -- The other queued notes come later.
  have hfirst : ∀ id ∈ s.judge.queue, x.id ≤ id := by
    intro id hid
    have hid' := (h.sound.queued id hid).trans_le h.sound.near
    have hm := Array.getElem?_eq_getElem hid'
    have hu := h.queued.waiting id hid
    rw [Board.result?, hm, Option.bind_some] at hu
    have hopen : isOpen S.notes s.board.live id = true := by
      rw [isOpen, hm, Option.any_some, (h.sound.admitted_queue hid).2 _ hm, LiveNote.isJudged, hu]
      rfl
    obtain ⟨y, hy, rfl⟩ := h.mem_coming hA hopen fun k hk he heq =>
      (h.sound.engaged k hk he).1 (heq ▸ hid)
    rcases List.mem_cons.mp hy with rfl | hy
    · exact le_rfl
    · exact ((List.pairwise_cons.mp hrising).1 y hy).le
  cases hqueue : s.judge.queue with
  | nil =>
      rw [hqueue] at hqueued
      cases hqueued
  | cons id rest =>
      have hsorted := h.queued.sorted
      rw [hqueue] at hqueued hfirst hsorted
      refine ⟨rest, ?_⟩
      rcases List.mem_cons.mp hqueued with heq | hlater
      · rw [heq]
      · have := (List.pairwise_cons.mp hsorted).1 x.id hlater
        have := hfirst id List.mem_cons_self
        omega

/-- A press judges the first note to come. -/
theorem OnScript.judged {x : Hit} (h : s.OnScript S past (x :: coming))
    (hA : S.Aims (past ++ x :: coming)) {j : Judge} {b : Board}
    (hits : Hits s.judge s.board x.id j b) (hqueued : x.id ∈ s.judge.queue) (hworst : j.worst = [])
    (hflawless : b.Flawless) (hresult : (b.result? x.id).isSome) :
    ({ s with judge := j, board := b } : Stage).OnScript S (past ++ [x]) coming := by
  have hother : ∀ id, id ≠ x.id → b.result? id = s.board.result? id := fun id hne => by
    rw [Board.result?, hits.judges.frame id hne, Board.result?]
  refine
    { sound := h.sound.hits hqueued hits
      queued := h.queued.hits hits
      rising := h.rising.of_frame ⟨hits.windows, hits.judges.stamp⟩
      stamps := fun id n hn => ?_
      flawless := hflawless
      worst := hworst
      begun := fun k hk => ?_
      opened := fun k hk => ?_
      driven := fun k hk he => ?_
      ends := h.ends }
  · obtain ⟨m, hm, hstamp⟩ := LiveNote.exists_of_stamps hits.judges.stamp hn
    rw [h.stamps id m hm, hstamp]
  · rcases List.mem_append.mp hk with hk | hk
    · refine (h.begun k hk).imp_left fun hjudged => ?_
      obtain ⟨g, hg⟩ := Option.isSome_iff_exists.mp hjudged
      exact Option.isSome_of_eq_some (hits.judges.final k.id g hg)
    · rw [List.mem_singleton.mp hk]
      exact .inl hresult
  · have hlt := (List.pairwise_cons.mp (List.pairwise_append.mp hA.sorted).2.1).1 k hk
    rw [hother k.id hlt.ne']
    exact h.opened k (List.mem_cons_of_mem _ hk)
  · obtain ⟨y, hy, hdriven⟩ := h.driven k hk he
    exact ⟨y, List.mem_append_left _ hy, hdriven⟩

/-- A press begins the hold of the first note to come. -/
theorem OnScript.begin {x : Hit} (h : s.OnScript S past (x :: coming)) {g : Grade} (hup : x.stroke.up = S.finish x.id)
    (htracked : x.id ∈ s.holds.holds.map Hold.live)
    (hsound : (⟨s.judge.remove x.id, s.holds.begun x.id x.stroke.key g,
      s.board.mapScore fun score => score.applyGrade g⟩ : Stage).Sound S.notes) :
    (⟨s.judge.remove x.id, s.holds.begun x.id x.stroke.key g,
      s.board.mapScore fun score => score.applyGrade g⟩ : Stage).OnScript S (past ++ [x]) coming := by
  have horigin : ∀ k ∈ (s.holds.begun x.id x.stroke.key g).holds, k ∈ s.holds.holds ∨
      k.live = x.id ∧ k.phase = .holding x.stroke.key g ∧ k.finish = S.finish x.id := by
    intro k hk
    rcases mem_modifyFirst hk with hk | ⟨k', hk', hlive, rfl⟩
    · exact .inl hk
    · rw [beq_iff_eq] at hlive
      exact .inr ⟨hlive, rfl, hlive ▸ h.ends k' hk'⟩
  have hscore : (s.board.score.applyGrade g).emptyPresses = s.board.score.emptyPresses := by
    unfold Score.applyGrade
    split_ifs <;> rfl
  refine
    { sound := hsound
      queued := h.queued.begun x.id x.stroke.key g
      rising := h.rising
      stamps := h.stamps
      flawless := h.flawless.mapScore (f := fun score => score.applyGrade g) hscore
      worst := h.worst
      begun := fun k hk => ?_
      opened := fun k hk => h.opened k (List.mem_cons_of_mem _ hk)
      driven := fun k hk he => ?_
      ends := fun k hk => ?_ }
  · rcases List.mem_append.mp hk with hk | hk
    · refine (h.begun k hk).imp_right fun ⟨k', hk', hlive, he⟩ => ?_
      rcases mem_or_mem_modifyFirst (fun k => k.live == x.id) (hold x.stroke.key g) hk' with hk' | hk'
      · exact ⟨k', hk', hlive, he⟩
      · exact ⟨_, hk'.1, hlive, rfl⟩
    · rw [List.mem_singleton.mp hk]
      obtain ⟨k', hk', hlive⟩ := List.mem_map.mp htracked
      obtain ⟨k'', hlive'', hmem⟩ := exists_mem_modifyFirst (fun k => k.live == x.id)
        (hold x.stroke.key g) hk' (beq_iff_eq.mpr hlive)
      exact .inr ⟨_, hmem, beq_iff_eq.mp hlive'', rfl⟩
  · rcases horigin k hk with hk | ⟨hlive, hphase, hfinish⟩
    · obtain ⟨y, hy, hdriven⟩ := h.driven k hk he
      exact ⟨y, List.mem_append_left _ hy, hdriven⟩
    · exact ⟨x, by simp, hlive, ⟨g, hphase⟩, hfinish.trans hup.symm⟩
  · rcases horigin k hk with hk | ⟨hlive, -, hfinish⟩
    · exact h.ends k hk
    · rw [hfinish, hlive]

/-- The first note to come is what a press at its time goes to, and gets the best grade. -/
theorem OnScript.reached {x : Hit} (h : s.OnScript S past (x :: coming))
    (hA : S.Aims (past ++ x :: coming)) (hlt : x.id < s.judge.nextLive) {n : LiveNote}
    (hn : s.board.live[x.id]? = some n) :
    Reached s.judge x.stroke.down s.board x.id n ∧
      s.judge.windows.grade (n.trigger - x.stroke.down) = .critical ∧
      s.judge.target? x.stroke.down s.board = some x.id := by
  obtain ⟨rest, hqueue⟩ := h.queue_eq hA hlt (Array.getElem?_eq_some_iff.mp hn).1
  have haimed := hA.aimed x (by simp)
  have htrigger := Sheet.trigger_of_stamp (h.stamps _ n hn)
  have hu : n.result = none := by
    have hopened := h.opened x List.mem_cons_self
    rw [Board.result?, hn, Option.bind_some] at hopened
    exact hopened
  obtain ⟨r, hr⟩ := haimed.exists_value
  obtain ⟨-, hclose, hgrade⟩ := Windows.grade_eq_critical h.sound.ordered hr haimed.early haimed.late
  rw [htrigger] at hclose hgrade
  refine ⟨⟨hqueue ▸ List.mem_cons_self, hn, hu, hclose⟩, hgrade, ?_⟩
  unfold Judge.target?
  rw [hqueue]
  refine List.find?_cons_of_pos ?_
  rw [hn, Option.any_some, reaches, LiveNote.isJudged, hu, decide_eq_true hclose]
  rfl

/-- A press with a free key at the time of the first note to come hits that note. -/
theorem OnScript.hit {x : Hit} (h : s.OnScript S past (x :: coming))
    (hA : S.Aims (past ++ x :: coming)) (hlt : x.id < s.judge.nextLive)
    (hfree : ∀ k ∈ s.holds.holds, k.phase.key? ≠ some x.stroke.key) (visit : Option Nat) :
    (s.hit (S.scene visit) x.stroke.key x.stroke.down).OnScript S (past ++ [x]) coming := by
  have hlive := hlt.trans_le h.sound.near
  have hn := Array.getElem?_eq_getElem hlive
  set n := s.board.live[x.id] with hnlive
  obtain ⟨hreached, hgrade, htarget⟩ := h.reached hA hlt hn
  have hqueued := hreached.queued
  have hclose := hreached.close
  obtain ⟨note, hnote, -, hlayers, hup⟩ := (hA.aimed x (by simp)).note
  have hnote' : S.notes[n.note]? = some note :=
    (Sheet.note?_of_stamp (h.stamps _ n hn)).symm.trans hnote
  have hsound := @Sound.hit s (S.scene visit) h.sound x.stroke.key x.stroke.down
  have hnotes : (S.scene visit).notes = S.notes := rfl
  unfold Stage.hit Judge.press at hsound ⊢
  simp only [htarget, hn, hnotes, hnote'] at hsound ⊢
  by_cases hhold : note.noteType = .hold
  · have htracked : x.id ∈ s.holds.holds.map Hold.live := by
      refine h.queued.tracked x.id hqueued ?_
      rw [isHold, hn, Option.any_some, hnote', Option.any_some, hhold]
      rfl
    obtain ⟨k, hfind⟩ : ∃ k, s.holds.find? x.id = some k := by
      rw [← Option.ne_none_iff_exists', Ne, find?_eq_none_iff, not_not]
      exact htracked
    have hmem : k ∈ s.holds.holds := List.mem_of_find?_eq_some hfind
    have hlive : k.live = x.id := by simpa using List.find?_some hfind
    obtain ⟨n', hn', hktrigger⟩ := h.sound.registered.noted k hmem
    rw [hlive, hn] at hn'
    obtain rfl := Option.some.inj hn'
    rw [← hktrigger, ← h.sound.agree] at hclose
    simp only [hhold, if_true] at hsound ⊢
    rw [start_of_find hfind hfree (isEngaged_of_queued h.sound hmem (hlive ▸ hqueued)) hclose] at hsound ⊢
    exact h.begin (hup hhold) htracked hsound
  · simp only [hhold, if_false] at hsound ⊢
    split_ifs at hsound ⊢ with hmulti
    · obtain ⟨hworst, hflawless, hresult⟩ := h.flawless.pressLayer hgrade h.worst (hlayers hmulti.1) x.id
      exact h.judged hA (hits_pressLayer hreached h.sound.worst _) hqueued hworst hflawless
        (hresult (Option.isSome_of_eq_some hn))
    · have hits := hits_pressSingle hreached h.sound.worst
      exact h.judged hA hits hqueued h.worst (h.flawless.pressSingle hgrade x.id)
        (Option.isSome_of_eq_some (Board.result?_settle hn _ n _ x.stroke.down))

/-- A press of the next stroke. -/
theorem OnScript.press {x : Hit} (h : s.OnScript S past (x :: coming))
    (hA : S.Aims (past ++ x :: coming)) (hnext : ∀ k ∈ coming, x.stroke.down ≤ k.stroke.down)
    (hfree : ∀ p ∈ past, p.stroke.key = x.stroke.key → p.stroke.up ≤ x.stroke.down)
    (hplanned : x.id < s.board.live.size) (visit : Option Nat) :
    (s.press (S.scene visit) x.stroke.key x.stroke.down).OnScript S (past ++ [x]) coming := by
  have haimed := hA.aimed x (by simp)
  have hself := le_self (isNumber_of_isFinite haimed.finite)
  have hwait : ∀ k ∈ x :: coming, x.stroke.down ≤ k.stroke.down := fun k hk =>
    (List.mem_cons.mp hk).elim (fun heq => heq ▸ hself) (hnext k)
  obtain ⟨hresumed, hready, hkeyfree⟩ := h.ready hA hwait hfree visit
  have hmaintained := h.maintain hA hwait visit
  have hsize := (@frame_maintain s (S.scene visit) h.sound x.stroke.down).size
  have hn := Array.getElem?_eq_getElem (hsize.symm ▸ hplanned)
  have htrigger := Sheet.trigger_of_stamp (hmaintained.stamps _ _ hn)
  obtain ⟨r, hr⟩ := haimed.exists_value
  have hnear := (Windows.grade_eq_critical h.sound.ordered hr haimed.early haimed.late).1
  rw [htrigger] at hnear
  have hlt : x.id < (s.ready (S.scene visit) x.stroke.key x.stroke.down).2.judge.nextLive :=
    @lt_nextLive_maintain s (S.scene visit) h.sound h.rising x.stroke.down x.id _ hn hnear
  rw [press_eq, hresumed, if_neg Bool.false_ne_true]
  exact hready.hit hA hlt hkeyfree visit

/-- Edges that follow the strokes, of which some are judged and some wait. -/
theorem OnScript.edges {judged waiting : List Edge} (h : s.OnScript S past coming)
    (hA : S.Aims (past ++ coming))
    (hf : Autoplay.Follows (past.map Hit.stroke) (coming.map Hit.stroke) (judged ++ waiting))
    (hplanned : ∀ x ∈ coming, x.stroke.press ∈ judged → x.id < s.board.live.size)
    (visit : Option Nat) :
    ∃ past' coming', past' ++ coming' = past ++ coming ∧
      Autoplay.Follows (past'.map Hit.stroke) (coming'.map Hit.stroke) waiting ∧
        (judged.foldl (fun s e => s.edge (S.scene visit) e) s).OnScript S past' coming' := by
  induction judged generalizing s past coming with
  | nil => exact ⟨past, coming, rfl, hf, h⟩
  | cons e judged ih =>
      have hsize := (@frame_edge s (S.scene visit) h.sound e).size
      generalize hbegun : past.map Hit.stroke = strokes at hf
      generalize hopened : coming.map Hit.stroke = strokes' at hf
      cases hf with
      | press free next hf =>
          cases coming with
          | nil => cases hopened
          | cons x coming =>
              obtain ⟨rfl, hrest⟩ := List.cons.inj hopened
              have hassoc : past ++ [x] ++ coming = past ++ x :: coming := by simp
              have hstep := h.press hA (fun k hk => next _ (hrest ▸ List.mem_map_of_mem hk))
                (fun p hp => free _ (hbegun ▸ List.mem_map_of_mem hp))
                (hplanned x List.mem_cons_self List.mem_cons_self) visit
              obtain ⟨past', coming', hsplit, hfollows, hon⟩ := ih hstep (hassoc ▸ hA)
                (by simpa [hbegun, hrest] using hf) fun k hk hmem =>
                  hsize.symm ▸ hplanned k (List.mem_cons_of_mem _ hk) (List.mem_cons_of_mem _ hmem)
              exact ⟨past', coming', hsplit.trans hassoc, hfollows, hon⟩
      | release hup ended hf =>
          have hstep := h.release hA fun p hp => ended _ (hbegun ▸ List.mem_map_of_mem hp)
          have hedge : s.edge (S.scene visit) e = s.release e.key e.time := by
            unfold Stage.edge
            rw [hup, if_neg Bool.false_ne_true]
          rw [List.foldl_cons, hedge]
          exact ih hstep hA (hbegun ▸ hopened ▸ hf) fun k hk hmem => by
            rw [← hedge, hsize]
            exact hplanned k hk (List.mem_cons_of_mem _ hmem)

/-! ### The end -/

/-- When all strokes are over, every judgable note has the best grade, and nothing was charged. -/
theorem OnScript.finished (h : s.OnScript S past []) (hA : S.Aims past) {now : Float}
    (hover : ∀ k ∈ s.holds.holds, k.phase.isEngaged = true → ¬ k.finish ≤ now)
    (hups : ∀ x ∈ past, x.stroke.up ≤ now) :
    (∀ id note, S.note? id = some note → note.noteType.isJudgable = true →
      s.board.result? id = some .critical) ∧
      s.board.score.errors = 0 ∧ s.board.score.emptyPresses = 0 := by
  refine ⟨fun id note hnote hjudgable => ?_, ?_, h.flawless.empty⟩
  · obtain ⟨x, hx, rfl⟩ := hA.complete id note hnote hjudgable
    rcases h.begun x hx with hjudged | ⟨k, hk, -, he⟩
    · obtain ⟨g, hg⟩ := Option.isSome_iff_exists.mp hjudged
      rw [hg, h.flawless.best x.id g hg]
    · obtain ⟨y, hy, -, -, hfinish⟩ := h.driven k hk he
      exact absurd (hfinish ▸ hups y hy) (hover k hk he)
  · have hlate : s.board.score.grades.tooLate = 0 := by
      refine (h.sound.tallied.grades .tooLate).trans (Array.countP_eq_zero.mpr fun n hn hlate => ?_)
      obtain ⟨id, hid, rfl⟩ := Array.mem_iff_getElem.mp hn
      have hresult : s.board.result? id = some .tooLate := by
        rw [Board.result?, Array.getElem?_eq_getElem hid, Option.bind_some]
        exact beq_iff_eq.mp hlate
      cases h.flawless.best id .tooLate hresult
    rw [h.sound.tallied.errors, hlate, h.flawless.empty]

/-! ### More live notes -/

theorem result?_append (b : Board) {more : Array LiveNote} (hfresh : ∀ n ∈ more, n.result = none)
    (id : Nat) : ({ b with live := b.live ++ more } : Board).result? id = b.result? id := by
  change ((b.live ++ more)[id]?).bind LiveNote.result = (b.live[id]?).bind LiveNote.result
  rw [Array.getElem?_append]
  split_ifs with hid
  · rfl
  · rw [Array.getElem?_eq_none (Nat.le_of_not_lt hid), Option.bind_none, Option.bind_eq_none_iff]
    exact fun n hn => hfresh n (Array.mem_of_getElem? hn)

/-- Stamping more live notes keeps a stage on its script. -/
theorem OnScript.append (h : s.OnScript S past coming) {more : Array LiveNote}
    (hfresh : ∀ n ∈ more, n.result = none) {s' : Stage}
    (hs' : s' = { s with board := { s.board with live := s.board.live ++ more } })
    (hsound : s'.Sound S.notes) (hqueued : s'.Queued S.notes) (hrising : s'.Rising)
    (hstamps : ∀ (id : Nat) (n : LiveNote), s'.board.live[id]? = some n → S.all[id]? = some n.stamp) :
    s'.OnScript S past coming := by
  have hresult : ∀ id, s'.board.result? id = s.board.result? id := fun id => by
    rw [hs']
    exact result?_append s.board hfresh id
  have hholds : s'.holds = s.holds := by rw [hs']
  have hscore : s'.board.score = s.board.score := by rw [hs']
  have hworst : s'.judge = s.judge := by rw [hs']
  exact
    { sound := hsound
      queued := hqueued
      rising := hrising
      stamps := hstamps
      flawless := ⟨hscore ▸ h.flawless.empty, fun id g hg => h.flawless.best id g (hresult id ▸ hg)⟩
      worst := hworst ▸ h.worst
      begun := fun k hk => by rw [hresult, hholds]; exact h.begun k hk
      opened := fun k hk => (hresult k.id).trans (h.opened k hk)
      driven := hholds ▸ h.driven
      ends := hholds ▸ h.ends }

end Stage

end RhythmChart
