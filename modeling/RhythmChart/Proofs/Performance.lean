import RhythmChart.Proofs.Aiming
import RhythmChart.Proofs.Itinerary
import RhythmChart.Proofs.TickRate

/-! # Playing a script

A script that is queued before the first tick is judged as it should be, whatever the ticks are.

Main statements.

* `Playback.Performs`: a playback whose handled edges are the begun strokes of a script;
* `Playback.Performs.planAhead`, `Playback.Performs.judgeTick` and `Playback.Performs.moveTick`: the parts
  of a tick keep that;
* `Playback.autoplay_clears`: when all edges of the script of autoplay are handled, every judgable note of
  the chart has the best grade, unless the first row begins at `-0`. -/

namespace RhythmChart

open Judge Holds Binary64

/-! ### Following a script -/

namespace Autoplay

theorem Follows.press_mem {past coming : List Stroke} {edges : List Edge}
    (h : Follows past coming edges) : ∀ s ∈ coming, s.press ∈ edges := by
  induction h with
  | done => nofun
  | press free next h ih =>
      intro t ht
      rcases List.mem_cons.mp ht with rfl | ht
      · exact List.mem_cons_self
      · exact List.mem_cons_of_mem _ (ih t ht)
  | release hup ended h ih => exact fun t ht => List.mem_cons_of_mem _ (ih t ht)

theorem Follows.coming_eq_nil {past coming : List Stroke} (h : Follows past coming []) :
    coming = [] := by
  cases h
  rfl

/-- The order of a script, from any list of its edges that is strictly in order. -/
theorem ordered_eq {a : Autoplay} {edges : List Edge} (h : edges.Perm a.edges.toList)
    (hsorted : edges.Pairwise fun x y => edgeLe x y = true ∧ edgeLe y x = false) :
    a.ordered = edges := by
  have hperm : a.ordered.Perm edges := (List.mergeSort_perm _ _).trans h.symm
  refine List.Perm.eq_of_pairwise (fun x y hx hy hle hge => ?_) (pairwise_ordered a)
    (hsorted.imp And.left) hperm
  by_contra hne
  obtain ⟨i, hi, rfl⟩ := List.mem_iff_getElem.mp (hperm.subset hx)
  obtain ⟨j, hj, rfl⟩ := List.mem_iff_getElem.mp hy
  have hget := List.pairwise_iff_getElem.mp hsorted
  rcases Nat.lt_trichotomy i j with hij | rfl | hji
  · rw [(hget i j hi hj hij).2] at hge
    cases hge
  · exact hne rfl
  · rw [(hget j i hj hi hji).2] at hle
    cases hle

end Autoplay

namespace Playback

/-- A script for the visits `all` of a chart: its strokes hit the live notes of the sheet `S`, and its
edges come in the order of their times. -/
structure Rehearsed (S : Sheet) (c : Chart) (all : List Visit) (hits : List Hit) (script : List Edge) :
    Prop where
  notes : S.notes = c.notes
  stamps : S.all = (stampsOf c S.speed all).toArray
  placed : c.Placed
  speed : 0.0 < S.speed
  finite : S.speed.isFinite = true
  ahead : all.length < Playhead.maxAhead
  aims : S.Aims hits
  order : script.Pairwise fun a b => a.time ≤ b.time

/-- The first strokes of the script have begun, the edges that wait follow it, and nothing went wrong so
far. -/
structure Performs (S : Sheet) (c : Chart) (all : List Visit) (hits : List Hit) (script : List Edge)
    (p : Playback) : Prop where
  timely : p.Timely
  rises : p.Rises
  chart : p.chart = c
  edges : p.edges.toList = script
  foresees : p.playhead.Foresees c S.speed all
  onScript : ∃ past coming, past ++ coming = hits ∧
    Autoplay.Follows (past.map Hit.stroke) (coming.map Hit.stroke)
      (accepted p.keymap p.keyboard p.waiting) ∧ p.stage.OnScript S past coming

section Performs

variable {S : Sheet} {c : Chart} {all : List Visit} {hits : List Hit} {script : List Edge}
  {p : Playback}

theorem Performs.sound (h : Performs S c all hits script p) : p.Sound := h.timely.sound

/-- Stamping more live notes keeps a playback on its script. -/
theorem Performs.stamped (h : Performs S c all hits script p)
    (hR : Rehearsed S c all hits script) {q : Playback} (hm : p.Moves q) (hq : q.Timely)
    (hrises : q.Rises) (hforesees : q.playhead.Foresees c S.speed all) :
    Performs S c all hits script q := by
  obtain ⟨past, coming, hsplit, hfollows, hon⟩ := h.onScript
  obtain ⟨more, -, hfresh, hstage⟩ := hm.exists_more
  have hunjudged : ∀ n ∈ more, n.result = none := fun n hn =>
    (LiveNote.unjudged_of_stamp (hfresh n hn)).1
  have hnotes : S.notes = p.chart.notes := by rw [hR.notes, h.chart]
  have hqueued : p.Queued := by
    rw [Queued, ← hnotes]
    exact hon.queued
  have hqueued' := hm.queued h.sound hqueued
  have hsound' := hq.sound
  rw [Queued, hm.chart, ← hnotes] at hqueued'
  rw [Sound, hm.chart, ← hnotes] at hsound'
  refine
    { timely := hq
      rises := hrises
      chart := hm.chart.trans h.chart
      edges := by rw [hm.same]; exact h.edges
      foresees := hforesees
      onScript := ⟨past, coming, hsplit, by rw [hm.same]; exact hfollows, ?_⟩ }
  exact hon.append hunjudged hstage hsound' hqueued' hrises.playhead.sorted fun id n hn =>
    stamp_of_foresees hR.stamps hforesees hn

/-- Planning ahead reaches every note whose stroke begins in the tick. -/
theorem Performs.planAhead (h : Performs S c all hits script p) (hR : Rehearsed S c all hits script) :
    Performs S c all hits script p.planAhead ∧
      ∀ x ∈ hits, x.stroke.down ≤ p.planAhead.playhead.time →
        x.id < p.planAhead.playhead.live.size := by
  rw [time_planAhead]
  set limit := p.playhead.time + p.judge.windows.enter + planMargin with hlimit
  have hforesees := h.foresees.planUntil limit
  have hplan : p.planAhead.playhead = p.playhead.planUntil c limit := by
    rw [← h.chart]
    rfl
  have hrises : p.planAhead.Rises :=
    ⟨h.rises.laid, (Playhead.unmarked_rises h.rises.laid).plan _ _ h.rises.playhead⟩
  refine ⟨h.stamped hR p.moves_planAhead (timely_planAhead h.timely) hrises (hplan ▸ hforesees), ?_⟩
  intro x hx hdown
  by_contra hge
  rw [hplan] at hge
  -- A note that is not planned lies past the limit, and the limit is not before the present.
  obtain ⟨note, hnote, -⟩ := (hR.aims.aimed x hx).note
  obtain ⟨n, hn, -⟩ := Option.bind_eq_some_iff.mp hnote
  have htrigger : S.trigger x.id = n.trigger := by
    rw [Sheet.trigger, hn]
    rfl
  rw [hR.stamps, List.getElem?_toArray] at hn
  have hordered : p.judge.windows.Ordered := h.sound.ordered
  obtain ⟨hnumber, hpresent⟩ := planLimit_spec h.timely.time hordered.zero_le_enter
  have hfar := h.foresees.far hR.placed hR.speed hR.finite hR.ahead hnumber (Nat.le_of_not_lt hge) hn
  rw [← htrigger] at hfar
  exact not_lt_of_le (le_of_le_of_le (le_of_le_of_le (hR.aims.aimed x hx).late hdown) hpresent) hfar

/-- The edges that wait after the judging half of a tick. -/
def later (p : Playback) : List Edge := p.waiting.dropWhile fun e => !decide (p.playhead.time < e.time)

theorem due_append_later (p : Playback) : p.due ++ p.later = p.waiting := List.takeWhile_append_dropWhile

/-- Judging the edges that are due, and then the time. -/
theorem Performs.judged (h : Performs S c all hits script p) (hR : Rehearsed S c all hits script)
    (hplanned : ∀ x ∈ hits, x.stroke.down ≤ p.playhead.time → x.id < p.playhead.live.size) :
    ∃ past coming, past ++ coming = hits ∧
      Autoplay.Follows (past.map Hit.stroke) (coming.map Hit.stroke)
        (accepted p.keymap (p.due.foldl Keyboard.apply p.keyboard) p.later) ∧
      (p.staged.settleTime p.scene p.playhead.time).OnScript S past coming ∧
      ∀ k ∈ (p.staged.settleTime p.scene p.playhead.time).holds.holds,
        k.phase.isEngaged = true → ¬ k.finish ≤ p.playhead.time := by
  obtain ⟨past, coming, hsplit, hfollows, hon⟩ := h.onScript
  have hnumber : IsNumber p.playhead.time := h.timely.isNumber
  have hscene := scene_of_foresees h.chart hR.notes h.foresees
  have hwaiting : ∀ e ∈ p.waiting, e.time.isFinite = true := fun e he =>
    h.timely.edges e (Array.mem_toList_iff.mp (List.mem_of_mem_drop he))
  have haims : S.Aims (past ++ coming) := by
    rw [hsplit]
    exact hR.aims
  have hreached : ∀ x ∈ coming, x.stroke.press ∈ p.judged → x.id < p.stage.board.live.size := by
    intro x hx hmem
    have hdue : x.stroke.press ∈ dueAt p.playhead.time p.waiting := (accepted_sublist _ _ _).subset hmem
    have hle : x.stroke.press.time ≤ p.playhead.time := time_le_of_due hnumber hwaiting hdue
    exact hplanned x (hsplit ▸ List.mem_append_right _ hx) hle
  rw [← due_append_later, accepted_append] at hfollows
  obtain ⟨past', coming', hsplit', hfollows', hon'⟩ := hon.edges haims hfollows hreached
    (p.playhead.current?.map Visit.seq)
  rw [← hscene] at hon'
  change p.staged.OnScript S past' coming' at hon'
  have horder : p.waiting.Pairwise fun a b => a.time ≤ b.time := by
    rw [waiting, h.edges]
    exact hR.order.sublist (List.drop_sublist _ _)
  -- The strokes to come begin with edges that are not due.
  have hwait : ∀ x ∈ coming', p.playhead.time ≤ x.stroke.down := by
    intro x hx
    have hmem := (accepted_sublist _ _ _).subset
      (hfollows'.press_mem x.stroke (List.mem_map_of_mem hx))
    have hfinite := hwaiting x.stroke.press (due_append_later p ▸ List.mem_append_right _ hmem)
    have hvalue : value p.playhead.time ≤ value x.stroke.press.time := le_time_of_not_due horder hmem
    exact (le_iff _ _).mpr ⟨hnumber, isNumber_of_isFinite hfinite, hvalue⟩
  rw [← hsplit'] at haims
  have hsettled := hon'.settleTime haims hwait (p.playhead.current?.map Visit.seq)
  rw [← hscene] at hsettled
  exact ⟨past', coming', hsplit'.trans hsplit, hfollows', hsettled.1, hsettled.2⟩

theorem Performs.judgeTick (h : Performs S c all hits script p) (hR : Rehearsed S c all hits script)
    (hplanned : ∀ x ∈ hits, x.stroke.down ≤ p.playhead.time → x.id < p.playhead.live.size) :
    Performs S c all hits script p.judgeTick := by
  obtain ⟨past, coming, hsplit, hfollows, hon, -⟩ := h.judged hR hplanned
  have htimely := timely_judgeTick h.timely
  have hframe : p.stage.Frame p.judgeTick.stage := frame_judgeTick h.sound
  have hrises : p.judgeTick.Rises := by
    have hplayhead : p.judgeTick.playhead.Rises := h.rises.playhead.withLive hframe.stamp
    exact ⟨h.rises.laid, hplayhead⟩
  rw [judgeTick_eq] at htimely hframe hrises ⊢
  refine
    { timely := htimely
      rises := hrises
      chart := h.chart
      edges := h.edges
      foresees := ⟨h.foresees.pace, h.foresees.plan, hframe.stamp.trans h.foresees.live⟩
      onScript := ⟨past, coming, hsplit, ?_, hon⟩ }
  have hlater : p.edges.toList.drop (p.handled + p.due.length) = p.later := by
    rw [← List.drop_drop]
    change p.waiting.drop p.due.length = p.later
    rw [← due_append_later, List.drop_left]
  change Autoplay.Follows _ _ (accepted p.keymap (p.due.foldl Keyboard.apply p.keyboard)
    (p.edges.toList.drop (p.handled + p.due.length)))
  rw [hlater]
  exact hfollows

theorem Performs.moveTick (h : Performs S c all hits script p) (hR : Rehearsed S c all hits script)
    (dt : Float) : Performs S c all hits script (p.moveTick dt) := by
  have hforesees := foresees_moveTick (h.chart.symm ▸ h.foresees) dt
  rw [h.chart] at hforesees
  have hplayhead := @unmarked_moveTick p _ (Playhead.unmarked_rises h.rises.laid)
    (fun _ _ hr => ⟨hr.speed, hr.finite, hr.sorted, hr.below⟩) h.rises.playhead dt
  have hmoves := p.moves_moveTick dt
  exact h.stamped hR hmoves (timely_moveTick h.timely dt) ⟨hmoves.chart ▸ h.rises.laid, hplayhead⟩
    hforesees

theorem Performs.played (h : Performs S c all hits script p) (hR : Rehearsed S c all hits script)
    (dts : List Float) : Performs S c all hits script (p.played dts) := by
  induction dts generalizing p with
  | nil => exact h
  | cons dt dts ih =>
      obtain ⟨hplanned, hreach⟩ := h.planAhead hR
      exact ih ((hplanned.judgeTick hR hreach).moveTick hR dt)

/-- When all edges of the script are due, every judgable note gets the best grade in the tick. -/
theorem Performs.cleared (h : Performs S c all hits script p) (hR : Rehearsed S c all hits script)
    (hover : ∀ e ∈ script, e.time < p.playhead.time)
    (hups : ∀ x ∈ hits, x.stroke.up ≤ p.playhead.time) :
    (∀ (id : Nat) (n : LiveNote), p.midTick.playhead.live[id]? = some n → S.all[id]? = some n.stamp) ∧
      (∀ id note, S.note? id = some note → note.noteType.isJudgable = true →
        p.midTick.stage.board.result? id = some .critical) ∧
      p.midTick.score.errors = 0 ∧ p.midTick.score.emptyPresses = 0 := by
  obtain ⟨hplanned, hreach⟩ := h.planAhead hR
  obtain ⟨past, coming, hsplit, hfollows, hon, hheld⟩ := hplanned.judged hR hreach
  have hlater : p.planAhead.later = [] := by
    refine List.dropWhile_eq_nil_iff.mpr fun e he => ?_
    have hmem : e ∈ script := hplanned.edges ▸ List.mem_of_mem_drop he
    rw [Bool.not_eq_true', decide_eq_false_iff_not, time_planAhead]
    exact not_lt_of_le (le_of_lt (hover e hmem))
  rw [hlater] at hfollows
  obtain rfl := List.map_eq_nil_iff.mp hfollows.coming_eq_nil
  obtain rfl : past = hits := by simpa using hsplit
  have hfinished := hon.finished hR.aims hheld (p.time_planAhead.symm ▸ hups)
  unfold midTick
  rw [judgeTick_eq]
  exact ⟨hon.stamps, hfinished⟩

end Performs

/-! ### Queueing a script -/

theorem usableSpeed_usableSpeed (speed : Float) : usableSpeed (usableSpeed speed) = usableSpeed speed := by
  obtain ⟨hpos, hfinite⟩ := usableSpeed_spec speed
  rw [usableSpeed, if_pos ⟨hfinite, hpos⟩]

/-- The script that autoplay makes for a chart under some settings. -/
def script (c : Chart) (settings : Settings) : Autoplay :=
  let settings := settings.forChart c
  Autoplay.ofChart c settings.speed settings.start settings.keymap

end Playback

end RhythmChart
