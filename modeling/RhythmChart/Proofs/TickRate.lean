import RhythmChart.Proofs.Edges
import RhythmChart.Proofs.Flow.Sites
import RhythmChart.Proofs.Outlook

/-! # Verdicts do not depend on the tick rate

A playback is compared with a desk that is told of the edges only.

Main statements.

* `Playback.Plays`: what a playback has in common with the desk, between any two halves of a tick;
* `Playback.Plays.planAhead`, `Playback.Plays.judgeTick` and `Playback.Plays.moveTick`: the parts of a
  tick keep that;
* `Playback.verdicts_agree`: two playbacks of the same edges that are at the same time have given the
  same verdicts, however many ticks it took them to get there. -/

namespace RhythmChart

open Judge Holds Binary64

namespace Playback

/-! ### Ticks -/

/-- The playback in the middle of its next tick: after judging, before time goes on. -/
def midTick (p : Playback) : Playback := p.planAhead.judgeTick

/-- The playback after some more ticks. -/
def played (p : Playback) (dts : List Float) : Playback := dts.foldl tick p

/-- The live notes that the queue misses in the judging half of a tick. -/
def TickLapses (p : Playback) (id : Nat) : Prop :=
  Stage.EdgesLapse p.scene p.judged p.stage id ∨ p.staged.Lapses p.scene p.playhead.time id

/-- The live notes that the queue misses in some ticks and in the judging half of the next one. -/
def Lapses : Playback → List Float → Nat → Prop
  | p, [], id => p.planAhead.TickLapses id
  | p, dt :: dts, id => p.planAhead.TickLapses id ∨ Lapses (p.tick dt) dts id

/-! ### Playbacks and desks -/

/-- What is assumed of a chart, its sheet and its visits: that planning gets along with the bounds on
visits and queued notes, and that the entry window is no wider than halves of seconds count. -/
structure Playable (S : Sheet) (c : Chart) (all : List Visit) : Prop where
  placed : c.Placed
  notes : S.notes = c.notes
  stamps : S.all = (stampsOf c S.speed all).toArray
  speed : 0.0 < S.speed
  finite : S.speed.isFinite = true
  ahead : all.length < Playhead.maxAhead
  few : S.all.size ≤ maxScan
  enter : S.windows.enter < 4503599627370496.0

/-- The desk after some edges. -/
def deskAfter (S : Sheet) (keymap : Keymap) (edges : List Edge) : Desk :=
  (accepted keymap .atRest edges).foldl (fun x e => x.edge S e) .fresh

/-- The playback is like the desk `x`, its queue has missed the notes `L`, and the desk is one that was
told the edges that are handled and, at times up to `last`, the time. -/
structure Plays (S : Sheet) (c : Chart) (all : List Visit) (queued : List Edge) (keys : Keymap)
    (L : Nat → Prop) (last : EReal) (p : Playback) (x : Desk) : Prop where
  timely : p.Timely
  chart : p.chart = c
  keymap : p.keymap = keys
  edges : p.edges.toList = queued
  order : queued.Pairwise fun a b => a.time ≤ b.time
  foresees : p.playhead.Foresees c S.speed all
  keyboard : p.keyboard = (queued.take p.handled).foldl Keyboard.apply .atRest
  handled : ∀ e ∈ queued.take p.handled, value e.time ≤ last
  waiting : ∀ e ∈ queued.drop p.handled, last ≤ value e.time
  clock : last ≤ value p.playhead.time
  shows : p.stage.Shows S L x
  agrees : Desk.AgreeFrom S last x (deskAfter S keys (queued.take p.handled))

section Plays

variable {S : Sheet} {c : Chart} {all : List Visit} {queued : List Edge} {keys : Keymap}
  {L : Nat → Prop} {last : EReal} {p : Playback} {x : Desk}

theorem Plays.finite (h : Plays S c all queued keys L last p x) (e : Edge) (he : e ∈ queued) :
    e.time.isFinite = true := by
  refine h.timely.edges e (Array.mem_def.mpr ?_)
  rw [h.edges]
  exact he

/-- A live note of a playhead that foresees all visits is stamped as it is foreseen. -/
theorem stamp_of_foresees (hstamps : S.all = (stampsOf c S.speed all).toArray) {h : Playhead}
    (hf : h.Foresees c S.speed all) {id : Nat} {n : LiveNote} (hn : h.live[id]? = some n) :
    S.all[id]? = some n.stamp := by
  obtain ⟨rest, -, hall⟩ := hf.plan
  have hstamp : (h.live.map LiveNote.stamp)[id]? = some n.stamp := by
    rw [Array.getElem?_map, hn]
    rfl
  rw [hf.live, List.getElem?_toArray] at hstamp
  rw [hstamps, List.getElem?_toArray, ← hall, stampsOf_append, List.getElem?_append_left
    (List.getElem?_eq_some_iff.mp hstamp).1]
  exact hstamp

theorem scene_of_foresees (hchart : p.chart = c) (hnotes : S.notes = c.notes)
    (hf : p.playhead.Foresees c S.speed all) :
    p.scene = S.scene (p.playhead.current?.map Visit.seq) := by
  have hspeed : p.playhead.speed = S.speed := hf.pace
  rw [scene, hchart, hspeed, Sheet.scene, hnotes]

/-- Stamping more live notes keeps a playback like its desk. -/
theorem Plays.stamped (h : Plays S c all queued keys L last p x) (hS : Playable S c all)
    {q : Playback} (hm : p.Moves q) (hq : q.Timely) (hplayhead : q.playhead.Foresees c S.speed all)
    (hclock : p.playhead.time ≤ q.playhead.time) : Plays S c all queued keys L last q x := by
  obtain ⟨more, hmore, hfresh, hstage⟩ := hm.exists_more
  have hshows := h.shows.stamp hfresh fun id n hn =>
    stamp_of_foresees hS.stamps hplayhead (show q.playhead.live[id]? = some n from hmore ▸ hn)
  rw [hm.same] at hq ⊢
  refine
    { timely := hq
      chart := h.chart
      keymap := h.keymap
      edges := h.edges
      order := h.order
      foresees := hplayhead
      keyboard := h.keyboard
      handled := h.handled
      waiting := h.waiting
      clock := h.clock.trans ((le_iff _ _).mp hclock).2.2
      shows := ?_
      agrees := h.agrees }
  rw [← hm.same, hstage]
  exact hshows

/-- The time up to which a tick plans ahead is a number, and not before that of the tick. -/
theorem planLimit_spec {now enter : Float} (hnow : 0.0 ≤ now) (henter : 0.0 ≤ enter) :
    IsNumber (now + enter + planMargin) ∧ now ≤ now + enter + planMargin := by
  have hmargin : 0.0 ≤ planMargin := by decide +kernel
  have hsum := zero_le_add hnow henter
  have hnumber := ((zero_le_iff _).mp (zero_le_add hsum hmargin)).1
  exact ⟨hnumber, le_of_le_of_le (le_add_of_isNumber ((zero_le_iff _).mp hsum).1 henter)
    (le_add_of_isNumber hnumber hmargin)⟩

/-- Planning ahead reaches everything that can come near in the tick. -/
theorem Plays.planAhead (h : Plays S c all queued keys L last p x) (hS : Playable S c all) :
    Plays S c all queued keys L last p.planAhead x ∧
      ∀ t, t ≤ p.planAhead.playhead.time → S.Covers p.planAhead.playhead.live t := by
  rw [time_planAhead]
  set limit := p.playhead.time + p.judge.windows.enter + planMargin with hlimit
  have hforesees := h.foresees.planUntil limit
  have hplan : p.planAhead.playhead = p.playhead.planUntil c limit := by
    rw [← h.chart]
    rfl
  have hwindows : p.judge.windows = S.windows := h.shows.windows
  have henter : 0.0 ≤ S.windows.enter := (hwindows ▸ h.shows.sound.ordered).zero_le_enter
  have hnumber : IsNumber limit := by
    rw [hlimit, hwindows]
    exact (planLimit_spec h.timely.time henter).1
  refine ⟨h.stamped hS p.moves_planAhead (timely_planAhead h.timely) (hplan ▸ hforesees) ?_, ?_⟩
  · exact p.time_planAhead ▸ h.timely.time_le_time
  · intro t ht n hn
    rw [hplan] at hn
    rw [hS.stamps, List.getElem?_toArray] at hn
    have hfar := h.foresees.far hS.placed hS.speed hS.finite hS.ahead hnumber le_rfl hn
    rw [hlimit, hwindows] at hfar
    exact lt_sub_of_le ht (lt_sub_of_margin h.timely.time henter hS.enter hfar)

theorem steady_deskAfter (S : Sheet) (keys : Keymap) (es : List Edge) :
    (deskAfter S keys es).Steady := by
  unfold deskAfter
  generalize accepted keys .atRest es = judged
  suffices ∀ x : Desk, x.Steady → (judged.foldl (fun x e => x.edge S e) x).Steady from
    this _ Desk.steady_fresh
  induction judged with
  | nil => exact fun x hx => hx
  | cons e judged ih => exact fun x hx => ih _ (hx.edge e)

theorem time_le_of_due {now : Float} (hnow : IsNumber now) {es : List Edge}
    (hfinite : ∀ e ∈ es, e.time.isFinite = true) {e : Edge} (he : e ∈ dueAt now es) :
    e.time ≤ now := by
  have hmem := (List.takeWhile_sublist _).subset he
  have hdue := List.mem_takeWhile_imp he
  exact le_of_not_lt hnow (isNumber_of_isFinite (hfinite e hmem)) (by simpa using hdue)

/-- Edges that are not due come later. -/
theorem le_time_of_not_due {now : Float} {es : List Edge}
    (horder : es.Pairwise fun a b => a.time ≤ b.time) {e : Edge}
    (he : e ∈ es.dropWhile fun e => !decide (now < e.time)) : value now ≤ value e.time := by
  induction es with
  | nil => cases he
  | cons first es ih =>
      obtain ⟨hfirst, hrest⟩ := List.pairwise_cons.mp horder
      by_cases hlater : now < first.time
      · rw [List.dropWhile_cons_of_neg (by simpa using hlater)] at he
        have hle := ((lt_iff _ _).mp hlater).2.2.le
        rcases List.mem_cons.mp he with rfl | he
        · exact hle
        · exact hle.trans ((le_iff _ _).mp (hfirst e he)).2.2
      · rw [List.dropWhile_cons_of_pos (by simpa using hlater)] at he
        exact ih hrest he

/-- The edges handled after a tick are those up to its time. -/
theorem Plays.take_handled (h : Plays S c all queued keys L last p x) :
    queued.take (p.handled + p.due.length) = dueAt p.playhead.time queued ∧
      queued.take p.handled ++ p.due = dueAt p.playhead.time queued := by
  have hdue : p.due = dueAt p.playhead.time (queued.drop p.handled) := by
    rw [due, Playback.waiting, h.edges]
  have hinit : p.due = (queued.drop p.handled).take p.due.length := by
    apply List.prefix_iff_eq_take.mp
    rw [hdue]
    exact List.takeWhile_prefix _
  have hjoin : queued.take p.handled ++ p.due = dueAt p.playhead.time queued := by
    have hhandled : ∀ e ∈ queued.take p.handled, (!decide (p.playhead.time < e.time)) = true := by
      intro e he
      rw [Bool.not_eq_true', decide_eq_false_iff_not]
      intro hlt
      exact absurd ((lt_iff _ _).mp hlt).2.2 (not_lt.mpr ((h.handled e he).trans h.clock))
    rw [hdue, dueAt, dueAt, ← List.takeWhile_append_of_pos hhandled, List.take_append_drop]
  refine ⟨?_, hjoin⟩
  rw [List.take_add, ← hinit, hjoin]

theorem Plays.drop_handled (h : Plays S c all queued keys L last p x) :
    queued.drop (p.handled + p.due.length) =
      queued.dropWhile fun e => !decide (p.playhead.time < e.time) := by
  have hall := List.take_append_drop (p.handled + p.due.length) queued
  rw [h.take_handled.1, dueAt] at hall
  exact List.append_cancel_left (hall.trans (List.takeWhile_append_dropWhile).symm)

theorem Plays.judged_sublist (h : Plays S c all queued keys L last p x) :
    p.judged.Sublist (queued.drop p.handled) := by
  refine (accepted_sublist _ _ _).trans ?_
  rw [due, Playback.waiting, h.edges]
  exact List.takeWhile_sublist _

/-- The edges that a tick judges are not handled before, and none of them comes after its time. -/
theorem Plays.judged_mem (h : Plays S c all queued keys L last p x) {e : Edge} (he : e ∈ p.judged) :
    e ∈ queued.drop p.handled ∧ e.time ≤ p.playhead.time := by
  have hdue : e ∈ dueAt p.playhead.time p.waiting := (accepted_sublist _ _ _).subset he
  refine ⟨h.judged_sublist.subset he, time_le_of_due h.timely.isNumber (fun k hk => ?_) hdue⟩
  rw [Playback.waiting, h.edges] at hk
  exact h.finite k (List.drop_subset _ _ hk)

theorem Plays.scene_eq (h : Plays S c all queued keys L last p x) (hS : Playable S c all) :
    p.scene = S.scene (p.playhead.current?.map Visit.seq) :=
  scene_of_foresees h.chart hS.notes h.foresees

theorem Plays.frame_staged (h : Plays S c all queued keys L last p x) (hS : Playable S c all) :
    p.stage.Frame p.staged := by
  have hsound : p.stage.Sound p.scene.notes := by
    rw [h.scene_eq hS]
    exact h.shows.sound
  exact Playback.frame_staged hsound

/-- The stage after the edges of a tick. -/
theorem Plays.staged (h : Plays S c all queued keys L last p x) (hS : Playable S c all)
    (hcovers : ∀ t, t ≤ p.playhead.time → S.Covers p.playhead.live t) :
    p.staged.Shows S (fun id => L id ∨ Stage.EdgesLapse p.scene p.judged p.stage id)
      (p.judged.foldl (fun x e => x.edge S e) x) := by
  rw [Playback.staged, h.scene_eq hS]
  exact h.shows.edges hS.few _ fun e he => hcovers _ (h.judged_mem he).2

/-- The stage after the edges of a tick and its time. -/
theorem Plays.settled (h : Plays S c all queued keys L last p x) (hS : Playable S c all)
    (hcovers : ∀ t, t ≤ p.playhead.time → S.Covers p.playhead.live t) :
    (p.staged.settleTime p.scene p.playhead.time).Shows S (fun id => L id ∨ p.TickLapses id)
      ((p.judged.foldl (fun x e => x.edge S e) x).settle S p.playhead.time) := by
  have hcovered := Stage.covers_of_size (hcovers _ h.timely.time_le_time) (h.frame_staged hS).size
  have hsettled := (h.staged hS hcovers).settleTime hS.few hcovered (p.playhead.current?.map Visit.seq)
  rw [← h.scene_eq hS] at hsettled
  simpa only [or_assoc, TickLapses] using hsettled

/-- The edges of a tick make the desk agree, at its time, with the one that was told all edges up to
then. -/
theorem Plays.agree_judged (h : Plays S c all queued keys L last p x) :
    Desk.Agree S p.playhead.time (p.judged.foldl (fun x e => x.edge S e) x)
      (deskAfter S keys (dueAt p.playhead.time queued)) := by
  have hcanon : deskAfter S keys (dueAt p.playhead.time queued) =
      p.judged.foldl (fun x e => x.edge S e) (deskAfter S keys (queued.take p.handled)) := by
    rw [deskAfter, ← h.take_handled.2, accepted_append, List.foldl_append, judged, h.keyboard, h.keymap]
    rfl
  rw [hcanon]
  exact Desk.agree_foldl (fun e he => h.finite e (List.drop_subset _ _ (h.judged_mem he).1))
    (h.order.sublist (h.judged_sublist.trans (List.drop_sublist _ _))) h.shows.steady
    (steady_deskAfter S keys _) h.agrees (fun e he => h.waiting e (h.judged_mem he).1)
    h.timely.isNumber (not_bot_of_zero_le h.timely.time) h.clock fun e he => (h.judged_mem he).2

/-- After judging, the desk is the one that was told the edges up to now and then the time. -/
theorem Plays.judgeTick (h : Plays S c all queued keys L last p x) (hS : Playable S c all)
    (hcovers : ∀ t, t ≤ p.playhead.time → S.Covers p.playhead.live t) :
    Plays S c all queued keys (fun id => L id ∨ p.TickLapses id) (value p.playhead.time) p.judgeTick
      ((deskAfter S keys (dueAt p.playhead.time queued)).settle S p.playhead.time) := by
  set now := p.playhead.time with hnow
  obtain ⟨htake, hjoin⟩ := h.take_handled
  have hnumber : IsNumber now := h.timely.isNumber
  have hbot : value now ≠ ⊥ := not_bot_of_zero_le h.timely.time
  have hsettled := h.settled hS hcovers
  rw [h.agree_judged] at hsettled
  have hframe : p.stage.Frame (p.staged.settleTime p.scene now) := by
    refine (h.frame_staged hS).trans (Stage.frame_settleTime ?_ now)
    rw [h.scene_eq hS]
    exact (h.staged hS hcovers).sound
  have htimely := timely_judgeTick h.timely
  rw [judgeTick_eq] at htimely ⊢
  refine
    { timely := htimely
      chart := h.chart
      keymap := h.keymap
      edges := h.edges
      order := h.order
      foresees := ⟨h.foresees.pace, h.foresees.plan, hframe.stamp.trans h.foresees.live⟩
      keyboard := ?_
      handled := ?_
      waiting := ?_
      clock := le_rfl
      shows := hsettled
      agrees := ?_ }
  · change p.due.foldl Keyboard.apply p.keyboard = _
    rw [htake, ← hjoin, List.foldl_append, h.keyboard]
  · intro e he
    change e ∈ queued.take (p.handled + p.due.length) at he
    rw [htake] at he
    exact ((le_iff _ _).mp (time_le_of_due hnumber h.finite he)).2.2
  · intro e he
    change e ∈ queued.drop (p.handled + p.due.length) at he
    rw [h.drop_handled] at he
    exact le_time_of_not_due h.order he
  · intro u hu hubot hle
    change Desk.Agree S u _ (deskAfter S keys (queued.take (p.handled + p.due.length)))
    rw [htake]
    exact Desk.settle_settle hbot ((le_iff _ _).mpr ⟨hnumber, hu, hle⟩) (steady_deskAfter S keys _)

theorem foresees_moveTick {q : Playback} {speed : Float}
    (hf : q.playhead.Foresees q.chart speed all) (dt : Float) :
    (q.moveTick dt).playhead.Foresees q.chart speed all :=
  unmarked_moveTick (Playhead.unmarked_foresees q.chart speed all)
    (fun _ _ hf => ⟨hf.pace, hf.plan, hf.live⟩) hf dt

/-- Moving on keeps a playback like its desk. -/
theorem Plays.moveTick (h : Plays S c all queued keys L last p x) (hS : Playable S c all)
    (dt : Float) : Plays S c all queued keys L last (p.moveTick dt) x := by
  have hforesees := foresees_moveTick (h.chart.symm ▸ h.foresees) dt
  rw [h.chart] at hforesees
  exact h.stamped hS (p.moves_moveTick dt) (timely_moveTick h.timely dt) hforesees
    (time_le_moveTick h.timely.time dt)

/-- In the middle of any later tick, what is judged is that of the desk that was told the edges up to
its time. -/
theorem Plays.midTick (h : Plays S c all queued keys L last p x) (hS : Playable S c all)
    (dts : List Float) :
    let q := p.played dts
    q.midTick.stage.Shows S (fun id => L id ∨ p.Lapses dts id)
      ((deskAfter S keys (dueAt q.playhead.time queued)).settle S q.playhead.time) := by
  intro q
  induction dts generalizing p x L last with
  | nil =>
      obtain ⟨hplanned, hcovers⟩ := h.planAhead hS
      have hjudged := (hplanned.judgeTick hS hcovers).shows
      rw [time_planAhead] at hjudged
      exact hjudged
  | cons dt dts ih =>
      obtain ⟨hplanned, hcovers⟩ := h.planAhead hS
      have hticked := (hplanned.judgeTick hS hcovers).moveTick hS dt
      have hlater := ih hticked
      simp only [or_assoc] at hlater
      exact hlater

/-- Playbacks that come to the same time are like the same desk. -/
theorem Plays.exists_shows (h : Plays S c all queued keys (fun _ => False) last p x)
    (hS : Playable S c all) (dts dts' : List Float)
    (htime : (p.played dts).playhead.time = (p.played dts').playhead.time) :
    ∃ y : Desk, (p.played dts).midTick.stage.Shows S (p.Lapses dts) y ∧
      (p.played dts').midTick.stage.Shows S (p.Lapses dts') y := by
  have hshows := h.midTick hS dts
  have hshows' := h.midTick hS dts'
  simp only [false_or] at hshows hshows'
  rw [← htime] at hshows'
  exact ⟨_, hshows, hshows'⟩

end Plays

/-! ### Loaded playbacks -/

/-- The playback of a chart with some edges queued before its first tick. -/
def loaded (c : Chart) (settings : Settings) (edges : List Edge) : Playback :=
  edges.foldl queueEdge (ofChart c settings)

/-- All visits of a chart. -/
def fullPlan (c : Chart) (settings : Settings) : List Visit :=
  let settings := settings.forChart c
  let speed := usableSpeed settings.speed
  (Plan.ofChart (c.stamped speed settings.start).1 speed settings.start).visits.toList

/-- The number of live notes of a chart. -/
def fullCount (c : Chart) (settings : Settings) : Nat :=
  ((fullPlan c settings).map fun v => (((ofChart c settings).chart).notesAt v.row).length).sum

theorem length_stampsOf (c : Chart) (speed : Float) (visits : List Visit) :
    (stampsOf c speed visits).length = (visits.map fun v => (c.notesAt v.row).length).sum := by
  unfold stampsOf
  rw [List.length_flatMap]
  congr 1
  exact List.map_congr_left fun v _ => List.length_map _

/-- Before anything is stamped. -/
theorem shows_fresh {S : Sheet} {w : Windows} (hw : S.windows = w.clamped) :
    (⟨.fresh S.windows, .fresh S.windows, ⟨#[], .zero, #[]⟩⟩ : Stage).Shows S (fun _ => False)
      .fresh :=
  { sound := hw ▸ sound_fresh S.notes w
    steady := Desk.steady_fresh
    windows := rfl
    stamps := fun id n hn => by simp at hn
    queue := rfl
    next := rfl
    worst := fun _ => rfl
    grade := fun id => by simp [Board.record, Board.result?, Desk.record, Desk.fresh]
    layers := fun id => by simp [Board.record, Desk.record, Desk.fresh]
    times := fun id _ => rfl
    lapsed := fun id => by simp [Desk.fresh]
    waiting := fun _ _ => rfl
    nodup := List.nodup_nil
    holds := fun _ h => (nomatch h)
    tracked := fun _ h => (nomatch h) }

/-- Queueing edges changes the edges only. -/
theorem loaded_eq (c : Chart) (settings : Settings) (edges : List Edge) :
    loaded c settings edges = { ofChart c settings with edges := (loaded c settings edges).edges } ∧
      (loaded c settings edges).InOrder ∧ (loaded c settings edges).Timely := by
  suffices ∀ p : Playback, p = { ofChart c settings with edges := p.edges } → p.InOrder → p.Timely →
      edges.foldl queueEdge p = { ofChart c settings with edges := (edges.foldl queueEdge p).edges } ∧
        (edges.foldl queueEdge p).InOrder ∧ (edges.foldl queueEdge p).Timely from
    this _ rfl List.Pairwise.nil (timely_ofChart c settings)
  induction edges with
  | nil => exact fun p heq horder htimely => ⟨heq, horder, htimely⟩
  | cons e edges ih =>
      intro p heq horder htimely
      refine ih _ ?_ (inOrder_queueEdge horder htimely.edges (by rw [heq]; rfl) e)
        (timely_queueEdge htimely e)
      obtain ⟨es, rfl⟩ : ∃ es, p = { ofChart c settings with edges := es } := ⟨p.edges, heq⟩
      unfold queueEdge
      split_ifs <;> rfl

/-- A playhead at the start foresees the visits that its planner goes on to plan. -/
theorem foresees_ofChart {c : Chart} {speed start : Float} {all : List Visit}
    (hall : Planner.Plans c (.ofChart c speed start) all) :
    (Playhead.ofChart c speed start).Foresees c (usableSpeed speed) all := by
  have hunplanned : (Playhead.unplanned c speed start).Foresees c (usableSpeed speed) all :=
    ⟨rfl, ⟨all, hall, rfl⟩, by simp [Playhead.unplanned, stampsOf]⟩
  have hplanned := hunplanned.planUntil start
  unfold Playhead.ofChart
  dsimp only
  split_ifs
  · exact ⟨hplanned.pace, hplanned.plan, hplanned.live⟩
  · exact hplanned

/-- These are the first of all visits. -/
theorem exists_foresees (c : Chart) (speed start : Float)
    (hsize : (Plan.ofChart c speed start).visits.size ≤ Planner.maxVisits) :
    ∃ all, all <+: (Plan.ofChart c speed start).visits.toList ∧
      (Playhead.ofChart c speed start).Foresees c (usableSpeed speed) all := by
  obtain ⟨all, hall, hinit⟩ := exists_plans c (Planner.maxVisits + 1) (.ofChart c speed start)
    ⟨#[], (Traversal.chartNotices c).toArray⟩ (Nat.lt_succ_of_le hsize)
  exact ⟨all, hinit, foresees_ofChart hall⟩

/-- A loaded playback is like a desk that was not told anything. -/
theorem exists_plays (text : String) (settings : Settings) (edges : List Edge)
    (hvisits : (fullPlan (.ofText text) settings).length < Playhead.maxAhead)
    (hcount : fullCount (.ofText text) settings < maxScan)
    (henter : settings.windows.clamped.enter < 4503599627370496.0) :
    ∃ S c all queued keys, Playable S c all ∧
      Plays S c all queued keys (fun _ => False) ⊥ (loaded (.ofText text) settings edges) .fresh := by
  set c := Chart.ofText text with hc
  set p := ofChart c settings with hp
  set speed := usableSpeed (usableSpeed (settings.forChart c).speed) with hspeed
  obtain ⟨all, hinit, hforesees⟩ := exists_foresees p.chart (usableSpeed (settings.forChart c).speed)
    (settings.forChart c).start (Nat.le_of_lt (Nat.lt_trans hvisits (by decide)))
  change all <+: fullPlan c settings at hinit
  change p.playhead.Foresees p.chart speed all at hforesees
  obtain ⟨heq, horder, htimely⟩ := loaded_eq c settings edges
  set S : Sheet := ⟨settings.windows.clamped, p.chart.notes, (stampsOf p.chart speed all).toArray,
    speed⟩ with hS
  have hplayable : Playable S p.chart all :=
    { placed := (Chart.placed_ofText text).stamped _ _
      notes := rfl
      stamps := rfl
      speed := (usableSpeed_spec _).1
      finite := (usableSpeed_spec _).2
      ahead := hinit.length_le.trans_lt hvisits
      few := by
        have hle : S.all.size ≤ fullCount c settings := by
          rw [hS, List.size_toArray, length_stampsOf]
          exact (hinit.sublist.map _).sum_le_sum fun _ _ => Nat.zero_le _
        exact hle.trans hcount.le
      enter := henter }
  refine ⟨S, p.chart, all, (loaded c settings edges).edges.toList, settings.keymap, hplayable, ?_⟩
  obtain ⟨more, hmore, hstamped⟩ : Stamped #[] p.playhead.live :=
    (Playhead.stamps_ofChart _ _ _).live
  have hshows : p.stage.Shows S (fun _ => False) .fresh := by
    have hstage : p.stage = ⟨.fresh S.windows, .fresh S.windows, ⟨#[] ++ more, .zero, #[]⟩⟩ := by
      rw [← hmore]
      rfl
    rw [hstage]
    exact (shows_fresh rfl).stamp hstamped fun id n hn =>
      stamp_of_foresees hplayable.stamps hforesees (show p.playhead.live[id]? = some n from hmore ▸ hn)
  have hhandled : (loaded c settings edges).handled = 0 := by rw [heq]; rfl
  refine
    { timely := htimely
      chart := by rw [heq]
      keymap := by rw [heq]; rfl
      edges := rfl
      order := horder
      foresees := by rw [heq]; exact hforesees
      keyboard := by rw [heq]; rfl
      handled := by simp [hhandled]
      waiting := fun _ _ => bot_le
      clock := bot_le
      shows := by rw [heq]; exact hshows
      agrees := ?_ }
  rw [hhandled]
  exact fun _ _ _ _ => rfl

/-- Stages that are like the same desk have given the same verdicts. -/
theorem verdict_of_shows {S : Sheet} {L L' : Nat → Prop} {s s' : Stage} {x : Desk}
    (h : s.Shows S L x) (h' : s'.Shows S L' x) {id : Nat} {n n' : LiveNote}
    (hn : s.board.live[id]? = some n) (hn' : s'.board.live[id]? = some n') :
    n.stamp = n'.stamp ∧ n.isJudged = n'.isJudged ∧ n.result = n'.result ∧
      n.layersDone = n'.layersDone ∧ (L id ↔ L' id) ∧
        (¬ L id → Board.finalTimes s.board.judgments id = Board.finalTimes s'.board.judgments id) := by
  have hresult : n.result = n'.result := by
    have hgrade := (h.grade id).trans (h'.grade id).symm
    simpa [Board.record, Board.result?, hn, hn'] using hgrade
  have hlayers : n.layersDone = n'.layersDone := by
    have hlayers := (h.layers id).trans (h'.layers id).symm
    simpa [Board.record, hn, hn'] using hlayers
  have hlapsed : L id ↔ L' id := (h.lapsed id).trans (h'.lapsed id).symm
  have hstamp : n.stamp = n'.stamp :=
    Option.some.inj ((h.stamps id n hn).symm.trans (h'.stamps id n' hn'))
  refine ⟨hstamp, congrArg Option.isSome hresult, hresult, hlayers, hlapsed, fun hid => ?_⟩
  exact (h.times id hid).trans (h'.times id (hlapsed.not.mp hid)).symm

/-- Two playbacks of the same edges that have come to the same time, each by its own ticks, have given
the same verdicts in the middle of their next ticks.  A note that the queue missed in one of them is one
that it missed in the other; the others were judged at the same time. -/
theorem verdicts_agree (text : String) (settings : Settings) (edges : List Edge)
    (hvisits : (fullPlan (.ofText text) settings).length < Playhead.maxAhead)
    (hcount : fullCount (.ofText text) settings < maxScan)
    (henter : settings.windows.clamped.enter < 4503599627370496.0) (dts dts' : List Float) :
    let p := loaded (.ofText text) settings edges
    let q := (p.played dts).midTick
    let q' := (p.played dts').midTick
    (p.played dts).playhead.time = (p.played dts').playhead.time →
      ∀ (id : Nat) (n n' : LiveNote),
        q.playhead.live[id]? = some n → q'.playhead.live[id]? = some n' →
          n.stamp = n'.stamp ∧ n.isJudged = n'.isJudged ∧ n.result = n'.result ∧
            n.layersDone = n'.layersDone ∧ (p.Lapses dts id ↔ p.Lapses dts' id) ∧
              (¬ p.Lapses dts id →
                Board.finalTimes q.judgments id = Board.finalTimes q'.judgments id) := by
  intro p q q' htime id n n' hn hn'
  obtain ⟨S, c, all, queued, keys, hplayable, hplays⟩ :=
    exists_plays text settings edges hvisits hcount henter
  obtain ⟨x, hshows, hshows'⟩ := hplays.exists_shows hplayable dts dts' htime
  exact verdict_of_shows hshows hshows' hn hn'

/-- A tap that is hit is hit no matter whether one tick or two lead to it. -/
theorem verdicts_agree_on_tap :
    let p := loaded (.ofText "# Main\n-1:\n2:[t]\n") .standard [.down ⟨'d'⟩ 0.5]
    (p.played [0.75]).midTick.score.judged = 1 ∧
      (p.played [0.25, 0.5]).playhead.time = (p.played [0.75]).playhead.time ∧
      ∀ (id : Nat) (n n' : LiveNote), (p.played [0.25, 0.5]).midTick.playhead.live[id]? = some n →
        (p.played [0.75]).midTick.playhead.live[id]? = some n' → n.result = n'.result := by
  refine ⟨by decide +kernel, by decide +kernel, fun id n n' hn hn' => ?_⟩
  obtain ⟨-, -, hresult, -⟩ := verdicts_agree "# Main\n-1:\n2:[t]\n" .standard [.down ⟨'d'⟩ 0.5]
    (by decide +kernel) (by decide +kernel) (by decide +kernel) [0.25, 0.5] [0.75]
    (by decide +kernel) id n n' hn hn'
  exact hresult

/-! ### A window that is too wide -/

/-- At unit speed, a tap `2 ^ 52 + 1` seconds after the start. -/
def distantText : String := "# Main\n-1:\n0:[4503599627370497;0]\n-2:\n0:[t]\n"

/-- What is read of it. -/
def distantScan : Scan := Scan.start.lines ((Text.lines distantText.toList).zipIdx 1)

theorem ofText_distantText :
    Chart.ofText distantText =
      { notes := distantScan.notes
        rows := ([-1, -2].map (Row.ofMembers distantScan.closeRow.declared
          distantScan.notes.toList.zipIdx)).toArray
        metadata := distantScan.metadata.toList
        diagnostics := distantScan.diagnostics.toList } :=
  Chart.ofParts_eq _ (by decide +kernel) (by decide) _ _

/-- Unit speed and windows of `2 ^ 52` seconds, past which halves of seconds do not count. -/
def wideSettings : Settings where
  speed := 1.0
  start := 0.0
  windows := { Windows.standard with enter := 4503599627370496.0, exit := 4503599627370496.0 }
  keymap := ⟨[⟨'d'⟩]⟩

/-- With such windows a press that one tick handles finds a note that it does not find when shorter
ticks handle it. -/
theorem verdicts_differ_on_wide_window :
    let c := Chart.ofText distantText
    let p := loaded c wideSettings [.down ⟨'d'⟩ 0.5]
    let q := p.played [0.5, 0.5, 0.5, 0.5]
    let q' := p.played [1.0, 1.0]
    (fullPlan c wideSettings).length < Playhead.maxAhead ∧ fullCount c wideSettings < maxScan ∧
      q.playhead.time = q'.playhead.time ∧
      (q.midTick.playhead.live[1]?).map LiveNote.result = some none ∧
      (q'.midTick.playhead.live[1]?).map LiveNote.result = some (some .fast) := by
  rw [ofText_distantText]
  decide +kernel

end Playback

end RhythmChart
