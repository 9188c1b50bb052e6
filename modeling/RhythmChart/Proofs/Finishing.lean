import RhythmChart.Chart.Scan
import RhythmChart.Proofs.Arrival

/-! # What it means to be finished

A playback reports that it is finished after time has moved on, but its queue was brought up to date
before that.  A live note that the queue had not let in by then is passed over.

Main statements.

* `Playback.judged_eq_countP`: the score counts the judged live notes;
* `Playback.finished_iff`: when a playback is finished, all notes are judged exactly if all of them
  were planned and near when its last tick began;
* `Playback.finished_with_open_note`: a chart and a tick after which they are not. -/

namespace RhythmChart

open Judge Holds

/-! ### Counting judged notes -/

theorem countP_eq_countP_iff {α : Type} {p q : α → Bool} {xs : Array α}
    (hpq : ∀ x ∈ xs, p x = true → q x = true) :
    xs.countP p = xs.countP q ↔ ∀ x ∈ xs, q x = true → p x = true := by
  have hlist : ∀ l : List α, (∀ x ∈ l, p x = true → q x = true) →
      (l.countP p = l.countP q ↔ ∀ x ∈ l, q x = true → p x = true) := by
    intro l hl
    induction l with
    | nil => simp
    | cons x l ih =>
        have hle : l.countP p ≤ l.countP q :=
          List.countP_mono_left fun y hy => hl y (List.mem_cons_of_mem _ hy)
        have ih := ih fun y hy => hl y (List.mem_cons_of_mem _ hy)
        have hx := hl x List.mem_cons_self
        rw [List.forall_mem_cons, ← ih, List.countP_cons, List.countP_cons]
        cases hp : p x <;> cases hq : q x <;> simp [hp, hq] at hx ⊢
        omega
  rw [← Array.countP_toList, ← Array.countP_toList]
  simpa using hlist xs.toList (by simpa using hpq)

namespace Board

theorem sum_hasGrade (n : LiveNote) :
    (Grade.all.map fun g => if n.hasGrade g = true then 1 else 0).sum =
      if n.isJudged = true then 1 else 0 := by
  unfold LiveNote.hasGrade LiveNote.isJudged
  cases n.result with
  | none => rfl
  | some g => cases g <;> rfl

/-- The grades of all live notes together are the judged live notes. -/
theorem sum_countP_hasGrade (live : Array LiveNote) :
    (Grade.all.map fun g => live.countP (LiveNote.hasGrade g)).sum =
      live.countP LiveNote.isJudged := by
  have hlist : ∀ l : List LiveNote, (Grade.all.map fun g => l.countP (LiveNote.hasGrade g)).sum =
      l.countP LiveNote.isJudged := by
    intro l
    induction l with
    | nil => rfl
    | cons n l ih =>
        have hn := sum_hasGrade n
        simp only [Grade.all, List.map_cons, List.map_nil, List.sum_cons, List.sum_nil,
          List.countP_cons] at ih hn ⊢
        omega
  simpa using hlist live.toList

theorem Tallied.judged_eq {b : Board} (h : b.Tallied) :
    b.score.judged = b.live.countP LiveNote.isJudged := by
  rw [h.judged, ← sum_countP_hasGrade, GradeCounts.toList]
  congr 1
  exact List.map_congr_left fun g _ => h.grades g

end Board

/-! ### The last tick -/

namespace Playback

/-- Every live note of a type that is judged has its grade. -/
def AllJudged (p : Playback) : Prop :=
  ∀ n ∈ p.playhead.live, Board.isJudgable p.chart.notes n = true → n.isJudged = true

/-- The live note at `id` was planned when the tick of `p` began, and it and all notes before it were
near. -/
def InReach (p : Playback) (id : Nat) : Prop :=
  id < p.planAhead.playhead.live.size ∧ ∀ k ≤ id, ∀ n, p.planAhead.playhead.live[k]? = some n →
    ¬ p.judge.windows.enter < n.trigger - p.playhead.time

/-- The score counts the judged live notes. -/
theorem judged_eq_countP {p : Playback} (h : p.Sound) :
    p.score.judged = p.playhead.live.countP LiveNote.isJudged :=
  Board.Tallied.judged_eq h.tallied

/-- The score counts all notes that are to be judged exactly if all of them are judged. -/
theorem judged_eq_judgable_iff {p : Playback} (h : p.Sound) :
    p.score.judged = p.playhead.live.countP (Board.isJudgable p.chart.notes) ↔ p.AllJudged := by
  rw [judged_eq_countP h]
  apply countP_eq_countP_iff
  intro n hn hjudged
  obtain ⟨id, hid, rfl⟩ := Array.mem_iff_getElem.mp hn
  have hlive := Array.getElem?_eq_getElem hid
  refine (h.admitted id (.inl ?_)).2 _ hlive
  change ((p.playhead.live[id]?).bind LiveNote.result).isSome
  rw [hlive]
  exact hjudged

/-- After a tick, the notes that were considered are those in reach when it began. -/
theorem lt_nextLive_tick_iff {p : Playback} (h : p.Timely) (dt : Float) (id : Nat) :
    id < (p.tick dt).judge.nextLive ↔ p.InReach id := by
  have hplanned := timely_planAhead h
  have htime := p.time_planAhead
  set q := p.planAhead with hq
  set scene : Scene := ⟨q.chart.notes, q.playhead.speed, q.playhead.current?.map Visit.seq⟩
  set s := (handleEdges q.keymap scene q.playhead.time q.edges q.handled q.keyboard q.stage).2.2
    with hs
  have hsound : s.Sound scene.notes := sound_handleEdges hplanned.sound
  have harrived : s.Arrived q.playhead.time :=
    arrived_handleEdges hplanned.sound hplanned.arrived hplanned.isNumber hplanned.edges
  have hframe : q.stage.Frame s := frame_handleEdges hplanned.sound
  have hnext : (p.tick dt).judge.nextLive =
      frontier s.judge.windows.enter q.playhead.time s.board.live s.judge.nextLive := by
    have hjudge : (p.tick dt).judge = (s.settleTime scene q.playhead.time).judge := by
      rw [tick, (moves_moveTick _ dt).same]
      rfl
    rw [hjudge]
    unfold Stage.settleTime Stage.maintain
    rw [Stage.maintain_eq]
    rfl
  have hsize : s.board.live.size = q.playhead.live.size := by
    have := congrArg Array.size hframe.stamp
    rwa [Array.size_map, Array.size_map] at this
  rw [hnext, lt_frontier_iff hsound.near harrived, hsize, hframe.windows, InReach, htime]
  refine and_congr_right fun hid => ⟨fun hnear k hk n hn => ?_, fun hnear k hk n hn => ?_⟩
  · obtain ⟨m, hm, htrigger⟩ := Stage.trigger_of_stamp hframe.stamp.symm hn
    rw [← htrigger]
    exact hnear k hk m hm
  · obtain ⟨m, hm, htrigger⟩ := Stage.trigger_of_stamp hframe.stamp hn
    rw [← htrigger]
    exact hnear k hk m hm

/-- When a tick has finished the playback, the notes that were considered are judged. -/
theorem isJudged_of_finished {p : Playback} (h : p.Sound) (hfin : p.isFinished = true) {id : Nat}
    (hid : id < p.judge.nextLive) {n : LiveNote} (hn : p.playhead.live[id]? = some n)
    (hjudgable : Board.isJudgable p.chart.notes n = true) : n.isJudged = true := by
  unfold isFinished at hfin
  rw [Bool.and_eq_true, Bool.and_eq_true, List.isEmpty_iff, beq_iff_eq] at hfin
  obtain ⟨⟨-, hqueue⟩, hengaged⟩ := hfin
  by_contra hopen
  rw [Bool.not_eq_true] at hopen
  have hisOpen : isOpen p.chart.notes p.playhead.live id = true := by
    rw [isOpen, hn, Option.any_some, hjudgable, hopen]
    rfl
  rcases h.attended id hid hisOpen with hq | ⟨k, hk, -, he⟩
  · change id ∈ p.judge.queue at hq
    rw [hqueue] at hq
    cases hq
  · exact List.countP_eq_zero.mp hengaged k hk he

/-- When a playback is finished, all notes are judged exactly if all of them were planned and near
when its last tick began; and the score tells whether they are. -/
theorem finished_iff (c : Chart) (settings : Settings) (inputs : List Input) (dt : Float)
    (hfin : ((after c settings inputs).tick dt).status = .finished) :
    let p := after c settings inputs
    let q := p.tick dt
    (q.AllJudged ↔ ∀ id n, q.playhead.live[id]? = some n →
      Board.isJudgable q.chart.notes n = true → p.InReach id) ∧
    (q.score.judged = q.playhead.live.countP (Board.isJudgable q.chart.notes) ↔ q.AllJudged) := by
  intro p q
  have hp : p.Timely := timely_after c settings inputs
  have hq : q.Sound := sound_feed hp.sound (.update dt)
  have hfinished : q.isFinished = true := by
    by_contra hnot
    rw [status, if_neg hnot] at hfin
    cases hfin
  refine ⟨⟨fun hall id n hn hjudgable => ?_, fun hreach n hn hjudgable => ?_⟩,
    judged_eq_judgable_iff hq⟩
  · have hjudged := hall n (Array.mem_of_getElem? hn) hjudgable
    rw [← lt_nextLive_tick_iff hp dt]
    refine (hq.admitted id (.inl ?_)).1
    change ((q.playhead.live[id]?).bind LiveNote.result).isSome
    rw [hn]
    exact hjudged
  · obtain ⟨id, hid, rfl⟩ := Array.mem_iff_getElem.mp hn
    have hlive := Array.getElem?_eq_getElem hid
    exact isJudged_of_finished hq hfinished
      ((lt_nextLive_tick_iff hp dt id).mpr (hreach id _ hlive hjudgable)) hlive hjudgable

/-- A chart with one tap, half a second after its start. -/
def tapChart : Chart := Chart.ofText "# Main\n-1:\n2:[t]\n"

/-- Short ticks finish the chart when its tap is missed. -/
theorem finished_iff_short_ticks :
    let p := after tapChart .standard [.update 0.4, .update 0.4]
    (p.tick 0.4).status = .finished ∧
      ((p.tick 0.4).AllJudged ↔ ∀ id n, (p.tick 0.4).playhead.live[id]? = some n →
        Board.isJudgable (p.tick 0.4).chart.notes n = true → p.InReach id) ∧
      (p.tick 0.4).score.judged = 1 :=
  have hfin : ((after tapChart .standard [.update 0.4, .update 0.4]).tick 0.4).status = .finished := by
    decide +kernel
  ⟨hfin, (finished_iff tapChart .standard [.update 0.4, .update 0.4] 0.4 hfin).1, by decide +kernel⟩

/-- One long tick finishes the chart although its tap is not judged. -/
theorem finished_with_open_note :
    let q := (ofChart tapChart .standard).tick 5.0
    q.status = .finished ∧ q.score.judged = 0 ∧
      q.playhead.live.countP (Board.isJudgable q.chart.notes) = 1 := by
  decide +kernel

end Playback

end RhythmChart
