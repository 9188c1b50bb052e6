import RhythmChart.Proofs.Accounting

/-! # Which notes were let in

The queue considers live notes in order and stops at the first one that the time has not come near to.

Main statements.

* `Judge.lt_frontier_iff`: a note is let in when all notes up to it are near;
* `Stage.Arrived`: all notes that were considered are near;
* `Playback.Timely`: the clock of a playback never runs backwards, and its queue is never ahead of it. -/

namespace RhythmChart

open Judge Holds Binary64

/-! ### The frontier -/

namespace Judge

theorem not_far_of_lt_frontier {enter now : Float} {live : Array LiveNote} {i k : Nat}
    (hi : i ≤ k) (hk : k < frontier enter now live i) {n : LiveNote} (hn : live[k]? = some n) :
    ¬ enter < n.trigger - now := by
  fun_induction frontier enter now live i with
  | case1 i h hfar => omega
  | case2 i h hnear ih =>
      rcases hi.eq_or_lt with rfl | hlt
      · rw [Array.getElem?_eq_getElem h] at hn
        rwa [← Option.some.inj hn]
      · exact ih hlt hk
  | case3 i h => omega

theorem far_frontier {enter now : Float} {live : Array LiveNote} {i : Nat} {n : LiveNote}
    (hn : live[frontier enter now live i]? = some n) : enter < n.trigger - now := by
  fun_induction frontier enter now live i with
  | case1 i h hfar =>
      rw [Array.getElem?_eq_getElem h] at hn
      rwa [← Option.some.inj hn]
  | case2 i h hnear ih => exact ih hn
  | case3 i h => exact absurd (Array.getElem?_eq_some_iff.mp hn).1 h

/-- A note is let in when all notes up to it are near. -/
theorem lt_frontier_iff {enter now : Float} {live : Array LiveNote} {i : Nat} (hi : i ≤ live.size)
    (hbefore : ∀ k < i, ∀ n, live[k]? = some n → ¬ enter < n.trigger - now) (id : Nat) :
    id < frontier enter now live i ↔
      id < live.size ∧ ∀ k ≤ id, ∀ n, live[k]? = some n → ¬ enter < n.trigger - now := by
  constructor
  · intro hid
    refine ⟨hid.trans_le (frontier_le_size enter now hi), fun k hk n hn => ?_⟩
    by_cases hki : k < i
    · exact hbefore k hki n hn
    · exact not_far_of_lt_frontier (Nat.le_of_not_lt hki) (hk.trans_lt hid) hn
  · rintro ⟨hlt, hnear⟩
    by_contra hge
    have hle : frontier enter now live i ≤ id := Nat.le_of_not_lt hge
    have hn := Array.getElem?_eq_getElem (hle.trans_lt hlt)
    exact hnear _ hle _ hn (far_frontier hn)

end Judge

/-! ### Stages -/

namespace Stage

variable {notes : Array Note}

/-- All notes that were considered are near at the time `now`. -/
def Arrived (now : Float) (s : Stage) : Prop :=
  ∀ id < s.judge.nextLive, ∀ n, s.board.live[id]? = some n →
    ¬ s.judge.windows.enter < n.trigger - now

/-- A step that keeps the windows and the times of all notes. -/
structure Frame (s s' : Stage) : Prop where
  windows : s'.judge.windows = s.judge.windows
  stamp : s'.board.live.map LiveNote.stamp = s.board.live.map LiveNote.stamp

/-- A step that also considers no further notes. -/
structure Keeps (s s' : Stage) : Prop extends Frame s s' where
  nextLive : s'.judge.nextLive = s.judge.nextLive

theorem Frame.refl (s : Stage) : Frame s s := ⟨rfl, rfl⟩

theorem Frame.trans {s s' s'' : Stage} (h : Frame s s') (h' : Frame s' s'') : Frame s s'' :=
  ⟨h'.windows.trans h.windows, h'.stamp.trans h.stamp⟩

theorem Keeps.refl (s : Stage) : Keeps s s := ⟨.refl s, rfl⟩

theorem Keeps.trans {s s' s'' : Stage} (h : Keeps s s') (h' : Keeps s' s'') : Keeps s s'' :=
  ⟨h.toFrame.trans h'.toFrame, h'.nextLive.trans h.nextLive⟩

/-- The time of a live note does not change. -/
theorem trigger_of_stamp {live live' : Array LiveNote}
    (h : live'.map LiveNote.stamp = live.map LiveNote.stamp) {id : Nat} {n' : LiveNote}
    (hn' : live'[id]? = some n') : ∃ n, live[id]? = some n ∧ n.trigger = n'.trigger := by
  obtain ⟨n, hn, hstamp⟩ := LiveNote.exists_of_stamps h hn'
  exact ⟨n, hn, LiveNote.trigger_of_stamp hstamp⟩

theorem Arrived.of_keeps {now : Float} {s s' : Stage} (h : s.Arrived now) (hk : Keeps s s') :
    s'.Arrived now := by
  intro id hid n' hn'
  obtain ⟨n, hn, htrigger⟩ := trigger_of_stamp hk.stamp hn'
  rw [hk.nextLive] at hid
  rw [hk.windows, ← htrigger]
  exact h id hid n hn

theorem keeps_change {s : Stage} (h : s.Sound notes) {fate : Board → Hold → HoldFate}
    (hf : Lawful fate) : Keeps s (s.change fate) :=
  ⟨⟨rfl, (swept hf h.registered.once h.openNotes).judges.stamp⟩, rfl⟩

theorem keeps_chargeEmpty (s : Stage) (scene : Scene) (key : Key) (time : Float) :
    Keeps s (s.chargeEmpty scene key time) := by
  unfold Stage.chargeEmpty
  split_ifs
  · exact .refl s
  · exact ⟨⟨rfl, rfl⟩, rfl⟩

theorem keeps_hit {s : Stage} {scene : Scene} (h : s.Sound scene.notes) (key : Key) (time : Float) :
    Keeps s (s.hit scene key time) := by
  have hlanded := hit_cases h.registered scene key time
  generalize s.hit scene key time = s' at hlanded ⊢
  cases hlanded with
  | empty => exact keeps_chargeEmpty s scene key time
  | single id n hr =>
      have hits := hits_pressSingle hr h.worst
      exact ⟨⟨hits.windows, hits.judges.stamp⟩, hits.nextLive⟩
  | layer layers id n hr =>
      have hits := hits_pressLayer hr h.worst layers
      exact ⟨⟨hits.windows, hits.judges.stamp⟩, hits.nextLive⟩
  | refused id n note hr _ _ _ t =>
      have htracked : Keeps s ⟨s.judge, t, s.board⟩ := ⟨⟨rfl, rfl⟩, rfl⟩
      exact htracked.trans (keeps_chargeEmpty ⟨s.judge, t, s.board⟩ scene key time)
  | begun => exact ⟨⟨rfl, rfl⟩, rfl⟩

theorem frame_maintain {s : Stage} {scene : Scene} (h : s.Sound scene.notes) (now : Float) :
    Frame s (s.maintain scene now) := by
  unfold Stage.maintain
  rw [maintain_eq]
  exact ⟨rfl, (judges_expire h.ordered _ _ _ _ _).stamp⟩

theorem frame_settleTime {s : Stage} {scene : Scene} (h : s.Sound scene.notes) (now : Float) :
    Frame s (s.settleTime scene now) :=
  (frame_maintain h now).trans (keeps_change (h.maintain now) (lawful_timeFate _ now)).toFrame

theorem Arrived.maintain {now time : Float} {s : Stage} {scene : Scene} (h : s.Sound scene.notes)
    (ha : s.Arrived now) (hle : time ≤ now) : (s.maintain scene time).Arrived now := by
  have hjudges := judges_expire h.ordered time maxScan (s.judge.queue ++
    openBetween scene.notes s.board.live s.judge.nextLive
      (frontier s.judge.windows.enter time s.board.live s.judge.nextLive)) s.judge.worst s.board
  intro id hid n' hn'
  unfold Stage.maintain at hid hn' ⊢
  rw [maintain_eq] at hid hn' ⊢
  obtain ⟨n, hn, htrigger⟩ := trigger_of_stamp hjudges.stamp hn'
  rw [← htrigger]
  by_cases hold : id < s.judge.nextLive
  · exact ha id hold n hn
  · exact fun hfar => not_far_of_lt_frontier (Nat.le_of_not_lt hold) hid hn (lt_sub_of_le hle hfar)

theorem Arrived.settleTime {now time : Float} {s : Stage} {scene : Scene} (h : s.Sound scene.notes)
    (ha : s.Arrived now) (hle : time ≤ now) : (s.settleTime scene time).Arrived now :=
  (Arrived.maintain h ha hle).of_keeps (keeps_change (h.maintain time) (lawful_timeFate _ time))

/-- After time has been settled, a press considers no further notes. -/
theorem keeps_press {s : Stage} {scene : Scene} (h : s.Sound scene.notes) (key : Key)
    (time : Float) : Keeps (s.settleTime scene time) (s.press scene key time) := by
  have hresumed := (h.settleTime time).resume key time
  have hready := hresumed.change (lawful_crossFate key time)
  have hkeeps : Keeps (s.settleTime scene time) (({ s.settleTime scene time with
      holds := ((s.settleTime scene time).holds.resume key time).2 } : Stage).change
        (crossFate key time)) :=
    have hresume : Keeps (s.settleTime scene time) { s.settleTime scene time with
      holds := ((s.settleTime scene time).holds.resume key time).2 } := ⟨⟨rfl, rfl⟩, rfl⟩
    hresume.trans (keeps_change hresumed (lawful_crossFate key time))
  unfold Stage.press
  dsimp only
  split_ifs
  · exact hkeeps
  · exact hkeeps.trans (keeps_hit hready key time)

theorem keeps_release {s : Stage} (h : s.Sound notes) (key : Key) (time : Float) :
    Keeps s (s.release key time) :=
  (keeps_change h (lawful_timeFate _ time)).trans
    (keeps_change (h.change (lawful_timeFate _ time)) (lawful_releaseFate _ _ _))

theorem frame_edge {s : Stage} {scene : Scene} (h : s.Sound scene.notes) (e : Edge) :
    Frame s (s.edge scene e) := by
  unfold Stage.edge
  split_ifs
  · exact (frame_settleTime h e.time).trans (keeps_press h e.key e.time).toFrame
  · exact (keeps_release h e.key e.time).toFrame

theorem Arrived.edge {now : Float} {s : Stage} {scene : Scene} (h : s.Sound scene.notes)
    (ha : s.Arrived now) {e : Edge} (hle : e.time ≤ now) : (s.edge scene e).Arrived now := by
  unfold Stage.edge
  split_ifs
  · exact (Arrived.settleTime h ha hle).of_keeps (keeps_press h e.key e.time)
  · exact ha.of_keeps (keeps_release h e.key e.time)

theorem Arrived.later {now now' : Float} {s : Stage} (h : s.Arrived now) (hle : now ≤ now') :
    s.Arrived now' := fun id hid n hn hfar => h id hid n hn (lt_sub_of_le hle hfar)

end Stage

/-! ### Playbacks -/

namespace Playback

/-- The invariant of judging, a clock that has a value, edges that have a time, and a queue that is
not ahead of the clock. -/
structure Timely (p : Playback) : Prop where
  sound : p.Sound
  time : 0.0 ≤ p.playhead.time
  edges : ∀ e ∈ p.edges, e.time.isFinite = true
  arrived : p.stage.Arrived p.playhead.time

theorem Timely.isNumber {p : Playback} (h : p.Timely) : IsNumber p.playhead.time :=
  ((zero_le_iff _).mp h.time).1

theorem Timely.time_le_time {p : Playback} (h : p.Timely) : p.playhead.time ≤ p.playhead.time :=
  le_self h.isNumber

/-- Notes that were considered stay the same when more are stamped. -/
theorem Moves.arrived {p q : Playback} (h : p.Moves q) (hs : p.Sound) {now : Float}
    (ha : p.stage.Arrived now) : q.stage.Arrived now := by
  obtain ⟨more, -, -, hstage⟩ := h.exists_more
  rw [hstage]
  intro id hid n hn
  change (p.stage.board.live ++ more)[id]? = some n at hn
  rw [Array.getElem?_append, if_pos (hid.trans_le hs.near)] at hn
  exact ha id hid n hn

theorem arrived_handleEdges {keymap : Keymap} {scene : Scene} {now : Float} {edges : Array Edge}
    {i : Nat} {keyboard : Keyboard} {s : Stage} (h : s.Sound scene.notes) (ha : s.Arrived now)
    (hnow : IsNumber now) (hedges : ∀ e ∈ edges, e.time.isFinite = true) :
    (handleEdges keymap scene now edges i keyboard s).2.2.Arrived now := by
  fun_induction handleEdges keymap scene now edges i keyboard s with
  | case1 => exact ha
  | case2 i keyboard s hi e hdue haccept s' ih =>
      have hfinite : e.time.isFinite = true := hedges e (Array.getElem_mem hi)
      have hle : e.time ≤ now := le_of_not_lt hnow (isNumber_of_isFinite hfinite) hdue
      apply ih
      · unfold s'
        split_ifs
        · exact h.edge e
        · exact h
      · unfold s'
        split_ifs
        · exact Stage.Arrived.edge h ha hle
        · exact ha
  | case3 i keyboard s hi e hdue haccept ih => exact ih h ha
  | case4 => exact ha

theorem frame_handleEdges {keymap : Keymap} {scene : Scene} {now : Float} {edges : Array Edge}
    {i : Nat} {keyboard : Keyboard} {s : Stage} (h : s.Sound scene.notes) :
    s.Frame (handleEdges keymap scene now edges i keyboard s).2.2 := by
  fun_induction handleEdges keymap scene now edges i keyboard s with
  | case1 => exact .refl _
  | case2 i keyboard s hi e hdue haccept s' ih =>
      have hs' : s'.Sound scene.notes ∧ s.Frame s' := by
        unfold s'
        split_ifs
        · exact ⟨h.edge e, Stage.frame_edge h e⟩
        · exact ⟨h, .refl s⟩
      exact hs'.2.trans (ih hs'.1)
  | case3 i keyboard s hi e hdue haccept ih => exact ih h
  | case4 => exact .refl _

/-- The judging half of a tick leaves the times of all notes as they are. -/
theorem frame_judgeTick {p : Playback} (h : p.Sound) : p.stage.Frame p.judgeTick.stage := by
  set scene : Scene := ⟨p.chart.notes, p.playhead.speed, p.playhead.current?.map Visit.seq⟩
  have hedges : (handleEdges p.keymap scene p.playhead.time p.edges p.handled p.keyboard
      p.stage).2.2.Sound scene.notes := sound_handleEdges h
  have hframe : p.stage.Frame (handleEdges p.keymap scene p.playhead.time p.edges p.handled
      p.keyboard p.stage).2.2 := frame_handleEdges h
  exact hframe.trans (Stage.frame_settleTime hedges p.playhead.time)

theorem timely_ofChart (c : Chart) (settings : Settings) : (ofChart c settings).Timely := by
  have htime : (ofChart c settings).playhead.time = 0.0 := (Playhead.stamps_ofChart _ _ _).time
  refine ⟨sound_ofChart c settings, ?_, fun e he => ?_, fun id hid => (nomatch hid)⟩
  · rw [htime]
    exact (zero_le_iff _).mpr ⟨isNumber_zero, value_zero.ge⟩
  · simp [ofChart] at he

theorem timely_queueEdge {p : Playback} (h : p.Timely) (e : Edge) : (p.queueEdge e).Timely := by
  have hsound := sound_feed h.sound (.edge e)
  change (p.queueEdge e).Sound at hsound
  unfold queueEdge at hsound ⊢
  split_ifs at hsound ⊢ with hfinite
  · refine ⟨hsound, h.time, fun e' he' => ?_, h.arrived⟩
    dsimp only at he'
    unfold Array.insertIdxIfInBounds at he'
    split_ifs at he' with hplace
    · rcases Array.mem_insertIdx.mp he' with rfl | he'
      · exact hfinite
      · exact h.edges e' he'
    · exact h.edges e' he'
  · exact h

theorem time_planAhead (p : Playback) : p.planAhead.playhead.time = p.playhead.time :=
  (Playhead.stamps_planUntil _ _ _).time

theorem timely_planAhead {p : Playback} (h : p.Timely) : p.planAhead.Timely := by
  refine ⟨sound_planAhead h.sound, p.time_planAhead ▸ h.time, h.edges, ?_⟩
  rw [time_planAhead]
  exact p.moves_planAhead.arrived h.sound h.arrived

theorem timely_judgeTick {p : Playback} (h : p.Timely) : p.judgeTick.Timely := by
  set scene : Scene := ⟨p.chart.notes, p.playhead.speed, p.playhead.current?.map Visit.seq⟩
  set s := (handleEdges p.keymap scene p.playhead.time p.edges p.handled p.keyboard p.stage).2.2
  have hsound : s.Sound scene.notes := sound_handleEdges h.sound
  have harrived : s.Arrived p.playhead.time :=
    arrived_handleEdges h.sound h.arrived h.isNumber h.edges
  exact ⟨sound_judgeTick h.sound, h.time, h.edges,
    Stage.Arrived.settleTime hsound harrived h.time_le_time⟩

/-- Time goes on. -/
theorem time_le_advance {p : Playhead} (h : 0.0 ≤ p.time) (dt : Float) :
    p.time ≤ (p.advance dt).time := by
  have hn := ((zero_le_iff _).mp h).1
  unfold Playhead.advance
  split_ifs with hdt
  · exact le_add_of_nonneg hn (not_bot_of_zero_le h) (le_of_lt hdt.2)
  · exact le_self hn

theorem time_le_moveTick {p : Playback} (h : 0.0 ≤ p.playhead.time) (dt : Float) :
    p.playhead.time ≤ (p.moveTick dt).playhead.time := by
  obtain ⟨fired, after, events, hfired, hafter, heq⟩ := moveTick_eq p dt
  rw [heq]
  change p.playhead.time ≤ after.time
  rw [hafter.time, ← hfired.time]
  exact time_le_advance (hfired.time ▸ h) dt

theorem timely_moveTick {p : Playback} (h : p.Timely) (dt : Float) : (p.moveTick dt).Timely := by
  have hmoves := p.moves_moveTick dt
  have hle := time_le_moveTick h.time dt
  refine ⟨hmoves.sound h.sound, ?_, ?_, (hmoves.arrived h.sound h.arrived).later hle⟩
  · obtain ⟨-, hn, hv⟩ := (le_iff _ _).mp hle
    exact (zero_le_iff _).mpr ⟨hn, ((zero_le_iff _).mp h.time).2.trans hv⟩
  · rw [hmoves.same]
    exact h.edges

/-- Every input keeps the playback timely. -/
theorem timely_feed {p : Playback} (h : p.Timely) (input : Input) : (p.feed input).Timely := by
  cases input with
  | edge e => exact timely_queueEdge h e
  | update dt => exact timely_moveTick (timely_judgeTick (timely_planAhead h)) dt

theorem timely_after (c : Chart) (settings : Settings) (inputs : List Input) :
    (after c settings inputs).Timely :=
  after_induction (timely_ofChart c settings) (fun _ input h => timely_feed h input) inputs

end Playback

end RhythmChart
