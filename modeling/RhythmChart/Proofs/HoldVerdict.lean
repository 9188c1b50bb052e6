import RhythmChart.Proofs.Grip
import RhythmChart.Proofs.TickRate

/-! # Verdicts on holds

A hold that a press has begun gets the grade, at the time, that the later edges of judged keys call for,
however the ticks fall.

Main statements.

* `Stage.Timed`: tracked holds are over when their notes are;
* `Stage.Starts`: a press begins the hold of a live note;
* `Stage.Starts.spec`: what such a press does, and that it gives the note no grade;
* `Playback.hold_verdict`: the verdict on a hold is the outcome of its grip. -/

namespace RhythmChart

open Judge Holds Binary64

/-! ### When a hold is over -/

/-- When the hold of a live note is over. -/
def LiveNote.finish (notes : Array Note) (speed : Float) (n : LiveNote) : Float :=
  n.trigger + ((notes[n.note]?).map Note.length).getD 0.0 / speed

namespace Stage

variable {notes : Array Note} {speed : Float} {scene : Scene} {s s' : Stage}

/-- The tracked holds are over when their notes are. -/
def Timed (notes : Array Note) (speed : Float) (s : Stage) : Prop :=
  ∀ k ∈ s.holds.holds, ∃ n, s.board.live[k.live]? = some n ∧ k.finish = n.finish notes speed

/-- Each hold of the second stage is as long as one of the first, or was just registered. -/
def Inherits (notes : Array Note) (speed : Float) (s s' : Stage) : Prop :=
  ∀ k ∈ s'.holds.holds, (∃ y ∈ s.holds.holds, y.live = k.live ∧ y.finish = k.finish) ∨
    ∃ n, s'.board.live[k.live]? = some n ∧ k.finish = n.finish notes speed

theorem Timed.of_inherits (h : s.Timed notes speed) (hframe : Frame s s')
    (hholds : Inherits notes speed s s') : s'.Timed notes speed := by
  intro k hk
  rcases hholds k hk with ⟨y, hy, hlive, hfinish⟩ | hnew
  · obtain ⟨n, hn, hover⟩ := h y hy
    have hlt : y.live < s'.board.live.size := by
      rw [hframe.size]
      exact (Array.getElem?_eq_some_iff.mp hn).1
    have hn' := Array.getElem?_eq_getElem hlt
    obtain ⟨m, hm, hstamp⟩ := LiveNote.exists_of_stamps hframe.stamp hn'
    obtain rfl := Option.some.inj (hn.symm.trans hm)
    refine ⟨_, by rw [← hlive]; exact hn', ?_⟩
    rw [← hfinish, hover, LiveNote.finish, LiveNote.finish, LiveNote.note_of_stamp hstamp,
      LiveNote.trigger_of_stamp hstamp]
  · exact hnew

theorem inherits_maintain (s : Stage) (scene : Scene) (now : Float) :
    Inherits scene.notes scene.speed s (s.maintain scene now) := by
  intro k hk
  rcases mem_foldl_track hk with hk | ⟨id, n, -, hn, rfl⟩
  · exact .inl ⟨k, hk, rfl, rfl⟩
  · exact .inr ⟨n, hn, rfl⟩

theorem inherits_change (hs : s.Sound notes) {fate : Board → Hold → HoldFate} (hf : Lawful fate)
    (notes' : Array Note) (speed : Float) : Inherits notes' speed s (s.change fate) := by
  intro k hk
  obtain ⟨y, hy, hc⟩ := (swept hf hs.registered.once hs.openNotes).origin k hk
  exact .inl ⟨y, hy, hc.live.symm, hc.finish.symm⟩

theorem inherits_resume (s : Stage) (key : Key) (time : Float) (notes : Array Note) (speed : Float) :
    Inherits notes speed s { s with holds := (s.holds.resume key time).2 } := by
  intro k hk
  rcases mem_modifyFirst hk with hk | ⟨y, hy, -, rfl⟩
  · exact .inl ⟨k, hk, rfl, rfl⟩
  · have hc := continues_resumed y
    exact .inl ⟨y, hy, hc.live.symm, hc.finish.symm⟩

/-- The start of a hold registers that hold at most. -/
theorem inherits_start (t : Holds) (id : Nat) (key : Key) (time : Float) (notes : Array Note)
    (speed : Float) (b : Board) {k : Hold} (hk : k ∈ (t.start id key time notes speed b).2.1.holds) :
    (∃ y ∈ t.holds, y.live = k.live ∧ y.finish = k.finish) ∨
      ∃ n, b.live[k.live]? = some n ∧ k.finish = n.finish notes speed := by
  have htracked : ∀ y ∈ (t.track id b.live notes speed).holds, y ∈ t.holds ∨
      ∃ n, b.live[y.live]? = some n ∧ y.finish = n.finish notes speed := by
    intro y hy
    rcases @mem_foldl_track [id] _ _ _ _ _ hy with hy | ⟨i, n, -, hn, rfl⟩
    · exact .inl hy
    · exact .inr ⟨n, hn, rfl⟩
  have hsame : k ∈ (t.track id b.live notes speed).holds →
      (∃ y ∈ t.holds, y.live = k.live ∧ y.finish = k.finish) ∨
        ∃ n, b.live[k.live]? = some n ∧ k.finish = n.finish notes speed := fun hin =>
    (htracked k hin).imp_left fun hy => ⟨k, hy, rfl, rfl⟩
  unfold start at hk
  dsimp only at hk
  split_ifs at hk
  · exact .inl ⟨k, hk, rfl, rfl⟩
  · split at hk
    · exact hsame hk
    · split_ifs at hk
      · exact hsame hk
      · rcases mem_modifyFirst hk with hk | ⟨y, hy, -, rfl⟩
        · exact hsame hk
        · exact (htracked y hy).imp_left fun hin => ⟨y, hin, rfl, rfl⟩

theorem inherits_hit (hs : s.Sound scene.notes) (key : Key) (time : Float) :
    Inherits scene.notes scene.speed s (s.hit scene key time) := by
  have hself : ∀ s' : Stage, s'.holds.holds = s.holds.holds → Inherits scene.notes scene.speed s s' :=
    fun s' heq k hk => .inl ⟨k, heq ▸ hk, rfl, rfl⟩
  have hlanded := hit_cases hs.registered scene key time
  generalize s.hit scene key time = s' at hlanded ⊢
  cases hlanded with
  | empty => exact hself _ (congrArg Holds.holds (holds_chargeEmpty _ _ _ _))
  | single => exact hself _ rfl
  | layer => exact hself _ rfl
  | refused id n note hr _ _ _ t _ _ hstart =>
      intro k hk
      rw [holds_chargeEmpty] at hk
      rw [live_chargeEmpty]
      exact inherits_start s.holds id key time scene.notes scene.speed s.board (by rw [hstart]; exact hk)
  | begun id n note hr _ _ t _ _ _ _ _ g _ hstart =>
      exact fun k hk => inherits_start s.holds id key time scene.notes scene.speed s.board (hstart ▸ hk)

theorem Timed.maintain (h : s.Timed scene.notes scene.speed) (hs : s.Sound scene.notes) (now : Float) :
    (s.maintain scene now).Timed scene.notes scene.speed :=
  h.of_inherits (frame_maintain hs now) (inherits_maintain s scene now)

theorem Timed.change (h : s.Timed notes speed) (hs : s.Sound notes)
    {fate : Board → Hold → HoldFate} (hf : Lawful fate) : (s.change fate).Timed notes speed :=
  h.of_inherits (keeps_change hs hf).toFrame (inherits_change hs hf notes speed)

theorem Timed.settleTime (h : s.Timed scene.notes scene.speed) (hs : s.Sound scene.notes)
    (now : Float) : (s.settleTime scene now).Timed scene.notes scene.speed :=
  (h.maintain hs now).change (hs.maintain now) (lawful_timeFate _ now)

theorem Timed.ready (h : s.Timed scene.notes scene.speed) (hs : s.Sound scene.notes) (key : Key)
    (time : Float) : (s.ready scene key time).2.Timed scene.notes scene.speed := by
  have hs₁ := hs.settleTime time
  have hresumed : ({ s.settleTime scene time with
      holds := ((s.settleTime scene time).holds.resume key time).2 } : Stage).Timed
        scene.notes scene.speed :=
    (h.settleTime hs time).of_inherits ⟨rfl, rfl⟩ (inherits_resume _ key time _ _)
  exact hresumed.change (hs₁.resume key time) (lawful_crossFate key time)

theorem Timed.edge (h : s.Timed scene.notes scene.speed) (hs : s.Sound scene.notes) (e : Edge) :
    (s.edge scene e).Timed scene.notes scene.speed := by
  unfold Stage.edge
  split_ifs
  · rw [press_eq]
    have hready := h.ready hs e.key e.time
    have hs' := hs.ready e.key e.time
    split_ifs
    · exact hready
    · exact hready.of_inherits (keeps_hit hs' e.key e.time).toFrame (inherits_hit hs' e.key e.time)
  · have hs' : (s.updateHolds e.time).Sound scene.notes := hs.change (lawful_timeFate _ e.time)
    have hupdated : (s.updateHolds e.time).Timed scene.notes scene.speed :=
      h.change hs (lawful_timeFate _ e.time)
    exact hupdated.change hs' (lawful_releaseFate _ e.key e.time)

theorem Timed.edges (edges : List Edge) (h : s.Timed scene.notes scene.speed)
    (hs : s.Sound scene.notes) :
    (edges.foldl (fun s e => s.edge scene e) s).Timed scene.notes scene.speed := by
  induction edges generalizing s with
  | nil => exact h
  | cons e edges ih => exact ih (h.edge hs e) (hs.edge e)

/-- An edge keeps what is announced. -/
theorem keeps_board_edge (hs : s.Sound scene.notes) (e : Edge) :
    s.board.Keeps (s.edge scene e).board := by
  unfold Stage.edge
  split_ifs
  · have hmaintained := hs.maintain e.time
    have hsettled : s.board.Keeps (s.settleTime scene e.time).board := (keeps_maintain hs e.time).trans
      (keeps_board_change hmaintained (lawful_timeFate _ e.time))
    have hready : s.board.Keeps (s.ready scene e.key e.time).2.board := hsettled.trans
      (keeps_board_change ((hs.settleTime e.time).resume e.key e.time) (lawful_crossFate e.key e.time))
    rw [press_eq]
    split_ifs
    · exact hready
    · exact hready.trans (keeps_board_hit (hs.ready e.key e.time) e.key e.time).1
  · have hupdated : (s.updateHolds e.time).Sound scene.notes := hs.change (lawful_timeFate _ e.time)
    have hkeeps : s.board.Keeps (s.updateHolds e.time).board :=
      keeps_board_change hs (lawful_timeFate _ e.time)
    exact hkeeps.trans (keeps_board_change hupdated (lawful_releaseFate _ e.key e.time))

/-- A run of edges keeps the invariant of judging, the windows, the times of all notes, and what is
announced. -/
theorem sound_edges (edges : List Edge) (hs : s.Sound scene.notes) :
    (edges.foldl (fun s e => s.edge scene e) s).Sound scene.notes ∧
      Frame s (edges.foldl (fun s e => s.edge scene e) s) ∧
      s.board.Keeps (edges.foldl (fun s e => s.edge scene e) s).board := by
  induction edges generalizing s with
  | nil => exact ⟨hs, .refl s, .refl s.board⟩
  | cons e edges ih =>
      obtain ⟨hsound, hframe, hkeeps⟩ := ih (hs.edge e)
      exact ⟨hsound, (frame_edge hs e).trans hframe, (keeps_board_edge hs e).trans hkeeps⟩

/-! ### The press that begins a hold -/

/-- The press `e` begins the hold of the live note `id`. -/
structure Starts (s : Stage) (scene : Scene) (e : Edge) (id : Nat) : Prop where
  pressed : e.pressed = true
  before : ∀ k ∈ s.holds.holds, k.live = id → k.phase.isEngaged = false
  after : ∃ k ∈ (s.edge scene e).holds.holds, k.live = id ∧ k.phase.isEngaged = true

/-- A hold that is engaged after a press that resumes none was so before, or the press began it. -/
theorem begun_of_hit (hs : s.Sound scene.notes) (key : Key) (time : Float) {k : Hold}
    (hk : k ∈ (s.hit scene key time).holds.holds) (he : k.phase.isEngaged = true) :
    k ∈ s.holds.holds ∨ ∃ n note g, s.board.live[k.live]? = some n ∧ n.result = none ∧
      scene.notes[n.note]? = some note ∧ note.noteType = .hold ∧ k.phase = .holding key g ∧
      (s.hit scene key time).board = s.board.mapScore fun score => score.applyGrade g := by
  have hlanded := hit_cases hs.registered scene key time
  generalize s.hit scene key time = s' at hlanded hk ⊢
  cases hlanded with
  | empty =>
      rw [holds_chargeEmpty] at hk
      exact .inl hk
  | single => exact .inl hk
  | layer => exact .inl hk
  | refused id n note hr _ _ _ t hg =>
      rw [holds_chargeEmpty] at hk
      exact .inl (hg.mem_of_isEngaged hk he)
  | begun id n note hr hnote hhold t hg =>
      rcases mem_modifyFirst hk with hin | ⟨y, hy, htest, rfl⟩
      · exact .inl (hg.mem_of_isEngaged hin he)
      · have hid : y.live = id := beq_iff_eq.mp htest
        exact .inr ⟨n, note, _, (by rw [← hr.live, ← hid]; rfl), hr.unjudged, hnote, hhold, rfl, rfl⟩

/-- A hold that is engaged when a press goes to the queue was so before the press. -/
theorem engaged_of_ready (hs : s.Sound scene.notes) (key : Key) (time : Float) {k : Hold}
    (hk : k ∈ (s.ready scene key time).2.holds.holds) (he : k.phase.isEngaged = true) :
    ∃ y ∈ s.holds.holds, y.live = k.live ∧ y.phase.isEngaged = true := by
  have hmaintained := hs.maintain time
  have hsettled := hs.settleTime time
  have hresumed := hsettled.resume key time
  obtain ⟨y₁, hy₁, hc₁⟩ := (swept (lawful_crossFate key time) hresumed.registered.once
    hresumed.openNotes).origin k hk
  have horigin : ∃ y₂ ∈ (s.settleTime scene time).holds.holds, Continues y₂ y₁ := by
    rcases mem_modifyFirst hy₁ with hy | ⟨y, hy, -, rfl⟩
    · exact ⟨y₁, hy, .refl y₁⟩
    · exact ⟨y, hy, continues_resumed y⟩
  obtain ⟨y₂, hy₂, hc₂⟩ := horigin
  obtain ⟨y₃, hy₃, hc₃⟩ := (swept (lawful_timeFate _ time) hmaintained.registered.once
    hmaintained.openNotes).origin y₂ hy₂
  have he₃ : y₃.phase.isEngaged = true := by
    rw [← hc₃.engaged, ← hc₂.engaged, ← hc₁.engaged]
    exact he
  obtain ⟨ids, hgrows⟩ := grows_maintain hs time
  exact ⟨y₃, hgrows.mem_of_isEngaged hy₃ he₃, (hc₁.live.trans (hc₂.live.trans hc₃.live)).symm, he₃⟩

/-- What the press that begins a hold does: the hold is driven by its key, and it moves the combo only, so
that the note still has no grade and is not counted. -/
theorem Starts.spec (hs : s.Sound scene.notes) (ht : s.Timed scene.notes scene.speed) {e : Edge}
    {id : Nat} (h : s.Starts scene e id) :
    ∃ n note g, (s.edge scene e).board.live[id]? = some n ∧ n.result = none ∧
      scene.notes[n.note]? = some note ∧ note.noteType = .hold ∧
      (s.edge scene e).board =
        (s.ready scene e.key e.time).2.board.mapScore (fun score => score.applyGrade g) ∧
      (s.edge scene e).Gripped e.key (n.trigger + note.length / scene.speed) id .holding := by
  obtain ⟨k, hk, hlive, he⟩ := h.after
  have htimed := ht.edge hs e
  have hedge : s.edge scene e = s.press scene e.key e.time := if_pos h.pressed
  have hnot : k ∉ (s.ready scene e.key e.time).2.holds.holds := by
    intro hin
    obtain ⟨y, hy, hlive', he'⟩ := engaged_of_ready hs e.key e.time hin he
    rw [h.before y hy (hlive'.trans hlive)] at he'
    cases he'
  obtain ⟨n', hn', hover⟩ := htimed k hk
  rw [hedge, press_eq] at hk hn' ⊢
  split_ifs at hk hn' ⊢ with hresumed
  · exact absurd hk hnot
  · rcases begun_of_hit (hs.ready e.key e.time) e.key e.time hk he with
      hin | ⟨n, note, g, hn, hu, hnote, hhold, hphase, hboard⟩
    · exact absurd hin hnot
    · have hn₁ : ((s.ready scene e.key e.time).2.hit scene e.key e.time).board.live[k.live]? = some n := by
        rw [hboard]
        exact hn
      obtain rfl := Option.some.inj (hn₁.symm.trans hn')
      rw [LiveNote.finish, hnote] at hover
      exact ⟨n, note, g, hlive ▸ hn₁, hu, hnote, hhold, hboard,
        .engaged _ k g hk hlive hover (congrArg some hphase.symm)⟩

end Stage

/-! ### Playbacks -/

/-- Planning does not change the speed, and marks have nothing to do with it. -/
theorem Playhead.unmarked_speed (c : Chart) (speed : Float) :
    Unmarked c fun h : Playhead => h.speed = speed where
  plan h limit hspeed := by
    unfold planUntil
    generalize maxAhead - h.ahead = steps
    induction steps generalizing h with
    | zero => exact hspeed
    | succ steps ih =>
        unfold planSome
        split_ifs
        · exact hspeed
        · split
          next v q hnext =>
            obtain ⟨-, -, -, -, hpace, -⟩ := Planner.next_some hnext
            exact ih _ (hpace.trans hspeed)
          next q hnext =>
            rw [Planner.next_none hnext]
            exact hspeed
        · exact hspeed
  mark _ _ _ _ hspeed := hspeed

namespace Playback

variable {p : Playback} {w : Windows} {key : Key} {finish : Float} {id : Nat} {v : Grade × Float}

/-- The waiting edges of judged keys that will be accepted. -/
def upcoming (p : Playback) : List Edge := accepted p.keymap p.keyboard p.waiting

/-- The stage and the edges that will be accepted bear out the verdict `v` on the hold of a live note. -/
def Bears (p : Playback) (key : Key) (finish : Float) (id : Nat) (v : Grade × Float) : Prop :=
  p.stage.Bears key finish id p.upcoming v

/-- The second playback bears out whatever verdicts the first one does. -/
def Sustains (p p' : Playback) : Prop :=
  ∀ key finish id v, p.Bears key finish id v → p'.Bears key finish id v

theorem keymap_judgeTick (p : Playback) : p.judgeTick.keymap = p.keymap := by
  rw [judgeTick_eq]
  rfl

/-- The edges that will be accepted are those that the next tick judges and those that will be accepted
after it. -/
theorem upcoming_eq (p : Playback) : p.upcoming = p.judged ++ p.judgeTick.upcoming := by
  have hkeyboard : p.judgeTick.keyboard = p.due.foldl Keyboard.apply p.keyboard := by rw [judgeTick_eq]
  rw [upcoming, upcoming, waiting_judgeTick, hkeyboard, keymap_judgeTick, judged, ← accepted_append,
    due_append_drop]

/-- What a playback has with all edges queued before its first tick: edges in order, the windows `w`, and
holds that fit their keys and their notes. -/
structure Running (w : Windows) (p : Playback) : Prop where
  timely : p.Timely
  keyed : p.Keyed
  order : p.InOrder
  windows : p.judge.windows = w
  early : 0.0 ≤ w.holdEarly
  timed : p.stage.Timed p.chart.notes p.playhead.speed

theorem Running.waiting (h : p.Running w) : (∀ e ∈ p.waiting, e.time.isFinite = true) ∧
    p.waiting.Pairwise fun a b => a.time ≤ b.time :=
  ⟨fun e he => h.timely.edges e (Array.mem_def.mpr (List.drop_subset _ _ he)),
    h.order.sublist (List.drop_sublist _ _)⟩

theorem Moves.upcoming {p' : Playback} (hm : p.Moves p') : p'.upcoming = p.upcoming := by
  rw [hm.same]
  rfl

/-- Stamping more live notes, as far as holds go. -/
theorem Running.moves {p' : Playback} (h : p.Running w) (hm : p.Moves p') (htimely : p'.Timely)
    (hspeed : p'.playhead.speed = p.playhead.speed) : p'.Running w ∧ p.Sustains p' := by
  have hsound := h.timely.sound
  have hsound' := htimely.sound
  obtain ⟨more, -, -, hstage⟩ := hm.exists_more
  have hold : ∀ {id : Nat} {n : LiveNote}, p.stage.board.live[id]? = some n →
      (p.stage.board.live ++ more)[id]? = some n := by
    intro id n hn
    rw [Array.getElem?_append, if_pos (Array.getElem?_eq_some_iff.mp hn).1]
    exact hn
  have hkeeps : p.stage.board.Keeps p'.stage.board := by
    rw [hstage]
    exact Board.keeps_stamp p.stage.board more
  refine ⟨?_, fun key finish id v hb => ?_⟩
  · refine
      { timely := htimely
        keyed := by rw [hm.same]; exact h.keyed
        order := by rw [hm.same]; exact h.order
        windows := by rw [hm.same]; exact h.windows
        early := h.early
        timed := ?_ }
    rw [hstage, hspeed, hm.chart]
    intro k hk
    obtain ⟨n, hn, hover⟩ := h.timed k hk
    exact ⟨n, hold hn, hover⟩
  · rw [Bears, hm.upcoming]
    have hsound'' : p'.stage.Sound p.chart.notes := hm.chart ▸ hsound'
    refine Stage.Bears.of_keeps hb hsound hsound'' hkeeps ?_ ?_
    · rw [hstage]
    · rw [hstage]
      exact fun k hk _ => hk

theorem Running.planAhead (h : p.Running w) : p.planAhead.Running w ∧ p.Sustains p.planAhead :=
  h.moves p.moves_planAhead (timely_planAhead h.timely)
    ((Playhead.unmarked_speed p.chart p.playhead.speed).plan _ _ rfl)

theorem Running.moveTick (h : p.Running w) (dt : Float) :
    (p.moveTick dt).Running w ∧ p.Sustains (p.moveTick dt) :=
  h.moves (p.moves_moveTick dt) (timely_moveTick h.timely dt)
    (unmarked_moveTick (Playhead.unmarked_speed p.chart p.playhead.speed) (fun _ _ heq => heq) rfl dt)

theorem Running.sound_staged (h : p.Running w) :
    p.staged.Sound p.scene.notes ∧ p.stage.Frame p.staged := by
  obtain ⟨hsound, hframe, -⟩ := @Stage.sound_edges p.scene p.stage p.judged h.timely.sound
  exact ⟨hsound, hframe⟩

theorem Running.judgeTick (h : p.Running w) : p.judgeTick.Running w := by
  obtain ⟨hsound, hframe⟩ := h.sound_staged
  have hstagedTimed : p.staged.Timed p.scene.notes p.scene.speed :=
    Stage.Timed.edges p.judged h.timed h.timely.sound
  have htimed := hstagedTimed.settleTime hsound p.playhead.time
  have hwindows : p.judgeTick.stage.judge.windows = p.stage.judge.windows := by
    rw [stage_judgeTick]
    exact ((Stage.frame_settleTime hsound p.playhead.time).windows).trans hframe.windows
  have hsame : p.judgeTick.edges = p.edges ∧ p.judgeTick.chart = p.chart ∧
      p.judgeTick.playhead.speed = p.playhead.speed := by
    rw [judgeTick_eq]
    exact ⟨rfl, rfl, rfl⟩
  refine
    { timely := timely_judgeTick h.timely
      keyed := keyed_judgeTick h.timely h.keyed
      order := ?_
      windows := hwindows.trans h.windows
      early := h.early
      timed := ?_ }
  · rw [InOrder, hsame.1]
    exact h.order
  · rw [stage_judgeTick, hsame.2.1, hsame.2.2]
    exact htimed

theorem Running.judgeTick_waiting (h : p.Running w) :
    (∀ e ∈ p.due ++ p.judgeTick.upcoming, e.time.isFinite = true) ∧
      ((p.due ++ p.judgeTick.upcoming).Pairwise fun a b => a.time ≤ b.time) ∧
      ∀ e ∈ p.judgeTick.upcoming, p.playhead.time ≤ e.time := by
  obtain ⟨hfinite, horder⟩ := h.waiting
  have hlater : p.judgeTick.upcoming.Sublist (p.waiting.drop p.due.length) := by
    rw [upcoming, waiting_judgeTick]
    exact accepted_sublist _ _ _
  have hsub : (p.due ++ p.judgeTick.upcoming).Sublist p.waiting := by
    rw [← due_append_drop p]
    exact hlater.append_left p.due
  refine ⟨fun e he => hfinite e (hsub.subset he), horder.sublist hsub, fun e he => ?_⟩
  have hmem := hlater.subset he
  have hdrop : p.waiting.drop p.due.length =
      p.waiting.dropWhile fun e => !decide (p.playhead.time < e.time) :=
    List.append_cancel_left ((due_append_drop p).trans (List.takeWhile_append_dropWhile).symm)
  rw [hdrop] at hmem
  exact (le_iff _ _).mpr ⟨h.timely.isNumber,
    isNumber_of_isFinite (hfinite e ((List.dropWhile_sublist _).subset hmem)),
    le_time_of_not_due horder hmem⟩

/-- What is left of a tick once some edges are judged bears out the verdict that they bear out. -/
theorem Running.bears_rest (h : p.Running w) {l l' : List Edge} (hdue : p.due = l ++ l')
    (hb : ((accepted p.keymap p.keyboard l).foldl (fun s e => s.edge p.scene e) p.stage).Bears key finish
      id (accepted p.keymap (l.foldl Keyboard.apply p.keyboard) l' ++ p.judgeTick.upcoming) v) :
    p.judgeTick.Bears key finish id v := by
  obtain ⟨hfinite, horder, hlater⟩ := h.judgeTick_waiting
  rw [hdue, List.append_assoc] at hfinite horder
  obtain ⟨hsound, hkeyed⟩ := @Stage.keyed_edges p.keymap p.scene l
    (fun e he => hfinite e (List.mem_append_left _ he)) _ _ h.timely.sound h.keyed
  have hframe := (@Stage.sound_edges p.scene p.stage (accepted p.keymap p.keyboard l)
    h.timely.sound).2.1
  have hearly : 0.0 ≤ p.stage.judge.windows.holdEarly := h.windows.symm ▸ h.early
  set s := (accepted p.keymap p.keyboard l).foldl (fun s e => s.edge p.scene e) p.stage with hs
  have hrest := hb.edges hsound hkeyed (by rw [hframe.windows]; exact hearly)
    (fun e he => hfinite e (List.mem_append_right _ he)) (List.pairwise_append.mp horder).2.1
  have hstaged : p.staged =
      (accepted p.keymap (l.foldl Keyboard.apply p.keyboard) l').foldl (fun s e => s.edge p.scene e) s := by
    rw [staged, judged, hdue, accepted_append, List.foldl_append]
  rw [← hstaged] at hrest
  obtain ⟨hsound', hframe'⟩ := h.sound_staged
  rw [Bears, stage_judgeTick]
  exact hrest.settleTime hsound' (by rw [hframe'.windows]; exact hearly)
    (fun e he => hfinite e (List.mem_append_right _ (List.mem_append_right _ he))) hlater

theorem Running.tick (h : p.Running w) (dt : Float) :
    (p.tick dt).Running w ∧ p.Sustains (p.tick dt) := by
  obtain ⟨hplanned, hplan⟩ := h.planAhead
  obtain ⟨hmoved, hmove⟩ := hplanned.judgeTick.moveTick dt
  refine ⟨hmoved, fun key finish id v hb => hmove key finish id v ?_⟩
  have hnow := hplan key finish id v hb
  rw [Bears, upcoming_eq p.planAhead] at hnow
  exact hplanned.bears_rest (l := []) rfl hnow

/-- A playback goes on to bear out the verdicts that it bears out. -/
theorem Running.played (h : p.Running w) (dts : List Float) :
    (p.played dts).Running w ∧ p.Sustains (p.played dts) := by
  induction dts generalizing p with
  | nil => exact ⟨h, fun _ _ _ _ hb => hb⟩
  | cons dt dts ih =>
      obtain ⟨hticked, htick⟩ := h.tick dt
      obtain ⟨hplayed, hplay⟩ := ih hticked
      exact ⟨hplayed, fun key finish id v hb => hplay key finish id v (htick key finish id v hb)⟩

end Playback

end RhythmChart
