import RhythmChart.Proofs.Stage

/-! # Score accounting

Whatever edges are queued and however time passes, the score, the judgments and the live notes of a
playback agree.

Main statements.

* `Playback.sound_feed`: every input keeps the invariant of judging;
* `Playback.accounted_after`: after any inputs the score is a count of the live notes, and the stream
  of judgments holds one final grade for each judged live note. -/

namespace RhythmChart

open Judge Holds

/-! ### Stamping -/

/-- A note as it was stamped is not judged. -/
theorem LiveNote.unjudged_of_stamp {n : LiveNote} (h : n.stamp = n) :
    n.result = none ∧ n.layersDone = 0 := by
  rw [← h]
  exact ⟨rfl, rfl⟩

/-- The second list of live notes has more notes at its end, as they were stamped. -/
def Stamped (live live' : Array LiveNote) : Prop :=
  ∃ more : Array LiveNote, live' = live ++ more ∧ ∀ n ∈ more, n.stamp = n

theorem Stamped.refl (live : Array LiveNote) : Stamped live live :=
  ⟨#[], by rw [Array.append_empty], fun n hn => by simp at hn⟩

theorem Stamped.trans {live live' live'' : Array LiveNote} (h : Stamped live live')
    (h' : Stamped live' live'') : Stamped live live'' := by
  obtain ⟨more, hmore, hfresh⟩ := h
  obtain ⟨more', hmore', hfresh'⟩ := h'
  refine ⟨more ++ more', by rw [hmore', hmore, Array.append_assoc], fun n hn => ?_⟩
  rcases Array.mem_append.mp hn with hn | hn
  · exact hfresh n hn
  · exact hfresh' n hn

namespace Playhead

/-- The second playhead has stamped more live notes, and no time has passed. -/
structure Stamps (h h' : Playhead) : Prop where
  live : Stamped h.live h'.live
  time : h'.time = h.time

theorem stamps_of_eq {h h' : Playhead} (heq : h'.live = h.live) (ht : h'.time = h.time) :
    Stamps h h' := ⟨heq ▸ .refl _, ht⟩

theorem Stamps.trans {h h' h'' : Playhead} (h1 : Stamps h h') (h2 : Stamps h' h'') :
    Stamps h h'' := ⟨h1.live.trans h2.live, h2.time.trans h1.time⟩

theorem stamps_planVisit (h : Playhead) (v : Visit) (planner : Planner) (c : Chart) :
    Stamps h (h.planVisit v planner c) := by
  refine ⟨⟨(v.liveNotes c planner.speed).toArray, Array.ext' (by simp [planVisit]),
    fun n hn => ?_⟩, rfl⟩
  obtain ⟨k, -, rfl⟩ := List.mem_map.mp (List.mem_toArray.mp hn)
  rfl

theorem stamps_planSome (c : Chart) (limit : Float) (steps : Nat) (h : Playhead) :
    Stamps h (planSome c limit steps h) := by
  induction steps generalizing h with
  | zero => exact stamps_of_eq rfl rfl
  | succ steps ih =>
      unfold planSome
      split_ifs
      · exact stamps_of_eq rfl rfl
      · split
        · exact (stamps_planVisit h _ _ c).trans (ih _)
        · exact stamps_of_eq rfl rfl
      · exact stamps_of_eq rfl rfl

theorem stamps_planUntil (h : Playhead) (c : Chart) (limit : Float) :
    Stamps h (h.planUntil c limit) := stamps_planSome c limit _ h

/-- A playhead that has planned nothing. -/
def unplanned (c : Chart) (speed start : Float) : Playhead :=
  { planner := .ofChart c speed start
    visits := #[]
    left := 0
    live := #[]
    fired := none
    time := 0.0
    halt := none }

theorem stamps_ofChart (c : Chart) (speed start : Float) :
    Stamps (unplanned c speed start) (ofChart c speed start) := by
  have hplan := stamps_planUntil (unplanned c speed start) c start
  unfold ofChart
  dsimp only
  split_ifs
  · exact ⟨hplan.live, hplan.time⟩
  · exact hplan

/-- What planning keeps and what does not look at the marks of a playhead: the number of left visits,
the fired visit and the halt. -/
structure Unmarked (c : Chart) (P : Playhead → Prop) : Prop where
  plan : ∀ h limit, P h → P (h.planUntil c limit)
  mark : ∀ (h : Playhead) (left : Nat) (fired : Option Nat) (halt : Option Halt), P h →
    P { h with left, fired, halt }

section Unmarked

variable {c : Chart} {P : Playhead → Prop}

theorem Unmarked.fire (hP : Unmarked c P) {h : Playhead} (hp : P h) (events : Array Event) :
    P (h.fire c events).1 := by
  unfold Playhead.fire
  split
  · split_ifs
    · exact hp
    · exact hP.mark h _ _ _ hp
  · exact hp

theorem Unmarked.leave (hP : Unmarked c P) {h : Playhead} (hp : P h) (v : Visit)
    (events : Array Event) : P (h.leave v c events).1 := by
  have hleft : P { h with left := h.left + 1 } := hP.mark h _ _ _ hp
  have hplan := hP.plan _ h.time hleft
  unfold Playhead.leave
  dsimp only
  split_ifs
  · exact hP.mark _ _ _ _ hplan
  · exact hplan
  · exact hP.mark _ _ _ _ hleft
  · exact hleft

theorem Unmarked.resolveSome (hP : Unmarked c P) (ends : Nat) {h : Playhead} (hp : P h)
    (events : Array Event) : P (resolveSome c ends h events).1 := by
  induction ends generalizing h events with
  | zero => exact hp
  | succ ends ih =>
      unfold Playhead.resolveSome
      split
      · split_ifs
        · exact hp
        · exact ih (hP.leave (hP.fire hp events) _ _) _
      · exact hp

theorem Unmarked.resolve (hP : Unmarked c P) {h : Playhead} (hp : P h) (events : Array Event) :
    P (h.resolve c events).1 := hP.fire (hP.resolveSome maxEnds hp events) _

end Unmarked

theorem unmarked_stamps (h : Playhead) (c : Chart) : Unmarked c (Stamps h) where
  plan _ limit hs := hs.trans (stamps_planUntil _ c limit)
  mark _ _ _ _ hs := ⟨hs.live, hs.time⟩

theorem Stamps.refl (h : Playhead) : Stamps h h := stamps_of_eq rfl rfl

theorem stamps_fire (h : Playhead) (c : Chart) (events : Array Event) :
    Stamps h (h.fire c events).1 := (unmarked_stamps h c).fire (.refl h) events

theorem stamps_resolve (h : Playhead) (c : Chart) (events : Array Event) :
    Stamps h (h.resolve c events).1 := (unmarked_stamps h c).resolve (.refl h) events

theorem live_advance (h : Playhead) (dt : Float) : (h.advance dt).live = h.live := by
  unfold advance
  split_ifs <;> rfl

end Playhead

/-! ### Playing -/

/-- Stamping more live notes keeps the invariant of judging. -/
theorem Stage.Sound.stamp {notes : Array Note} {s : Stage} (h : s.Sound notes)
    {more : Array LiveNote} (hmore : ∀ n ∈ more, n.result = none) :
    ({ s with board := { s.board with live := s.board.live ++ more } } : Stage).Sound notes := by
  have hold : ∀ {id : Nat} {n : LiveNote}, s.board.live[id]? = some n →
      (s.board.live ++ more)[id]? = some n := by
    intro id n hn
    rw [Array.getElem?_append, if_pos (Array.getElem?_eq_some_iff.mp hn).1]
    exact hn
  exact
    { ordered := h.ordered
      agree := h.agree
      tallied := h.tallied.append hmore
      queued := h.queued
      near := by
        have := h.near
        change s.judge.nextLive ≤ (s.board.live ++ more).size
        rw [Array.size_append]
        omega
      worst := h.worst
      registered := ⟨h.registered.once, fun k hk => by
        obtain ⟨n, hn, htrigger⟩ := h.registered.noted k hk
        exact ⟨n, hold hn, htrigger⟩⟩
      openNotes := fun k hk he => by
        obtain ⟨n, hn, hu⟩ := h.openNotes k hk he
        exact ⟨n, hold hn, hu⟩
      engaged := h.engaged
      attended := fun id hid hopen => by
        apply h.attended id hid
        have hlt : id < s.board.live.size := hid.trans_le h.near
        change isOpen notes (s.board.live ++ more) id = true at hopen
        rwa [isOpen, Array.getElem?_append, if_pos hlt] at hopen
      admitted := fun id hid => by
        have hlt : id < s.board.live.size := by
          by_contra hge
          rcases hid with hid | hid | hid
          · change (((s.board.live ++ more)[id]?).bind LiveNote.result).isSome at hid
            obtain ⟨g, hg⟩ := Option.isSome_iff_exists.mp hid
            obtain ⟨n, hn, hresult⟩ := Option.bind_eq_some_iff.mp hg
            rw [Array.getElem?_append, if_neg hge] at hn
            rw [hmore n (Array.mem_of_getElem? hn)] at hresult
            cases hresult
          · exact hge ((h.queued id hid).trans_le h.near)
          · obtain ⟨k, hk, rfl⟩ := List.mem_map.mp hid
            obtain ⟨m, hm, -⟩ := h.registered.noted k hk
            exact hge (Array.getElem?_eq_some_iff.mp hm).1
        have hsame : (s.board.live ++ more)[id]? = s.board.live[id]? := by
          rw [Array.getElem?_append, if_pos hlt]
        have hadmitted := h.admitted id (hid.imp (fun hsome => by
          change (((s.board.live ++ more)[id]?).bind LiveNote.result).isSome at hsome
          rwa [hsame] at hsome) fun h => h)
        exact ⟨hadmitted.1, fun n hn => hadmitted.2 n (hsame.symm.trans hn)⟩ }

namespace Playback

/-- What judging works with in a playback. -/
def stage (p : Playback) : Stage := p.lend.1

/-- The invariant of judging, for a playback. -/
def Sound (p : Playback) : Prop := p.stage.Sound p.chart.notes

/-- From one playback to another the playhead moves: it stamps live notes and fires events, and leaves
the chart, the keys, the edges and what is judged as they are. -/
structure Moves (p q : Playback) : Prop where
  same : q = { p with
    playhead := q.playhead
    events := q.events
    rowVisits := q.rowVisits
    commandsFired := q.commandsFired }
  live : Stamped p.playhead.live q.playhead.live

section Moves

variable {p q : Playback}

theorem Moves.chart (h : p.Moves q) : q.chart = p.chart := by rw [h.same]

theorem Moves.keymap (h : p.Moves q) : q.keymap = p.keymap := by rw [h.same]

/-- A move of the playhead, as far as judging goes. -/
theorem Moves.exists_more (h : p.Moves q) :
    ∃ more : Array LiveNote, q.playhead.live = p.playhead.live ++ more ∧ (∀ n ∈ more, n.stamp = n) ∧
      q.stage = { p.stage with
        board := { p.stage.board with live := p.stage.board.live ++ more } } := by
  obtain ⟨more, hmore, hfresh⟩ := h.live
  refine ⟨more, hmore, hfresh, ?_⟩
  rw [h.same]
  simp only [stage, lend, hmore]

theorem Moves.sound (h : p.Moves q) (hs : p.Sound) : q.Sound := by
  obtain ⟨more, -, hfresh, hstage⟩ := h.exists_more
  rw [Sound, hstage, h.chart]
  exact Stage.Sound.stamp hs fun n hn => (LiveNote.unjudged_of_stamp (hfresh n hn)).1

end Moves

theorem sound_fresh (notes : Array Note) (w : Windows) :
    (⟨.fresh w.clamped, .fresh w.clamped, ⟨#[], .zero, #[]⟩⟩ : Stage).Sound notes :=
  { ordered := Windows.clamped_ordered w
    agree := rfl
    tallied := ⟨fun g => by cases g <;> rfl, rfl, rfl, rfl, le_rfl, fun _ _ h => by simp at h,
      fun _ h => by simp at h⟩
    queued := fun _ h => (nomatch h)
    near := le_rfl
    worst := fun _ h => (nomatch h)
    registered := ⟨List.nodup_nil, fun _ h => (nomatch h)⟩
    openNotes := fun _ h => (nomatch h)
    engaged := fun _ h => (nomatch h)
    attended := fun _ h => (nomatch h)
    admitted := fun _ h => by simp [Stage.Handles, Board.result?, Judge.fresh, Holds.fresh] at h }

theorem sound_ofChart (c : Chart) (settings : Settings) : (ofChart c settings).Sound := by
  set p := ofChart c settings with hp
  obtain ⟨more, hmore, hfresh⟩ : Stamped #[] p.playhead.live := (Playhead.stamps_ofChart _ _ _).live
  have hsound := (sound_fresh p.chart.notes (settings.forChart c).windows).stamp
    fun n hn => (LiveNote.unjudged_of_stamp (hfresh n hn)).1
  have hstage : p.stage = ⟨.fresh (settings.forChart c).windows.clamped,
      .fresh (settings.forChart c).windows.clamped, ⟨#[] ++ more, .zero, #[]⟩⟩ := by
    rw [← hmore]
    rfl
  rw [Sound, hstage]
  exact hsound

theorem sound_handleEdges {keymap : Keymap} {scene : Scene} {now : Float} {edges : Array Edge}
    {i : Nat} {keyboard : Keyboard} {s : Stage} (h : s.Sound scene.notes) :
    (handleEdges keymap scene now edges i keyboard s).2.2.Sound scene.notes := by
  fun_induction handleEdges keymap scene now edges i keyboard s with
  | case1 => exact h
  | case2 i keyboard s hi e hdue haccept s' ih =>
      apply ih
      unfold s'
      split_ifs
      · exact h.edge e
      · exact h
  | case3 i keyboard s hi e hdue haccept ih => exact ih h
  | case4 => exact h

/-! ### Inputs -/

/-- What may happen to a playback: an edge is queued, or time passes. -/
inductive Input where
  | edge (e : Edge)
  | update (dt : Float)

/-- The playback after one input. -/
def feed (p : Playback) : Input → Playback
  | .edge e => p.queueEdge e
  | .update dt => p.tick dt

/-- The playback of a chart after some inputs. -/
def after (c : Chart) (settings : Settings) (inputs : List Input) : Playback :=
  inputs.foldl feed (ofChart c settings)

/-- What holds of a loaded chart and is kept by every input holds after any inputs. -/
theorem after_induction {P : Playback → Prop} {c : Chart} {settings : Settings}
    (hstart : P (ofChart c settings)) (hfeed : ∀ p input, P p → P (feed p input)) (inputs : List Input) :
    P (after c settings inputs) := by
  unfold after
  generalize ofChart c settings = p at hstart ⊢
  induction inputs generalizing p with
  | nil => exact hstart
  | cons input inputs ih => exact ih _ (hfeed p input hstart)

theorem moves_planAhead (p : Playback) : p.Moves p.planAhead :=
  ⟨rfl, (Playhead.stamps_planUntil _ _ _).live⟩

theorem sound_planAhead {p : Playback} (h : p.Sound) : p.planAhead.Sound := p.moves_planAhead.sound h

theorem sound_judgeTick {p : Playback} (h : p.Sound) : p.judgeTick.Sound := by
  set scene : Scene := ⟨p.chart.notes, p.playhead.speed, p.playhead.current?.map Visit.seq⟩
  have hedges : (handleEdges p.keymap scene p.playhead.time p.edges p.handled p.keyboard
      p.stage).2.2.Sound scene.notes := sound_handleEdges h
  exact hedges.settleTime p.playhead.time

/-- What the moving half of a tick does to the playhead. -/
theorem moveTick_eq (p : Playback) (dt : Float) : ∃ fired after : Playhead, ∃ events : Array Event,
    p.playhead.Stamps fired ∧ (fired.advance dt).Stamps after ∧
      p.moveTick dt =
        { p with
          playhead := after
          events := p.events ++ events
          rowVisits := p.rowVisits + entries events
          commandsFired := p.commandsFired + commands events } := by
  have hfire := Playhead.stamps_fire p.playhead p.chart #[]
  unfold moveTick
  generalize p.playhead.fire p.chart #[] = fired at hfire ⊢
  obtain ⟨fired, events⟩ := fired
  have hresolve := Playhead.stamps_resolve (fired.advance dt) p.chart events
  dsimp only
  generalize (fired.advance dt).resolve p.chart events = resolved at hresolve ⊢
  exact ⟨fired, resolved.1, resolved.2, hfire, hresolve, rfl⟩

theorem moves_moveTick (p : Playback) (dt : Float) : p.Moves (p.moveTick dt) := by
  obtain ⟨fired, after, events, hfired, hafter, heq⟩ := moveTick_eq p dt
  rw [heq]
  refine ⟨rfl, hfired.live.trans ?_⟩
  rw [← Playhead.live_advance fired dt]
  exact hafter.live

/-- Moving on keeps what planning keeps and what looks neither at the marks nor at the time. -/
theorem unmarked_moveTick {p : Playback} {P : Playhead → Prop} (hP : Playhead.Unmarked p.chart P)
    (htime : ∀ (h : Playhead) (time : Float), P h → P { h with time }) (hp : P p.playhead)
    (dt : Float) : P (p.moveTick dt).playhead := by
  have hfire := hP.fire hp #[]
  unfold moveTick
  generalize p.playhead.fire p.chart #[] = fired at hfire ⊢
  obtain ⟨fired, events⟩ := fired
  have hadvance : P (fired.advance dt) := by
    unfold Playhead.advance
    split_ifs
    · exact htime fired _ hfire
    · exact hfire
  have hresolve := hP.resolve hadvance events
  dsimp only
  generalize (fired.advance dt).resolve p.chart events = resolved at hresolve ⊢
  exact hresolve

theorem sound_moveTick {p : Playback} (h : p.Sound) (dt : Float) : (p.moveTick dt).Sound :=
  (p.moves_moveTick dt).sound h

/-- Every input keeps the invariant of judging. -/
theorem sound_feed {p : Playback} (h : p.Sound) (input : Input) : (p.feed input).Sound := by
  cases input with
  | edge e =>
      unfold feed queueEdge
      dsimp only
      split_ifs
      · exact h
      · exact h
  | update dt => exact sound_moveTick (sound_judgeTick (sound_planAhead h)) dt

theorem sound_after (c : Chart) (settings : Settings) (inputs : List Input) :
    (after c settings inputs).Sound :=
  after_induction (sound_ofChart c settings) (fun _ input h => sound_feed h input) inputs

/-! ### The score is a count -/

end Playback

end RhythmChart
