import RhythmChart.Proofs.Keying

/-! # The grip on a hold

What becomes of a hold that a key has begun depends on the later edges of judged keys alone: on when its
own key is released, and on which key is pressed next while it is released.

Main statements.

* `Grip.step` and `Grip.verdict`: a hold as an automaton that is told of edges only;
* `Grip.verdict_of_timeFate`: the grade that time gives to a hold is the verdict on its grip, no matter
  which edges follow;
* `Stage.Bears`: a stage and the edges to come bear out a verdict on a hold;
* `Stage.Bears.edge` and `Stage.Bears.settleTime`: edges and time keep that. -/

namespace RhythmChart

open Judge Holds Binary64

/-- What is not above a finite float is not above it with something taken off. -/
theorem Binary64.sub_le_of_le_of_nonneg {x y z : Float} (hy : 0.0 ≤ y) (hz : z.isFinite = true)
    (hle : x ≤ z) : x - y ≤ z := by
  obtain ⟨hyn, hyv⟩ := (zero_le_iff y).mp hy
  obtain ⟨hx, hzn, hv⟩ := (le_iff x z).mp hle
  obtain ⟨r, hr⟩ := exists_coe_of_isFinite hz
  have hn : IsNumber (x - y) := by
    refine (isNumber_sub_iff x y).mpr ⟨hx, hyn, fun h => ?_, fun h => ?_⟩
    · rw [h.1, hr] at hv
      exact EReal.coe_ne_top r (top_le_iff.mp hv)
    · exact not_bot_of_zero_le hy (EReal.neg_eq_top_iff.mp h.2)
  have hsub : value x - value y ≤ value x := by
    have := EReal.sub_le_sub (le_refl (value x)) hyv
    rwa [sub_zero] at this
  refine (le_iff _ _).mpr ⟨hn, hzn, ?_⟩
  rw [value_sub hn]
  exact ((nearest_mono hsub).trans_eq (nearest_value x)).trans hv

/-! ### The automaton -/

/-- What a hold has come to since its key went down. -/
inductive Grip where
  | holding
  | guarded (released : Float)
  | judged (grade : Grade) (time : Float)

namespace Grip

/-- The end of a hold whose key does not come back: it is complete if its own end comes before the grace
period is over, and missed when that period is over. -/
def lapse (w : Windows) (finish released : Float) : Grade × Float :=
  if finish ≤ released + w.holdGrace then (.critical, finish)
  else (.tooLate, released + w.holdGrace)

/-- Whether a press at `time` still finds a released hold waiting for its key. -/
def Waits (w : Windows) (finish released time : Float) : Prop :=
  time - released ≤ w.holdGrace ∧ ¬ (finish ≤ released + w.holdGrace ∧ finish ≤ time)

instance (w : Windows) (finish released time : Float) : Decidable (Waits w finish released time) :=
  inferInstanceAs (Decidable (_ ∧ _))

/-- The grip after an edge.  The hold is driven by `key` and over at `finish`. -/
def step (w : Windows) (key : Key) (finish : Float) (x : Grip) (e : Edge) : Grip :=
  match x with
  | holding =>
    if e.pressed = false ∧ e.key = key then
      if finish - w.holdEarly ≤ e.time then
        judged .critical (if finish ≤ e.time then finish else e.time)
      else guarded e.time
    else holding
  | guarded released =>
    if e.pressed = true then
      if Waits w finish released e.time then
        if e.key = key then holding else judged .tooLate e.time
      else judged (lapse w finish released).1 (lapse w finish released).2
    else guarded released
  | judged grade time => judged grade time

/-- The grade of a hold, and the time at which it gets it, when no more edges come. -/
def verdict (w : Windows) (finish : Float) : Grip → Grade × Float
  | holding => (.critical, finish)
  | guarded released => lapse w finish released
  | judged grade time => (grade, time)

/-- The verdict on a hold that has come to `x`, with the given edges to come. -/
def outcome (w : Windows) (key : Key) (finish : Float) (x : Grip) (later : List Edge) : Grade × Float :=
  verdict w finish (later.foldl (step w key finish) x)

/-- The phase of a hold with the grip `x`, which a press of grade `entry` began; none when it is over. -/
def phase? (key : Key) (entry : Grade) : Grip → Option HoldPhase
  | holding => some (.holding key entry)
  | guarded released => some (.guarded key entry released)
  | judged _ _ => none

/-- The grip after an edge when a released hold waits for its key exactly if the release comes before the
tolerance for early releases begins. -/
def strictStep (w : Windows) (key : Key) (finish : Float) (x : Grip) (e : Edge) : Grip :=
  match x with
  | holding =>
    if e.pressed = false ∧ e.key = key then
      if e.time < finish - w.holdEarly then guarded e.time
      else judged .critical (if finish ≤ e.time then finish else e.time)
    else holding
  | x => step w key finish x e

/-- The verdict on a hold by `strictStep`. -/
def strictOutcome (w : Windows) (key : Key) (finish : Float) (x : Grip) (later : List Edge) :
    Grade × Float :=
  verdict w finish (later.foldl (strictStep w key finish) x)

variable {w : Windows} {key : Key} {finish : Float}

theorem outcome_cons (x : Grip) (e : Edge) (later : List Edge) :
    outcome w key finish x (e :: later) = outcome w key finish (step w key finish x e) later := rfl

theorem outcome_judged (grade : Grade) (time : Float) (later : List Edge) :
    outcome w key finish (judged grade time) later = (grade, time) := by
  induction later with
  | nil => rfl
  | cons e later ih => exact ih

/-- When the beginning of the tolerance is a number, a release comes before it or it does not. -/
theorem strictStep_eq (hn : IsNumber (finish - w.holdEarly)) {e : Edge} (he : e.time.isFinite = true)
    (x : Grip) : strictStep w key finish x e = step w key finish x e := by
  cases x with
  | guarded released => rfl
  | judged grade time => rfl
  | holding =>
      unfold strictStep step
      dsimp only
      by_cases hle : finish - w.holdEarly ≤ e.time
      · rw [if_neg (not_lt_of_le hle), if_pos hle]
      · have hlt : e.time < finish - w.holdEarly := by
          by_contra hge
          exact hle (le_of_not_lt (isNumber_of_isFinite he) hn hge)
        rw [if_pos hlt, if_neg hle]

theorem strictOutcome_eq (hn : IsNumber (finish - w.holdEarly)) {later : List Edge}
    (hfinite : ∀ e ∈ later, e.time.isFinite = true) (x : Grip) :
    strictOutcome w key finish x later = outcome w key finish x later := by
  induction later generalizing x with
  | nil => rfl
  | cons e later ih =>
      have hstep : strictStep w key finish x e = step w key finish x e :=
        strictStep_eq hn (hfinite e List.mem_cons_self) x
      rw [strictOutcome, List.foldl_cons, hstep]
      exact ih (fun k hk => hfinite k (List.mem_cons_of_mem _ hk)) _

/-! ### Time -/

/-- A hold that is kept until its end is complete, whatever comes after. -/
theorem outcome_holding (hearly : 0.0 ≤ w.holdEarly) {later : List Edge}
    (hfinite : ∀ e ∈ later, e.time.isFinite = true) (hover : ∀ e ∈ later, finish ≤ e.time) :
    outcome w key finish holding later = (.critical, finish) := by
  induction later with
  | nil => rfl
  | cons e later ih =>
      rw [outcome_cons, step]
      have hend : finish ≤ e.time := hover e List.mem_cons_self
      have hoff := sub_le_of_le_of_nonneg hearly (hfinite e List.mem_cons_self) hend
      split_ifs with hreleased
      · exact outcome_judged _ _ _
      · exact ih (fun k hk => hfinite k (List.mem_cons_of_mem _ hk))
          fun k hk => hover k (List.mem_cons_of_mem _ hk)

/-- A released hold that no press finds waiting lapses, whatever comes after. -/
theorem outcome_guarded {released : Float} {later : List Edge}
    (hlate : ∀ e ∈ later, ¬ Waits w finish released e.time) :
    outcome w key finish (guarded released) later = lapse w finish released := by
  induction later with
  | nil => rfl
  | cons e later ih =>
      rw [outcome_cons, step, if_neg (hlate e List.mem_cons_self)]
      split_ifs
      · exact outcome_judged _ _ _
      · exact ih fun k hk => hlate k (List.mem_cons_of_mem _ hk)

/-- The grade that time gives to a hold is the verdict on its grip, no matter which edges follow. -/
theorem outcome_of_timeFate (hearly : 0.0 ≤ w.holdEarly) {now : Float} {h : Hold} {entry : Grade}
    {x : Grip} (hphase : x.phase? key entry = some h.phase) {g : Grade} {time : Float}
    (hfate : timeFate w now .blank h = .grade g time) {later : List Edge}
    (hfinite : ∀ e ∈ later, e.time.isFinite = true) (hlater : ∀ e ∈ later, now ≤ e.time) :
    outcome w key h.finish x later = (g, time) := by
  cases x with
  | judged => cases hphase
  | holding =>
      obtain hp : h.phase = .holding key entry := (Option.some.inj hphase).symm
      simp only [timeFate, hp] at hfate
      split_ifs at hfate with hover
      cases hfate
      exact outcome_holding hearly hfinite fun e he => le_of_le_of_le hover (hlater e he)
  | guarded released =>
      obtain hp : h.phase = .guarded key entry released := (Option.some.inj hphase).symm
      simp only [timeFate, hp] at hfate
      split_ifs at hfate with hover hlost
      · cases hfate
        rw [outcome_guarded fun e he hwaits => hwaits.2 ⟨hover.1, le_of_le_of_le hover.2 (hlater e he)⟩,
          lapse, if_pos hover.1]
      · -- The grace period is over at `now`, so that the end of the hold does not come before that.
        cases hfate
        have hexpired : released + w.holdGrace ≤ now := add_le_of_lt_sub hlost
        rw [outcome_guarded fun e he hwaits =>
            not_lt_of_le hwaits.1 (lt_sub_of_lt_sub (hlater e he) hlost),
          lapse, if_neg fun hend => hover ⟨hend, le_of_le_of_le hend hexpired⟩]

end Grip

/-! ### Judgments are kept -/

namespace Board

/-- The second board keeps the grades and the judgments of the first one. -/
structure Keeps (b b' : Board) : Prop where
  final : ∀ id g, b.result? id = some g → b'.result? id = some g
  stream : b.judgments.toList <+: b'.judgments.toList

theorem Keeps.refl (b : Board) : Keeps b b := ⟨fun _ _ h => h, List.prefix_rfl⟩

theorem Keeps.trans {b b' b'' : Board} (h : Keeps b b') (h' : Keeps b' b'') : Keeps b b'' :=
  ⟨fun id g hg => h'.final id g (h.final id g hg), h.stream.trans h'.stream⟩

/-- More live notes leave what is announced alone. -/
theorem keeps_stamp (b : Board) (more : Array LiveNote) : Keeps b { b with live := b.live ++ more } := by
  refine ⟨fun i g hg => ?_, List.prefix_rfl⟩
  obtain ⟨n, hn, hresult⟩ := Option.bind_eq_some_iff.mp hg
  refine Option.bind_eq_some_iff.mpr ⟨n, ?_, hresult⟩
  rw [Array.getElem?_append, if_pos (Array.getElem?_eq_some_iff.mp hn).1]
  exact hn

/-- A board has announced that a live note got the grade `g` at some time, and no other grade of it. -/
def Gave (b : Board) (id : Nat) (g : Grade) (time : Float) : Prop :=
  b.result? id = some g ∧ finalTimes b.judgments id = [time]

theorem length_finalTimes (judgments : Array Judgment) (id : Nat) :
    (finalTimes judgments id).length = (finals judgments id).length := by
  rw [finalTimes, finals, List.length_map, List.length_map]

/-- A live note that has its grade is announced once. -/
theorem length_finalTimes_eq_one {b : Board} (h : b.Tallied) {id : Nat} {g : Grade}
    (hg : b.result? id = some g) : (finalTimes b.judgments id).length = 1 := by
  obtain ⟨n, hn, hresult⟩ := Option.bind_eq_some_iff.mp hg
  rw [length_finalTimes, h.stream id n hn, hresult]
  rfl

/-- What is announced about a judged note stays as it is. -/
theorem Gave.of_keeps {b b' : Board} {id : Nat} {g : Grade} {time : Float} (h : b.Gave id g time)
    (hk : Keeps b b') (hb : b.Tallied) (hb' : b'.Tallied) : b'.Gave id g time := by
  have hfinal := hk.final id g h.1
  refine ⟨hfinal, ?_⟩
  have hinit : finalTimes b.judgments id <+: finalTimes b'.judgments id :=
    (hk.stream.filter _).map _
  rw [← h.2]
  exact (hinit.eq_of_length ((length_finalTimes_eq_one hb h.1).trans
    (length_finalTimes_eq_one hb' hfinal).symm)).symm

theorem prefix_announce (b : Board) (id : Nat) (n : LiveNote) (g : Grade) (time : Float)
    (layer : Option Nat) : b.judgments.toList <+: (b.announce id n g time layer).judgments.toList := by
  change b.judgments.toList <+: (b.judgments.push _).toList
  rw [Array.toList_push]
  exact List.prefix_append _ _

end Board

theorem Judge.prefix_expire (w : Windows) (now : Float) (scans : Nat) (queue : List Nat)
    (worst : List (Nat × Float × Grade)) (b : Board) :
    b.judgments.toList <+: (expire w now scans queue worst b).2.2.judgments.toList := by
  fun_induction expire w now scans queue worst b with
  | case1 => exact List.prefix_rfl
  | case2 => exact List.prefix_rfl
  | case3 scans id queue worst b hb ih => exact ih
  | case4 scans id queue worst b n hb hj ih => exact ih
  | case5 => exact List.prefix_rfl
  | case6 scans id queue worst b n hb hj hlate grade ih =>
      exact (Board.prefix_announce _ id n grade now none).trans ih

theorem Judge.prefix_pressLayer (j : Judge) (time : Float) (layers id : Nat) (n : LiveNote) (b : Board) :
    b.judgments.toList <+: (j.pressLayer time layers id n b).2.judgments.toList := by
  have hlayer := Board.prefix_announce b id n (j.windows.grade (n.trigger - time)) time
    (some n.layersDone)
  unfold pressLayer
  dsimp only
  split_ifs
  · exact hlayer.trans (Board.prefix_announce _ id n _ time none)
  · exact hlayer

namespace Holds

theorem prefix_finishHold (h : Hold) (g : Grade) (time : Float) (b : Board) :
    b.judgments.toList <+: (finishHold h g time b).judgments.toList := by
  unfold finishHold
  cases g.isMiss <;> cases h.phase.key?
  all_goals
    dsimp only
    split
    · exact Board.prefix_announce _ h.live _ g time none
    · exact List.prefix_rfl

theorem prefix_sweep (fate : Board → Hold → HoldFate) (hs : List Hold) (b : Board) :
    b.judgments.toList <+: (sweep fate hs b).2.judgments.toList := by
  induction hs generalizing b with
  | nil => exact List.prefix_rfl
  | cons h rest ih =>
      unfold sweep
      cases fate b h with
      | goOn h' => exact ih b
      | grade g time => exact (prefix_finishHold h g time b).trans (ih _)
      | drop => exact ih b

end Holds

/-! ### Stages -/

namespace Stage

variable {notes : Array Note} {scene : Scene} {s : Stage}

theorem keeps_maintain (h : s.Sound scene.notes) (now : Float) :
    s.board.Keeps (s.maintain scene now).board := by
  unfold Stage.maintain
  rw [maintain_eq]
  exact ⟨(judges_expire h.ordered _ _ _ _ _).final, prefix_expire _ _ _ _ _ _⟩

theorem keeps_board_change (h : s.Sound notes) {fate : Board → Hold → HoldFate} (hf : Lawful fate) :
    s.board.Keeps (s.change fate).board :=
  ⟨(swept hf h.registered.once h.openNotes).judges.final, prefix_sweep _ _ _⟩

/-- What becomes of an engaged hold in a change that looks at the board for idle ones only. -/
theorem change_engaged (hs : s.Sound notes) {fate : Board → Hold → HoldFate} (hf : Lawful fate)
    (hblind : Blind fate) {h : Hold} (hh : h ∈ s.holds.holds) (he : h.phase.isEngaged = true) :
    (∀ h', fate .blank h = .goOn h' → h' ∈ (s.change fate).holds.holds) ∧
      ∀ g time, fate .blank h = .grade g time → (s.change fate).board.Gave h.live g time := by
  constructor
  · intro h' hgo
    obtain ⟨b, -, hiff⟩ := mem_sweep hf hs.registered.once hs.openNotes hh
    exact (hiff h' (hf.continues hgo).live).mpr ((hblind b h he).trans hgo)
  · intro g time hgrade
    have hrecord := (swept_record hf hblind hs.registered.once hs.openNotes).record h hh
    obtain ⟨n, hn, hu⟩ := hs.openNotes h hh he
    have hnone : Board.finalTimes s.board.judgments h.live = [] :=
      Board.finalTimes_eq_nil hs.tallied (by rw [Board.result?, hn, Option.bind_some, hu])
    rw [hgrade] at hrecord
    have hgrade' := congrArg Record.grade hrecord
    have htimes := congrArg Record.times hrecord
    change Board.finalTimes (s.change fate).board.judgments h.live =
      Board.finalTimes s.board.judgments h.live ++ [time] at htimes
    rw [hnone] at htimes
    exact ⟨hgrade', htimes⟩

/-- The hold of the live note `id`, driven by `key` and over at `finish`, has come to `x`. -/
inductive Gripped (s : Stage) (key : Key) (finish : Float) (id : Nat) : Grip → Prop where
  | engaged (x : Grip) (h : Hold) (entry : Grade) (hh : h ∈ s.holds.holds) (hlive : h.live = id)
      (hfinish : h.finish = finish) (hphase : x.phase? key entry = some h.phase) :
      Gripped s key finish id x
  | judged (g : Grade) (time : Float) (hgave : s.board.Gave id g time) :
      Gripped s key finish id (.judged g time)

variable {key : Key} {finish : Float} {id : Nat} {x : Grip}

/-- A hold with a grip that is not over is engaged. -/
theorem isEngaged_of_phase? {entry : Grade} {p : HoldPhase} (h : x.phase? key entry = some p) :
    p.isEngaged = true ∧ p.key? = some key := by
  cases x with
  | holding => cases h; exact ⟨rfl, rfl⟩
  | guarded released => cases h; exact ⟨rfl, rfl⟩
  | judged g time => cases h

/-- A step that leaves the hold and what was announced alone. -/
theorem Gripped.of_keeps {s' : Stage} (h : s.Gripped key finish id x) (hs : s.Sound notes)
    (hs' : s'.Sound notes) (hk : s.board.Keeps s'.board)
    (hholds : ∀ k ∈ s.holds.holds, k.phase.isEngaged = true → k ∈ s'.holds.holds) :
    s'.Gripped key finish id x := by
  cases h with
  | engaged x k entry hmem hlive hfinish hphase =>
      exact .engaged x k entry (hholds k hmem (isEngaged_of_phase? hphase).1) hlive hfinish hphase
  | judged g time hgave => exact .judged g time (hgave.of_keeps hk hs.tallied hs'.tallied)

/-- The stage and the edges to come bear out the verdict `v` on the hold of the live note `id`. -/
def Bears (s : Stage) (key : Key) (finish : Float) (id : Nat) (later : List Edge)
    (v : Grade × Float) : Prop :=
  ∃ x, s.Gripped key finish id x ∧ x.outcome s.judge.windows key finish later = v

variable {later : List Edge} {v : Grade × Float}

theorem Bears.of_keeps {s' : Stage} (h : s.Bears key finish id later v) (hs : s.Sound notes)
    (hs' : s'.Sound notes) (hk : s.board.Keeps s'.board)
    (hwindows : s'.judge.windows = s.judge.windows)
    (hholds : ∀ k ∈ s.holds.holds, k.phase.isEngaged = true → k ∈ s'.holds.holds) :
    s'.Bears key finish id later v := by
  obtain ⟨x, hx, hv⟩ := h
  exact ⟨x, hx.of_keeps hs hs' hk hholds, by rw [hwindows]; exact hv⟩

theorem Bears.maintain (h : s.Bears key finish id later v) (hs : s.Sound scene.notes) (now : Float) :
    (s.maintain scene now).Bears key finish id later v := by
  obtain ⟨ids, hgrows⟩ := grows_maintain hs now
  exact h.of_keeps hs (hs.maintain now) (keeps_maintain hs now) (frame_maintain hs now).windows
    fun k hk _ => hgrows.subset hk

/-- Time that comes before the edges to come. -/
theorem Bears.update (h : s.Bears key finish id later v) (hs : s.Sound notes)
    (hearly : 0.0 ≤ s.judge.windows.holdEarly) {now : Float}
    (hfinite : ∀ e ∈ later, e.time.isFinite = true) (hlater : ∀ e ∈ later, now ≤ e.time) :
    (s.updateHolds now).Bears key finish id later v := by
  have hf := lawful_timeFate s.holds.windows now
  have hs' : (s.change (timeFate s.holds.windows now)).Sound notes := hs.change hf
  obtain ⟨x, hx, rfl⟩ := h
  cases hx with
  | judged g time hgave =>
      exact ⟨_, .judged g time (hgave.of_keeps (keeps_board_change hs hf) hs.tallied hs'.tallied), rfl⟩
  | engaged x k entry hmem hlive hfinish hphase =>
      obtain ⟨hgo, hgrade⟩ := change_engaged hs hf (blind_timeFate _ _) hmem
        (isEngaged_of_phase? hphase).1
      cases hfate : timeFate s.holds.windows now .blank k with
      | goOn k' =>
          obtain rfl := eq_of_timeFate hfate
          exact ⟨x, .engaged x _ entry (hgo _ hfate) hlive hfinish hphase, rfl⟩
      | grade g time =>
          have hgave := hgrade g time hfate
          rw [hs.agree] at hfate
          have houtcome := Grip.outcome_of_timeFate hearly hphase hfate hfinite hlater
          rw [hfinish] at houtcome
          refine ⟨.judged g time, .judged g time (hlive ▸ hgave), ?_⟩
          rw [houtcome]
          exact Grip.outcome_judged _ _ _
      | drop =>
          have hidle := hf.idle hfate
          rw [(isEngaged_of_phase? hphase).1] at hidle
          cases hidle

/-- A press that resumes no hold keeps what is announced and the engaged holds. -/
theorem keeps_board_hit (h : s.Sound scene.notes) (key : Key) (time : Float) :
    s.board.Keeps (s.hit scene key time).board ∧
      ∀ k ∈ s.holds.holds, k.phase.isEngaged = true → k ∈ (s.hit scene key time).holds.holds := by
  have hempty : ∀ s' : Stage, s'.board.Keeps (s'.chargeEmpty scene key time).board := by
    intro s'
    unfold Stage.chargeEmpty
    split_ifs
    · exact ⟨fun _ _ hg => hg, List.prefix_rfl⟩
    · exact ⟨fun _ _ hg => hg, List.prefix_rfl⟩
  have hlanded := hit_cases h.registered scene key time
  generalize s.hit scene key time = s' at hlanded ⊢
  cases hlanded with
  | empty =>
      refine ⟨hempty s, fun k hk _ => ?_⟩
      rwa [holds_chargeEmpty]
  | single id n hr =>
      exact ⟨⟨(hits_pressSingle hr h.worst).judges.final, Board.prefix_announce _ id n _ time none⟩,
        fun k hk _ => hk⟩
  | layer layers id n hr =>
      exact ⟨⟨(hits_pressLayer hr h.worst layers).judges.final, prefix_pressLayer _ time layers id n _⟩,
        fun k hk _ => hk⟩
  | refused id n note hr _ _ _ t hg =>
      refine ⟨hempty ⟨s.judge, t, s.board⟩, fun k hk _ => ?_⟩
      rw [holds_chargeEmpty]
      exact hg.subset hk
  | begun id n note hr _ _ t hg _ _ _ _ g =>
      refine ⟨⟨fun _ _ hg => hg, List.prefix_rfl⟩, fun k hk he => ?_⟩
      -- The note of an engaged hold is not queued.
      rcases mem_or_mem_modifyFirst (fun k => k.live == id) (hold key g) (hg.subset hk)
        with hin | ⟨-, htest⟩
      · exact hin
      · exact absurd hr.queued (beq_iff_eq.mp htest ▸ (h.engaged k hk he).1)

/-- A released hold that time has left alone still waits for its key. -/
theorem waits_of_update {keymap : Keymap} {keyboard : Keyboard} (h : s.Sound notes)
    (hk : Keyed keymap keyboard s.holds.holds) {time : Float} (htime : time.isFinite = true) {k : Hold}
    (hmem : k ∈ (s.updateHolds time).holds.holds) {key : Key} {g : Grade} {released : Float}
    (hp : k.phase = .guarded key g released) :
    canResume s.holds.windows key time k = true ∧
      Grip.Waits s.holds.windows k.finish released time := by
  have hresume : canResume s.holds.windows key time k = true :=
    canResume_of_guarded h hk htime hmem hp
  obtain ⟨y, -, b, hgo⟩ := origin_sweep hmem
  obtain rfl := eq_of_timeFate hgo
  refine ⟨hresume, ?_, ?_⟩
  · simpa [canResume, hp] using hresume
  · simp only [timeFate, hp] at hgo
    split_ifs at hgo with hover
    exact hover

/-- The key that comes back finds the hold that it drives. -/
theorem resumed_mem_resume {keymap : Keymap} {keyboard : Keyboard}
    (hs : s.Sound notes) (hk : Keyed keymap keyboard s.holds.holds) {key : Key} {time : Float} {k : Hold}
    (hmem : k ∈ s.holds.holds) (hr : canResume s.holds.windows key time k = true) :
    resumed k ∈ (s.holds.resume key time).2.holds := by
  change resumed k ∈ modifyFirst (canResume s.holds.windows key time) resumed s.holds.holds
  rw [modifyFirst_eq_map hs.registered.once fun a ha b hb ha' hb' => ?_]
  · exact List.mem_map.mpr ⟨k, hmem, if_pos hr⟩
  · by_contra hne
    exact hk.apart.forall ha hb (fun heq => hne (congrArg Hold.live heq)) key (key_of_canResume ha')
      (key_of_canResume hb')

/-- A press that follows an update of queue and holds to its own time. -/
theorem Gripped.ready {keymap : Keymap} {keyboard : Keyboard} (hs : s.Sound scene.notes)
    (hk : Keyed keymap keyboard s.holds.holds) {e : Edge} (hfinite : e.time.isFinite = true)
    (hpressed : e.pressed = true)
    (h : (s.settleTime scene e.time).Gripped key finish id x) :
    (s.ready scene e.key e.time).2.Gripped key finish id (x.step s.judge.windows key finish e) := by
  have hmaintained := hs.maintain e.time
  have hkm := keyed_maintain hs hk e.time
  have hs₁ := hs.settleTime e.time
  have hk₁ := keyed_settleTime hs hk e.time
  have hagree : (s.maintain scene e.time).holds.windows = s.judge.windows :=
    hmaintained.agree.trans (frame_maintain hs e.time).windows
  set s₁ := s.settleTime scene e.time with hs₁_def
  set s₂ : Stage := { s₁ with holds := (s₁.holds.resume e.key e.time).2 } with hs₂_def
  have hs₂ : s₂.Sound scene.notes := hs₁.resume e.key e.time
  have hready : (s.ready scene e.key e.time).2 = s₂.change (crossFate e.key e.time) := rfl
  have hlawful := lawful_crossFate e.key e.time
  rw [hready]
  cases h with
  | judged g time hgave =>
      have hgave₂ : s₂.board.Gave id g time := hgave
      exact .judged g time (hgave₂.of_keeps (keeps_board_change hs₂ hlawful) hs₂.tallied
        (hs₂.change hlawful).tallied)
  | engaged x k entry hmem hlive hfinish hphase =>
      -- A hold that is not resumed is still there.
      have hstays : canResume s₁.holds.windows e.key e.time k ≠ true → k ∈ s₂.holds.holds := fun hnot =>
        (mem_or_mem_modifyFirst _ resumed hmem).resolve_right fun hin => hnot hin.2
      cases x with
      | judged g time => cases hphase
      | holding =>
          obtain hp : k.phase = .holding key entry := (Option.some.inj hphase).symm
          have hin : k ∈ s₂.holds.holds := hstays fun hr => by
            obtain ⟨g, released, hp'⟩ := guarded_of_canResume hr
            rw [hp] at hp'
            cases hp'
          have hgo : crossFate e.key e.time .blank k = .goOn k := by simp [crossFate, hp]
          rw [Grip.step, if_neg fun hreleased => by rw [hpressed] at hreleased; cases hreleased.1]
          exact .engaged _ k entry ((change_engaged hs₂ hlawful (blind_crossFate _ _) hin
            (isEngaged_of_phase? hphase).1).1 k hgo) hlive hfinish hphase
      | guarded released =>
          obtain hp : k.phase = .guarded key entry released := (Option.some.inj hphase).symm
          obtain ⟨hresume, hwaits⟩ := waits_of_update hmaintained hkm hfinite hmem hp
          rw [hagree, hfinish] at hwaits
          rw [Grip.step, if_pos hpressed, if_pos hwaits]
          split_ifs with hkey
          · have hr : resumed k ∈ s₂.holds.holds :=
              resumed_mem_resume hs₁ hk₁ hmem (by rw [hkey]; exact hresume)
            have hphase' : (resumed k).phase = .holding key entry := by rw [resumed, hp]
            have hgo : crossFate e.key e.time .blank (resumed k) = .goOn (resumed k) := by
              simp [crossFate, hphase']
            have hc := continues_resumed k
            exact .engaged _ _ entry ((change_engaged hs₂ hlawful (blind_crossFate _ _) hr
              (by rw [hphase']; rfl)).1 _ hgo) (hc.live.trans hlive) (hc.finish.trans hfinish)
              (congrArg some hphase'.symm)
          · have hin : k ∈ s₂.holds.holds := hstays fun hr => by
              obtain ⟨g, r, hp'⟩ := guarded_of_canResume hr
              rw [hp] at hp'
              cases hp'
              exact hkey rfl
            have hgrade : crossFate e.key e.time .blank k = .grade .tooLate e.time := by
              simp [crossFate, hp, Ne.symm hkey]
            exact .judged _ _ (hlive ▸ (change_engaged hs₂ hlawful (blind_crossFate _ _) hin
              (isEngaged_of_phase? hphase).1).2 _ _ hgrade)

theorem Bears.settleTime (h : s.Bears key finish id later v) (hs : s.Sound scene.notes)
    (hearly : 0.0 ≤ s.judge.windows.holdEarly) {now : Float}
    (hfinite : ∀ e ∈ later, e.time.isFinite = true) (hlater : ∀ e ∈ later, now ≤ e.time) :
    (s.settleTime scene now).Bears key finish id later v :=
  (h.maintain hs now).update (hs.maintain now) (by rwa [(frame_maintain hs now).windows]) hfinite hlater

section Edges

variable {keymap : Keymap} {keyboard : Keyboard} {e : Edge}

theorem Bears.press (h : s.Bears key finish id (e :: later) v) (hs : s.Sound scene.notes)
    (hk : Keyed keymap keyboard s.holds.holds) (hearly : 0.0 ≤ s.judge.windows.holdEarly)
    (hpressed : e.pressed = true) (hfinite : ∀ k ∈ e :: later, k.time.isFinite = true)
    (hlater : ∀ k ∈ e :: later, e.time ≤ k.time) :
    (s.press scene e.key e.time).Bears key finish id later v := by
  have hwindows := (frame_settleTime hs e.time).windows
  have hpress := (keeps_press hs e.key e.time).windows
  have hready := hs.ready e.key e.time
  obtain ⟨x, hx, hv⟩ := h.settleTime hs hearly hfinite hlater
  rw [hwindows, Grip.outcome_cons] at hv
  refine ⟨x.step s.judge.windows key finish e, ?_, by rw [hpress, hwindows]; exact hv⟩
  have hgrip := hx.ready hs hk (hfinite e List.mem_cons_self) hpressed
  rw [press_eq]
  split_ifs
  · exact hgrip
  · obtain ⟨hkeeps, hholds⟩ := keeps_board_hit hready e.key e.time
    exact hgrip.of_keeps hready (hready.hit e.key e.time) hkeeps hholds

theorem Bears.release (h : s.Bears key finish id (e :: later) v) (hs : s.Sound notes)
    (hearly : 0.0 ≤ s.judge.windows.holdEarly) (hpressed : e.pressed = false)
    (hfinite : ∀ k ∈ e :: later, k.time.isFinite = true)
    (hlater : ∀ k ∈ e :: later, e.time ≤ k.time) :
    (s.release e.key e.time).Bears key finish id later v := by
  have hs₁ : (s.updateHolds e.time).Sound notes := hs.change (lawful_timeFate _ e.time)
  obtain ⟨x, hx, hv⟩ := h.update hs hearly hfinite hlater
  set s₁ := s.updateHolds e.time with hs₁_def
  have hrelease : s.release e.key e.time = s₁.change (releaseFate s.judge.windows e.key e.time) := by
    rw [← hs.agree]
    rfl
  have hlawful := lawful_releaseFate s.judge.windows e.key e.time
  rw [hrelease]
  refine ⟨x.step s.judge.windows key finish e, ?_, hv⟩
  cases hx with
  | judged g time hgave =>
      exact .judged g time (hgave.of_keeps (keeps_board_change hs₁ hlawful) hs₁.tallied
        (hs₁.change hlawful).tallied)
  | engaged x k entry hmem hlive hfinish hphase =>
      obtain ⟨hgoOn, hgrade⟩ := change_engaged hs₁ hlawful (blind_releaseFate _ _ _) hmem
        (isEngaged_of_phase? hphase).1
      cases x with
      | judged g time => cases hphase
      | guarded released =>
          obtain hp : k.phase = .guarded key entry released := (Option.some.inj hphase).symm
          have hstep : (Grip.guarded released).step s.judge.windows key finish e =
              .guarded released := if_neg (by simp [hpressed])
          rw [hstep]
          exact .engaged _ k entry (hgoOn k (by simp [releaseFate, hp])) hlive hfinish hphase
      | holding =>
          obtain hp : k.phase = .holding key entry := (Option.some.inj hphase).symm
          -- The hold is not over, since time has left it alone.
          have hnot : ¬ finish ≤ e.time := by
            obtain ⟨y, -, b, hgo⟩ := origin_sweep hmem
            obtain rfl := eq_of_timeFate hgo
            simp only [timeFate, hp] at hgo
            split_ifs at hgo with hover
            rwa [hfinish] at hover
          by_cases hkey : e.key = key
          · rw [Grip.step, if_pos ⟨hpressed, hkey⟩, if_neg hnot]
            have hfate : releaseFate s.judge.windows e.key e.time .blank k =
                if finish - s.judge.windows.holdEarly ≤ e.time then .grade .critical e.time
                else .goOn { k with phase := .guarded key entry e.time } := by
              simp only [releaseFate, hp, hfinish, hkey, if_true]
            split_ifs at hfate ⊢
            · exact .judged _ _ (hlive ▸ hgrade _ _ hfate)
            · exact .engaged _ _ entry (hgoOn _ hfate) hlive hfinish rfl
          · rw [Grip.step, if_neg fun hreleased => hkey hreleased.2]
            have hgo : releaseFate s.judge.windows e.key e.time .blank k = .goOn k := by
              simp [releaseFate, hp, Ne.symm hkey]
            exact .engaged _ k entry (hgoOn k hgo) hlive hfinish hphase

/-- Judging an edge bears out the verdict that the edges after it bear out. -/
theorem Bears.edge (h : s.Bears key finish id (e :: later) v) (hs : s.Sound scene.notes)
    (hk : Keyed keymap keyboard s.holds.holds) (hearly : 0.0 ≤ s.judge.windows.holdEarly)
    (hfinite : ∀ k ∈ e :: later, k.time.isFinite = true)
    (hlater : ∀ k ∈ e :: later, e.time ≤ k.time) : (s.edge scene e).Bears key finish id later v := by
  unfold Stage.edge
  split_ifs with hpressed
  · exact h.press hs hk hearly hpressed hfinite hlater
  · exact h.release hs hearly (Bool.eq_false_iff.mpr hpressed) hfinite hlater

/-- So does judging a run of edges. -/
theorem Bears.edges {edges : List Edge}
    (h : s.Bears key finish id (Playback.accepted keymap keyboard edges ++ later) v)
    (hs : s.Sound scene.notes) (hk : Keyed keymap keyboard s.holds.holds)
    (hearly : 0.0 ≤ s.judge.windows.holdEarly)
    (hfinite : ∀ k ∈ edges ++ later, k.time.isFinite = true)
    (horder : (edges ++ later).Pairwise fun a b => a.time ≤ b.time) :
    ((Playback.accepted keymap keyboard edges).foldl (fun s e => s.edge scene e) s).Bears key finish id
      later v := by
  induction edges generalizing keyboard s with
  | nil => exact h
  | cons e edges ih =>
      obtain ⟨hfirst, hrest⟩ := List.pairwise_cons.mp horder
      have hfinite' : ∀ k ∈ edges ++ later, k.time.isFinite = true :=
        fun k hk => hfinite k (List.mem_cons_of_mem e hk)
      have he := hfinite e List.mem_cons_self
      unfold Playback.accepted at h ⊢
      split_ifs at h ⊢ with hjudged
      · rw [Bool.and_eq_true] at hjudged
        have hsub : ∀ k ∈ Playback.accepted keymap (keyboard.apply e) edges ++ later, k ∈ edges ++ later :=
          fun k hk => List.mem_append.mpr ((List.mem_append.mp hk).imp_left
            fun hin => (Playback.accepted_sublist _ _ _).subset hin)
        have hstep := h.edge hs hk hearly
          (List.forall_mem_cons.mpr ⟨he, fun k hk => hfinite' k (hsub k hk)⟩)
          (List.forall_mem_cons.mpr ⟨le_self (isNumber_of_isFinite he), fun k hk => hfirst k (hsub k hk)⟩)
        exact ih hstep (hs.edge e) (keyed_edge hs hk he hjudged.1 hjudged.2)
          (by rwa [(frame_edge hs e).windows]) hfinite' hrest
      · exact ih h hs (keyed_apply hk hjudged) hearly hfinite' hrest

end Edges

end Stage

end RhythmChart
