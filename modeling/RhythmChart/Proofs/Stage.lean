import RhythmChart.Playback
import RhythmChart.Proofs.Queue
import RhythmChart.Proofs.Tracking

/-! # The invariant of judging

Main statements.

* `Stage.Sound`: the tally agrees with the live notes, and every open note that the time has come near
  to is queued or held;
* `Stage.hit_cases`: what a press that resumes no hold may do;
* `Stage.Sound.settleTime`, `Stage.Sound.press` and `Stage.Sound.release`: what time and keys do keeps
  that. -/

namespace RhythmChart.Stage

open Judge Holds

/-- A live note before index `next` is of a type that is judged. -/
def Admitted (notes : Array Note) (next : Nat) (b : Board) (id : Nat) : Prop :=
  id < next ∧ ∀ n, b.live[id]? = some n → Board.isJudgable notes n = true

/-- Whether judging deals with a live note: it has its grade, is queued, or has a hold. -/
def Handles (s : Stage) (id : Nat) : Prop :=
  (s.board.result? id).isSome ∨ id ∈ s.judge.queue ∨ id ∈ s.holds.holds.map Hold.live

/-- What holds of queue, holds and board between any two steps of judging. -/
structure Sound (notes : Array Note) (s : Stage) : Prop where
  ordered : s.judge.windows.Ordered
  agree : s.holds.windows = s.judge.windows
  tallied : s.board.Tallied
  queued : ∀ id ∈ s.judge.queue, id < s.judge.nextLive
  near : s.judge.nextLive ≤ s.board.live.size
  worst : s.judge.CleanWorst
  registered : Registered s.holds.holds s.board.live
  openNotes : OpenNotes s.holds.holds s.board
  engaged : ∀ h ∈ s.holds.holds, h.phase.isEngaged = true →
    h.live ∉ s.judge.queue ∧ h.live < s.judge.nextLive
  attended : ∀ id < s.judge.nextLive, isOpen notes s.board.live id = true →
    id ∈ s.judge.queue ∨ ∃ h ∈ s.holds.holds, h.live = id ∧ h.phase.isEngaged = true
  admitted : ∀ id, s.Handles id → Admitted notes s.judge.nextLive s.board id

variable {notes : Array Note}

/-! ### Notes under judging -/

theorem registered_of_judges {hs : List Hold} {ids : Nat → Prop} {b b' : Board}
    (h : Registered hs b.live) (hj : Board.Judges ids b b') : Registered hs b'.live := by
  refine ⟨h.once, fun k hk => ?_⟩
  obtain ⟨n, hn, htrigger⟩ := h.noted k hk
  have hlt : k.live < b'.live.size := by
    rw [hj.size]
    exact (Array.getElem?_eq_some_iff.mp hn).1
  have hn' := Array.getElem?_eq_getElem hlt
  exact ⟨_, hn', htrigger.trans (hj.trigger hn hn').symm⟩

/-- Judging opens no note. -/
theorem isOpen_of_judges {ids : Nat → Prop} {b b' : Board} (hj : Board.Judges ids b b') {id : Nat}
    (h : isOpen notes b'.live id = true) : isOpen notes b.live id = true := by
  obtain ⟨n', hn', hopen⟩ := (Option.any_eq_true _ _).mp h
  obtain ⟨n, hn, hstamp⟩ := LiveNote.exists_of_stamps hj.stamp hn'
  rw [Bool.and_eq_true, Bool.not_eq_true'] at hopen
  refine (Option.any_eq_true _ _).mpr ⟨_, hn, ?_⟩
  rw [Bool.and_eq_true, Bool.not_eq_true']
  refine ⟨?_, ?_⟩
  · rw [← hopen.1, Board.isJudgable, Board.isJudgable, LiveNote.note_of_stamp hstamp]
  · -- A grade given before would still be there.
    rw [← Bool.not_eq_true]
    intro hjudged
    obtain ⟨g, hg⟩ := Option.isSome_iff_exists.mp hjudged
    have hfinal := hj.final id g (by rw [Board.result?, hn, Option.bind_some, hg])
    rw [Board.result?, hn', Option.bind_some] at hfinal
    rw [LiveNote.isJudged, hfinal] at hopen
    cases hopen.2

theorem admitted_of_judges {ids : Nat → Prop} {b b' : Board} (hj : Board.Judges ids b b')
    {next id : Nat} (h : Admitted notes next b id) : Admitted notes next b' id := by
  refine ⟨h.1, fun n' hn' => ?_⟩
  obtain ⟨n, hn, hstamp⟩ := LiveNote.exists_of_stamps hj.stamp hn'
  rw [← h.2 n hn, Board.isJudgable, Board.isJudgable, LiveNote.note_of_stamp hstamp]

/-- Only notes that were let in come to be dealt with. -/
theorem Sound.admitted_of_judges {s s' : Stage} (h : s.Sound notes) {ids : Nat → Prop}
    (hj : Board.Judges ids s.board s'.board) (hle : s.judge.nextLive ≤ s'.judge.nextLive)
    (hids : ∀ id, ids id → Admitted notes s'.judge.nextLive s.board id)
    (hqueue : ∀ id ∈ s'.judge.queue, Admitted notes s'.judge.nextLive s.board id)
    (hholds : ∀ k ∈ s'.holds.holds, Admitted notes s'.judge.nextLive s.board k.live) (id : Nat)
    (hid : s'.Handles id) : Admitted notes s'.judge.nextLive s'.board id := by
  apply Stage.admitted_of_judges hj
  rcases hid with hid | hid | hid
  · by_cases hin : ids id
    · exact hids id hin
    · rw [Board.result?, hj.frame id hin] at hid
      have := h.admitted id (.inl hid)
      exact ⟨this.1.trans_le hle, this.2⟩
  · exact hqueue id hid
  · obtain ⟨k, hk, rfl⟩ := List.mem_map.mp hid
    exact hholds k hk

theorem Sound.admitted_queue {s : Stage} (h : s.Sound notes) {id : Nat} (hid : id ∈ s.judge.queue) :
    Admitted notes s.judge.nextLive s.board id := h.admitted id (.inr (.inl hid))

theorem Sound.admitted_hold {s : Stage} (h : s.Sound notes) {k : Hold} (hk : k ∈ s.holds.holds) :
    Admitted notes s.judge.nextLive s.board k.live :=
  h.admitted _ (.inr (.inr (List.mem_map_of_mem hk)))

theorem result?_of_isOpen {b : Board} {id : Nat} (h : isOpen notes b.live id = true) :
    b.result? id = none := by
  obtain ⟨n, hn, hopen⟩ := (Option.any_eq_true _ _).mp h
  rw [Bool.and_eq_true, Bool.not_eq_true'] at hopen
  rw [Board.result?, hn, Option.bind_some]
  exact Option.isNone_iff_eq_none.mp (by simpa [LiveNote.isJudged] using hopen.2)

/-! ### Time -/

theorem maintain_eq (j : Judge) (now : Float) (b : Board) :
    let next := frontier j.windows.enter now b.live j.nextLive
    let entered := openBetween notes b.live j.nextLive next
    let left := expire j.windows now maxScan (j.queue ++ entered) j.worst b
    j.maintain now notes b =
      ({ j with queue := left.1, worst := left.2.1, nextLive := next }, left.2.2, entered) := by
  intro next entered left
  have hlist : (#[] ++ entered.toArray).toList = entered := by simp
  have hqueue : (if entered.isEmpty = true then j.queue else j.queue ++ entered) =
      j.queue ++ entered := by
    cases hentered : entered with
    | nil => rw [List.isEmpty_nil, if_pos rfl, List.append_nil]
    | cons id rest => rw [List.isEmpty_cons, if_neg Bool.false_ne_true]
  unfold Judge.maintain
  rw [arrivals_eq]
  dsimp only
  rw [hlist, hqueue]

/-- Registering holds keeps the invariant. -/
theorem Sound.grows {s : Stage} (h : s.Sound notes) {ids : List Nat} {t : Holds}
    (hg : Grows ids s.holds t) (hr : Registered t.holds s.board.live)
    (hids : ∀ id ∈ ids, s.Handles id) : ({ s with holds := t } : Stage).Sound notes := by
  exact
    { ordered := h.ordered
      agree := hg.windows.trans h.agree
      tallied := h.tallied
      queued := h.queued
      near := h.near
      worst := h.worst
      registered := hr
      openNotes := fun k hk he => h.openNotes k (hg.mem_of_isEngaged hk he) he
      engaged := fun k hk he => h.engaged k (hg.mem_of_isEngaged hk he) he
      attended := fun id hid hopen => by
        rcases h.attended id hid hopen with hq | ⟨k, hk, hheld⟩
        · exact .inl hq
        · exact .inr ⟨k, hg.subset hk, hheld⟩
      admitted := by
        refine h.admitted_of_judges (.refl (fun _ => False) _) le_rfl (fun _ h => h.elim)
          (fun _ hid => h.admitted_queue hid) fun k hk => ?_
        rcases hg.mem_or_idle hk with hk | ⟨-, hid⟩
        · exact h.admitted_hold hk
        · exact h.admitted _ (hids k.live hid) }

section Line

variable {s : Stage} {id next : Nat}

theorem lt_size_of_isOpen {live : Array LiveNote} (hopen : isOpen notes live id = true) :
    id < live.size := by
  obtain ⟨n, hn, -⟩ := (Option.any_eq_true _ _).mp hopen
  exact (Array.getElem?_eq_some_iff.mp hn).1

/-- A driven hold has left the queue, and its note was let in before. -/
theorem Sound.not_mem_line (h : s.Sound notes) (next : Nat) {k : Hold} (hk : k ∈ s.holds.holds)
    (he : k.phase.isEngaged = true) :
    k.live ∉ s.judge.queue ++ openBetween notes s.board.live s.judge.nextLive next := by
  obtain ⟨hnot, hlt⟩ := h.engaged k hk he
  intro hmem
  rcases List.mem_append.mp hmem with hmem | hmem
  · exact hnot hmem
  · have := (mem_openBetween.mp hmem).1
    omega

/-- What stands in line is let in. -/
theorem Sound.admitted_line (h : s.Sound notes) (hle : s.judge.nextLive ≤ next)
    (hid : id ∈ s.judge.queue ++ openBetween notes s.board.live s.judge.nextLive next) :
    Admitted notes next s.board id := by
  rcases List.mem_append.mp hid with hid | hid
  · obtain ⟨hlt, hjudgable⟩ := h.admitted_queue hid
    exact ⟨hlt.trans_le hle, hjudgable⟩
  · obtain ⟨-, hlt, hopen⟩ := mem_openBetween.mp hid
    refine ⟨hlt, fun n hn => ?_⟩
    rw [isOpen, hn, Option.any_some, Bool.and_eq_true] at hopen
    exact hopen.1

end Line

/-- The queue lets notes in and misses those that are too late. -/
theorem Sound.queue {s : Stage} (h : s.Sound notes) (now : Float) :
    let r := s.judge.maintain now notes s.board
    (⟨r.1, s.holds, r.2.1⟩ : Stage).Sound notes ∧ Registered s.holds.holds r.2.1.live ∧
      ∀ id ∈ r.2.2, (⟨r.1, s.holds, r.2.1⟩ : Stage).Handles id := by
  set next := frontier s.judge.windows.enter now s.board.live s.judge.nextLive with hnext
  set entered := openBetween notes s.board.live s.judge.nextLive next with hentered
  set left := expire s.judge.windows now maxScan (s.judge.queue ++ entered) s.judge.worst s.board
    with hleft
  have hle : s.judge.nextLive ≤ next := le_frontier _ _ _ _
  have hjudges : Board.Judges (· ∈ s.judge.queue ++ entered) s.board left.2.2 :=
    judges_expire h.ordered _ _ _ _ _
  have hsuffix : left.1 <:+ s.judge.queue ++ entered := expire_suffix _ _ _ _
  have hadmitted : ∀ id ∈ s.judge.queue ++ entered, Admitted notes next s.board id :=
    fun id hid => h.admitted_line hle hid
  have hregistered := registered_of_judges h.registered hjudges
  have hhandled : ∀ id ∈ s.judge.queue ++ entered, isOpen notes s.board.live id = true →
      id ∈ left.1 ∨ (left.2.2.result? id).isSome := fun id hmem hopen =>
    mem_expire_or_judged h.ordered hmem (lt_size_of_isOpen hopen)
  rw [maintain_eq]
  refine ⟨?_, hregistered, fun id hid => ?_⟩
  swap
  · rcases hhandled id (List.mem_append_right _ hid) (mem_openBetween.mp hid).2.2 with hq | hj
    · exact .inr (.inl hq)
    · exact .inl hj
  exact
    { ordered := h.ordered
      agree := h.agree
      tallied := hjudges.tallied h.tallied
      queued := fun id hid => (hadmitted id (hsuffix.subset hid)).1
      near := (frontier_le_size _ _ h.near).trans_eq hjudges.size.symm
      worst := fun e he => h.worst e (mem_of_mem_expire_worst he)
      registered := hregistered
      openNotes := fun k hk he => by
        obtain ⟨n, hn, hu⟩ := h.openNotes k hk he
        exact ⟨n, (hjudges.frame _ (h.not_mem_line next hk he)).trans hn, hu⟩
      engaged := fun k hk he => ⟨fun hmem => h.not_mem_line next hk he (hsuffix.subset hmem),
        (h.engaged k hk he).2.trans_le hle⟩
      attended := fun id hid hopen => by
        have hbefore := isOpen_of_judges hjudges hopen
        have hleave : id ∈ s.judge.queue ++ entered → id ∈ left.1 := by
          intro hmem
          rcases hhandled id hmem hbefore with hin | hsome
          · exact hin
          · rw [result?_of_isOpen hopen] at hsome
            cases hsome
        by_cases hnew : id < s.judge.nextLive
        · rcases h.attended id hnew hbefore with hq | hheld
          · exact .inl (hleave (List.mem_append_left _ hq))
          · exact .inr hheld
        · exact .inl (hleave (List.mem_append_right _
            (mem_openBetween.mpr ⟨Nat.le_of_not_lt hnew, hid, hbefore⟩)))
      admitted :=
        h.admitted_of_judges hjudges hle hadmitted (fun id hid => hadmitted id (hsuffix.subset hid))
          fun k hk => ⟨(h.admitted_hold hk).1.trans_le hle, (h.admitted_hold hk).2⟩ }

theorem Sound.maintain {s : Stage} {scene : Scene} (h : s.Sound scene.notes) (now : Float) :
    (s.maintain scene now).Sound scene.notes := by
  obtain ⟨hqueue, hregistered, hentered⟩ := h.queue now
  obtain ⟨hgrows, hregistered'⟩ := grows_foldl_track _ _ _ scene.notes scene.speed hregistered
  exact hqueue.grows hgrows hregistered' fun id hid => hentered id (List.mem_filter.mp hid).1

/-- The stage after a change of its holds. -/
def change (s : Stage) (fate : Board → Hold → HoldFate) : Stage :=
  let (holds, board) := s.holds.change fate s.board
  { s with holds, board }

theorem Sound.change {s : Stage} (h : s.Sound notes) {fate : Board → Hold → HoldFate}
    (hf : Lawful fate) : (s.change fate).Sound notes := by
  have r := swept hf h.registered.once h.openNotes
  have horigin : ∀ k ∈ (sweep fate s.holds.holds s.board).1, k.phase.isEngaged = true →
      ∃ k' ∈ s.holds.holds, k'.live = k.live ∧ k'.phase.isEngaged = true := by
    intro k hk he
    obtain ⟨k', hk', hc⟩ := r.origin k hk
    exact ⟨k', hk', hc.live.symm, hc.engaged ▸ he⟩
  exact
    { ordered := h.ordered
      agree := h.agree
      tallied := r.judges.tallied h.tallied
      queued := h.queued
      near := h.near.trans_eq r.judges.size.symm
      worst := h.worst
      registered := by
        have hr := registered_of_judges h.registered r.judges
        refine ⟨h.registered.once.sublist r.order, fun k hk => ?_⟩
        obtain ⟨k', hk', hc⟩ := r.origin k hk
        obtain ⟨n, hn, htrigger⟩ := hr.noted k' hk'
        exact ⟨n, hc.live ▸ hn, hc.trigger.trans htrigger⟩
      openNotes := r.openNotes
      engaged := fun k hk he => by
        obtain ⟨k', hk', hlive, he'⟩ := horigin k hk he
        exact hlive ▸ h.engaged k' hk' he'
      attended := fun id hid hopen => by
        rcases h.attended id hid (isOpen_of_judges r.judges hopen) with hq | ⟨k, hk, hlive, he⟩
        · exact .inl hq
        · rcases r.finished k hk he with ⟨k', hk', hc⟩ | hsome
          · exact .inr ⟨k', hk', hc.live.trans hlive, hc.engaged.trans he⟩
          · rw [hlive] at hsome
            have hnone := result?_of_isOpen hopen
            change (sweep fate s.holds.holds s.board).2.result? id = none at hnone
            rw [hnone] at hsome
            cases hsome
      admitted := by
        refine h.admitted_of_judges r.judges le_rfl ?_ (fun _ hid => h.admitted_queue hid)
          fun k hk => ?_
        · rintro id ⟨k, hk, -, rfl⟩
          exact h.admitted_hold hk
        · obtain ⟨k', hk', hc⟩ := r.origin k hk
          exact hc.live ▸ h.admitted_hold hk' }

theorem Sound.settleTime {s : Stage} {scene : Scene} (h : s.Sound scene.notes) (now : Float) :
    (s.settleTime scene now).Sound scene.notes :=
  (h.maintain now).change (lawful_timeFate _ now)

/-! ### Keys -/

theorem Sound.release {s : Stage} (h : s.Sound notes) (key : Key) (time : Float) :
    (s.release key time).Sound notes :=
  (h.change (lawful_timeFate _ time)).change (lawful_releaseFate _ key time)

theorem Sound.resume {s : Stage} (h : s.Sound notes) (key : Key) (time : Float) :
    ({ s with holds := (s.holds.resume key time).2 } : Stage).Sound notes := by
  set test := canResume s.holds.windows key time with htest
  have horigin : ∀ k ∈ modifyFirst test resumed s.holds.holds,
      ∃ k' ∈ s.holds.holds, Continues k' k := by
    intro k hk
    rcases mem_modifyFirst hk with hk | ⟨k', hk', -, rfl⟩
    · exact ⟨k, hk, .refl k⟩
    · exact ⟨k', hk', continues_resumed k'⟩
  exact
    { ordered := h.ordered
      agree := h.agree
      tallied := h.tallied
      queued := h.queued
      near := h.near
      worst := h.worst
      registered := by
        refine ⟨?_, fun k hk => ?_⟩
        · change ((modifyFirst test resumed s.holds.holds).map Hold.live).Nodup
          rw [map_live_modifyFirst fun k => (continues_resumed k).live]
          exact h.registered.once
        · obtain ⟨k', hk', hc⟩ := horigin k hk
          obtain ⟨n, hn, htrigger⟩ := h.registered.noted k' hk'
          exact ⟨n, hc.live ▸ hn, hc.trigger.trans htrigger⟩
      openNotes := fun k hk he => by
        obtain ⟨k', hk', hc⟩ := horigin k hk
        obtain ⟨n, hn, hu⟩ := h.openNotes k' hk' (hc.engaged ▸ he)
        exact ⟨n, hc.live ▸ hn, hu⟩
      engaged := fun k hk he => by
        obtain ⟨k', hk', hc⟩ := horigin k hk
        exact hc.live ▸ h.engaged k' hk' (hc.engaged ▸ he)
      attended := fun id hid hopen => by
        rcases h.attended id hid hopen with hq | ⟨k, hk, hlive, he⟩
        · exact .inl hq
        · rcases mem_or_mem_modifyFirst test resumed hk with hk | ⟨hk, -⟩
          · exact .inr ⟨k, hk, hlive, he⟩
          · have hc := continues_resumed k
            exact .inr ⟨resumed k, hk, hc.live.trans hlive, hc.engaged.trans he⟩
      admitted := by
        refine h.admitted_of_judges (.refl (fun _ => False) _) le_rfl (fun _ h => h.elim)
          (fun _ hid => h.admitted_queue hid) fun k hk => ?_
        obtain ⟨k', hk', hc⟩ := horigin k hk
        exact hc.live ▸ h.admitted_hold hk' }

/-- A change of the score alone. -/
theorem Sound.mapScore {s : Stage} (h : s.Sound notes) {f : Score → Score}
    (hj : Board.Judges (fun _ => False) s.board (s.board.mapScore f)) :
    ({ s with board := s.board.mapScore f } : Stage).Sound notes :=
  { ordered := h.ordered
    agree := h.agree
    tallied := hj.tallied h.tallied
    queued := h.queued
    near := h.near
    worst := h.worst
    registered := h.registered
    openNotes := h.openNotes
    engaged := h.engaged
    attended := h.attended
    admitted := h.admitted }

theorem holds_chargeEmpty (s : Stage) (scene : Scene) (key : Key) (time : Float) :
    (s.chargeEmpty scene key time).holds = s.holds := by
  unfold Stage.chargeEmpty
  split_ifs <;> rfl

theorem live_chargeEmpty (s : Stage) (scene : Scene) (key : Key) (time : Float) :
    (s.chargeEmpty scene key time).board.live = s.board.live := by
  unfold Stage.chargeEmpty
  split_ifs <;> rfl

theorem Sound.chargeEmpty {s : Stage} (h : s.Sound notes) (scene : Scene) (key : Key)
    (time : Float) : (s.chargeEmpty scene key time).Sound notes := by
  unfold Stage.chargeEmpty
  split_ifs
  · exact h
  · exact h.mapScore (Board.judges_emptyPress _ _ _ _ _)

/-- A press that judges a queued note or one of its layers. -/
theorem Sound.hits {s : Stage} (h : s.Sound notes) {id : Nat} (hid : id ∈ s.judge.queue)
    {j' : Judge} {b' : Board} (hits : Hits s.judge s.board id j' b') :
    ({ s with judge := j', board := b' } : Stage).Sound notes := by
  have hsub : ∀ i ∈ j'.queue, i ∈ s.judge.queue := by
    intro i hi
    rcases hits.queue with ⟨heq, -⟩ | ⟨heq, -⟩
    · exact heq ▸ hi
    · rw [heq] at hi
      exact List.mem_of_mem_erase hi
  have hapart : ∀ k ∈ s.holds.holds, k.phase.isEngaged = true → k.live ≠ id :=
    fun k hk he heq => (h.engaged k hk he).1 (heq ▸ hid)
  exact
    { ordered := hits.windows ▸ h.ordered
      agree := h.agree.trans hits.windows.symm
      tallied := hits.judges.tallied h.tallied
      queued := fun i hi => hits.nextLive ▸ h.queued i (hsub i hi)
      near := by
        change j'.nextLive ≤ b'.live.size
        rw [hits.nextLive, hits.judges.size]
        exact h.near
      worst := hits.worst
      registered := registered_of_judges h.registered hits.judges
      openNotes := fun k hk he => by
        obtain ⟨n, hn, hu⟩ := h.openNotes k hk he
        exact ⟨n, (hits.judges.frame _ (hapart k hk he)).trans hn, hu⟩
      engaged := fun k hk he =>
        ⟨fun hmem => (h.engaged k hk he).1 (hsub _ hmem),
          hits.nextLive ▸ (h.engaged k hk he).2⟩
      attended := fun i hi hopen => by
        rw [hits.nextLive] at hi
        rcases h.attended i hi (isOpen_of_judges hits.judges hopen) with hq | hheld
        · left
          rcases hits.queue with ⟨heq, -⟩ | ⟨heq, hsome⟩
          · exact heq ▸ hq
          · have hne : i ≠ id := fun heq' => by
              rw [← heq', result?_of_isOpen hopen] at hsome
              cases hsome
            rw [heq]
            exact (List.mem_erase_of_ne hne).mpr hq
        · exact .inr hheld
      admitted := by
        apply h.admitted_of_judges hits.judges hits.nextLive.ge
        all_goals dsimp only
        all_goals rw [hits.nextLive]
        · exact fun i hi => hi ▸ h.admitted_queue hid
        · exact fun i hi => h.admitted_queue (hsub i hi)
        · exact fun k hk => h.admitted_hold hk }

/-- A press that begins the hold of a queued note. -/
theorem Sound.begun {s : Stage} (h : s.Sound notes) {id : Nat} {n : LiveNote}
    (hid : id ∈ s.judge.queue) (hn : s.board.live[id]? = some n) (hu : n.result = none) {k : Hold}
    (hk : k ∈ s.holds.holds) (hlive : k.live = id) (key : Key) {g : Grade}
    (hg : g.isMiss = false) :
    (⟨s.judge.remove id, s.holds.begun id key g, s.board.mapScore fun s => s.applyGrade g⟩ :
      Stage).Sound notes := by
  have hjudges := Board.judges_applyGrade (fun _ => False) s.board hg
  have hmem : ∀ i, i ∈ (s.judge.remove id).queue ↔ i ∈ s.judge.queue ∧ i ≠ id := by
    intro i
    simp [Judge.remove]
  have horigin : ∀ k' ∈ (s.holds.begun id key g).holds, k' ∈ s.holds.holds ∨
      ∃ k ∈ s.holds.holds, k.live = id ∧ k'.live = id ∧ k'.trigger = k.trigger := by
    intro k' hk'
    rcases mem_modifyFirst hk' with hk' | ⟨k, hk, htest, rfl⟩
    · exact .inl hk'
    · exact .inr ⟨k, hk, beq_iff_eq.mp htest, beq_iff_eq.mp htest, rfl⟩
  exact
    { ordered := h.ordered
      agree := h.agree
      tallied := hjudges.tallied h.tallied
      queued := fun i hi => h.queued i ((hmem i).mp hi).1
      near := h.near
      worst := h.worst
      registered := by
        refine ⟨?_, fun k' hk' => ?_⟩
        · change ((modifyFirst _ _ s.holds.holds).map Hold.live).Nodup
          rw [map_live_modifyFirst (f := hold key g) fun _ => rfl]
          exact h.registered.once
        · rcases horigin k' hk' with hk' | ⟨k, hk, hlive, hlive', htrigger⟩
          · exact h.registered.noted k' hk'
          · obtain ⟨n, hn, ht⟩ := h.registered.noted k hk
            exact ⟨n, by rw [hlive', ← hlive]; exact hn, htrigger.trans ht⟩
      openNotes := fun k' hk' he => by
        rcases horigin k' hk' with hk' | ⟨-, -, -, hlive', -⟩
        · exact h.openNotes k' hk' he
        · exact ⟨n, hlive' ▸ hn, hu⟩
      engaged := fun k' hk' he => by
        rw [hmem]
        rcases horigin k' hk' with hk' | ⟨-, -, -, hlive', -⟩
        · exact ⟨fun hq => (h.engaged k' hk' he).1 hq.1, (h.engaged k' hk' he).2⟩
        · exact ⟨fun hq => hq.2 hlive', hlive' ▸ h.queued id hid⟩
      attended := fun i hi hopen => by
        rw [hmem]
        by_cases heq : i = id
        · right
          obtain ⟨k', htest, hk'⟩ := exists_mem_modifyFirst (fun k => k.live == id)
            (hold key g) hk (beq_iff_eq.mpr hlive)
          exact ⟨_, hk', (beq_iff_eq.mp htest).trans heq.symm, rfl⟩
        · rcases h.attended i hi hopen with hq | ⟨k', hk', hlive', he'⟩
          · exact .inl ⟨hq, heq⟩
          · rcases mem_or_mem_modifyFirst (fun k => k.live == id) (hold key g) hk' with hk' | ⟨-, htest⟩
            · exact .inr ⟨k', hk', hlive', he'⟩
            · exact absurd (hlive'.symm.trans (beq_iff_eq.mp htest)) heq
      admitted := by
        refine h.admitted_of_judges hjudges le_rfl (fun _ h => h.elim)
          (fun i hi => h.admitted_queue ((hmem i).mp hi).1) fun k' hk' => ?_
        rcases horigin k' hk' with hk' | ⟨-, -, -, hlive', -⟩
        · exact h.admitted_hold hk'
        · rw [hlive']
          exact h.admitted_queue hid }

/-! ### Where a press lands -/

/-- What a press that resumes no hold may do to a stage: it finds nothing and is charged, it judges a
note or a layer, its hold is refused and it is charged, or it begins a hold. -/
inductive Landed (s : Stage) (scene : Scene) (key : Key) (time : Float) : Stage → Prop where
  | empty (hpress : s.judge.press time scene.notes s.board = (.unmatched, s.judge, s.board)) :
      Landed s scene key time (s.chargeEmpty scene key time)
  | single (id : Nat) (n : LiveNote) (hr : Reached s.judge time s.board id n) :
      Landed s scene key time
        ⟨(s.judge.pressSingle time id n s.board).1, s.holds, (s.judge.pressSingle time id n s.board).2⟩
  | layer (layers id : Nat) (n : LiveNote) (hr : Reached s.judge time s.board id n) :
      Landed s scene key time
        ⟨(s.judge.pressLayer time layers id n s.board).1, s.holds,
          (s.judge.pressLayer time layers id n s.board).2⟩
  | refused (id : Nat) (n : LiveNote) (note : Note) (hr : Reached s.judge time s.board id n)
      (hnote : scene.notes[n.note]? = some note) (hhold : note.noteType = .hold)
      (hpress : s.judge.press time scene.notes s.board = (.hold id, s.judge, s.board)) (t : Holds)
      (hg : Grows [id] s.holds t) (hreg : Registered t.holds s.board.live)
      (hstart : s.holds.start id key time scene.notes scene.speed s.board = (false, t, s.board)) :
      Landed s scene key time ((⟨s.judge, t, s.board⟩ : Stage).chargeEmpty scene key time)
  | begun (id : Nat) (n : LiveNote) (note : Note) (hr : Reached s.judge time s.board id n)
      (hnote : scene.notes[n.note]? = some note) (hhold : note.noteType = .hold) (t : Holds)
      (hg : Grows [id] s.holds t) (hreg : Registered t.holds s.board.live) (k : Hold)
      (hk : k ∈ t.holds) (hlive : k.live = id) (g : Grade)
      (hgrade : g = t.windows.grade (k.trigger - time))
      (hstart : (s.holds.start id key time scene.notes scene.speed s.board).2.1 = t.begun id key g) :
      Landed s scene key time
        ⟨s.judge.remove id, t.begun id key g, s.board.mapScore fun s => s.applyGrade g⟩

theorem hit_cases {s : Stage} (hreg : Registered s.holds.holds s.board.live) (scene : Scene) (key : Key)
    (time : Float) : Landed s scene key time (s.hit scene key time) := by
  unfold Stage.hit
  have hcases := press_cases s.judge time scene.notes s.board
  generalize hpress : s.judge.press time scene.notes s.board = pressed at hcases
  cases hcases with
  | unmatched => exact .empty hpress
  | single id n note hr => exact .single id n hr
  | layer layers id n note hr => exact .layer layers id n hr
  | hold id n note hr hnote hhold =>
      have hstarted := start_cases hreg id key time scene.notes scene.speed
      dsimp only
      generalize hstart : s.holds.start id key time scene.notes scene.speed s.board = started
        at hstarted
      cases hstarted with
      | refused t hg hreg => exact .refused id n note hr hnote hhold hpress t hg hreg hstart
      | begun t hg hreg k hk hlive =>
          exact .begun id n note hr hnote hhold t hg hreg k hk hlive _ rfl (by rw [hstart])

theorem Sound.hit {s : Stage} {scene : Scene} (h : s.Sound scene.notes) (key : Key) (time : Float) :
    (s.hit scene key time).Sound scene.notes := by
  have hlanded := hit_cases h.registered scene key time
  have hqueued : ∀ {id : Nat} {n : LiveNote}, Reached s.judge time s.board id n →
      ∀ i ∈ [id], s.Handles i := fun hr i hi => .inr (.inl (List.mem_singleton.mp hi ▸ hr.queued))
  generalize s.hit scene key time = s' at hlanded ⊢
  cases hlanded with
  | empty => exact h.chargeEmpty scene key time
  | single id n hr => exact h.hits hr.queued (hits_pressSingle hr h.worst)
  | layer layers id n hr => exact h.hits hr.queued (hits_pressLayer hr h.worst layers)
  | refused id n note hr _ _ _ t hg hreg =>
      exact (h.grows hg hreg (hqueued hr)).chargeEmpty scene key time
  | begun id n note hr _ _ t hg hreg k hk hlive g hgrade =>
      obtain ⟨n', hn', htrigger⟩ := hreg.noted k hk
      have hn : n' = n := by
        rw [hlive, hr.live] at hn'
        exact (Option.some.inj hn').symm
      have hhit : g.isMiss = false := by
        rw [hgrade]
        apply Windows.isMiss_grade
        rw [htrigger, hn, hg.windows, h.agree]
        exact hr.close
      exact (h.grows hg hreg (hqueued hr)).begun hr.queued hr.live hr.unjudged hk hlive key hhit

theorem Sound.press {s : Stage} {scene : Scene} (h : s.Sound scene.notes) (key : Key)
    (time : Float) : (s.press scene key time).Sound scene.notes := by
  have hready := ((h.settleTime time).resume key time).change (lawful_crossFate key time)
  unfold Stage.press
  dsimp only
  split_ifs
  · exact hready
  · exact hready.hit key time

theorem Sound.edge {s : Stage} {scene : Scene} (h : s.Sound scene.notes) (e : Edge) :
    (s.edge scene e).Sound scene.notes := by
  unfold Stage.edge
  split_ifs
  · exact h.press e.key e.time
  · exact h.release e.key e.time

end RhythmChart.Stage
