import RhythmChart.Proofs.Timetable

/-! # What a playhead tells of its way

However planning, announcing and the passing of time are mixed, a playhead goes through the visits of the
traversal one after the other, and its events tell exactly that.

Main statements.

* `Playhead.ofVisit_eq`: halving finds the live notes of a visit;
* `Playhead.Latest`: what was told since the last visit was left;
* `Playhead.Course`: the events tell of each visit that is left, and then of the current one or of the
  end;
* `Playhead.course_step`: every step keeps that;
* `Playhead.follows_plan`: the whole account of a playhead on a chart from a text. -/

namespace RhythmChart

open Binary64

/-! ### The live notes of a visit -/

/-- Live notes that come by visit are halved at the right places. -/
theorem LiveNote.ofVisit_append {before block after : List LiveNote} {seq : Nat}
    (hbefore : ∀ n ∈ before, n.visit < seq) (hblock : ∀ n ∈ block, n.visit = seq)
    (hafter : ∀ n ∈ after, seq < n.visit) :
    (ofVisit (before ++ (block ++ after)).toArray seq).toList = block := by
  have hfirst : boundary (fun n : LiveNote => decide (n.visit < seq))
      (before ++ (block ++ after)).toArray 0 (before ++ (block ++ after)).toArray.size =
        before.length := by
    refine boundary_eq (by simp) (fun i hi hlt => ?_) (fun i hi hle => ?_)
    · simp only [List.getElem_toArray, List.getElem_append_left hlt, decide_eq_true_eq]
      exact hbefore _ (List.getElem_mem hlt)
    · simp only [List.getElem_toArray, List.getElem_append_right hle, decide_eq_false_iff_not]
      have hlt : i - before.length < (block ++ after).length := by simp at hi ⊢; omega
      rcases List.mem_append.mp (List.getElem_mem hlt) with hmem | hmem
      · have := hblock _ hmem
        omega
      · have := hafter _ hmem
        omega
  have hlast : boundary (fun n : LiveNote => decide (n.visit ≤ seq))
      (before ++ (block ++ after)).toArray 0 (before ++ (block ++ after)).toArray.size =
        before.length + block.length := by
    refine boundary_eq (by simp) (fun i hi hlt => ?_) (fun i hi hle => ?_)
    · have hlt' : i < (before ++ block).length := by simpa using hlt
      simp only [← List.append_assoc, List.getElem_toArray, List.getElem_append_left hlt',
        decide_eq_true_eq]
      rcases List.mem_append.mp (List.getElem_mem hlt') with hmem | hmem
      · exact (hbefore _ hmem).le
      · exact (hblock _ hmem).le
    · have hle' : (before ++ block).length ≤ i := by simpa using hle
      simp only [← List.append_assoc, List.getElem_toArray, List.getElem_append_right hle',
        decide_eq_false_iff_not]
      exact Nat.not_le.mpr (hafter _ (List.getElem_mem _))
  unfold ofVisit
  dsimp only
  rw [hfirst, hlast]
  simp

namespace Playhead

section Visits

variable {c : Chart} {speed start : Float} {h : Playhead}

/-- A planned visit has its place as its number. -/
theorem Scheduled.seq (hs : h.Scheduled c speed start) {i : Nat} {v : Visit}
    (hv : h.visits[i]? = some v) : v.seq = i := by
  have hlt : i < h.visits.toList.length := by
    simpa using (Array.getElem?_eq_some_iff.mp hv).1
  have hget : ((Planner.ofChart c speed start).rest c)[i]? = some v := by
    rw [← Planner.visits_ofChart, ← hs.plan, List.getElem?_append_left hlt, Array.getElem?_toList]
    exact hv
  have := Planner.seq_rest c (.ofChart c speed start) i v hget
  rw [this]
  exact Nat.zero_add i

theorem visit_of_mem_stampsOf {visits : List Visit} {n : LiveNote}
    (hn : n ∈ stampsOf c speed visits) : ∃ v ∈ visits, n.visit = v.seq := by
  obtain ⟨v, hv, hn⟩ := List.mem_flatMap.mp hn
  obtain ⟨m, -, rfl⟩ := List.mem_map.mp hn
  exact ⟨v, hv, rfl⟩

/-- Halving finds the live notes of a visit, those of no visit if it is not planned. -/
theorem ofVisit_eq (hs : h.Scheduled c speed start)
    (hlive : h.live.toList = stampsOf c (usableSpeed speed) h.visits.toList) (seq : Nat) :
    (h.notesOfVisit seq).toList =
      ((h.visits[seq]?).map fun v => v.liveNotes c (usableSpeed speed)).getD [] := by
  have hsplit : h.visits.toList =
      h.visits.toList.take seq ++ ((h.visits[seq]?).toList ++ h.visits.toList.drop (seq + 1)) := by
    rw [← Array.getElem?_toList, ← List.drop_eq_getElem?_toList_append, List.take_append_drop]
  have hblock : stampsOf c (usableSpeed speed) (h.visits[seq]?).toList =
      ((h.visits[seq]?).map fun v => v.liveNotes c (usableSpeed speed)).getD [] := by
    cases h.visits[seq]? with
    | none => rfl
    | some v => simp [stampsOf]
  have harray : h.live = (stampsOf c (usableSpeed speed) (h.visits.toList.take seq) ++
      (stampsOf c (usableSpeed speed) (h.visits[seq]?).toList ++
        stampsOf c (usableSpeed speed) (h.visits.toList.drop (seq + 1)))).toArray := by
    refine Array.ext' ?_
    rw [← stampsOf_append, ← stampsOf_append, ← hsplit]
    exact hlive
  rw [← hblock, notesOfVisit, harray]
  refine LiveNote.ofVisit_append (fun n hn => ?_) (fun n hn => ?_) (fun n hn => ?_)
  · obtain ⟨v, hv, heq⟩ := visit_of_mem_stampsOf hn
    obtain ⟨i, hi, hget⟩ := List.mem_take_iff_getElem.mp hv
    have := hs.seq (i := i) (v := v) (by
      rw [← Array.getElem?_toList, ← hget]
      exact List.getElem?_eq_getElem _)
    omega
  · obtain ⟨v, hv, heq⟩ := visit_of_mem_stampsOf hn
    rw [heq]
    exact hs.seq (Option.mem_toList.mp hv)
  · obtain ⟨v, hv, heq⟩ := visit_of_mem_stampsOf hn
    obtain ⟨i, hi, hget⟩ := List.mem_drop_iff_getElem.mp hv
    have := hs.seq (i := seq + 1 + i) (v := v) (by
      rw [← Array.getElem?_toList, ← hget]
      exact List.getElem?_eq_getElem _)
    omega

end Visits

/-! ### Planning as it shows in the visits -/

/-- The second playhead has planned more visits; it is at the same place and time. -/
structure Extends (h h' : Playhead) : Prop where
  visits : h.visits.toList <+: h'.visits.toList
  left : h'.left = h.left
  fired : h'.fired = h.fired
  time : h'.time = h.time
  halt : h'.halt = h.halt

theorem extends_planSome (c : Chart) (limit : Float) (steps : Nat) (h : Playhead) :
    h.Extends (planSome c limit steps h) := by
  induction steps generalizing h with
  | zero => exact ⟨List.prefix_rfl, rfl, rfl, rfl, rfl⟩
  | succ steps ih =>
      unfold Playhead.planSome
      split_ifs
      · exact ⟨List.prefix_rfl, rfl, rfl, rfl, rfl⟩
      · split
        next v q hnext =>
          obtain ⟨hvisits, hleft, hfired, htime, hhalt⟩ := ih (h.planVisit v q c)
          refine ⟨List.IsPrefix.trans ?_ hvisits, hleft, hfired, htime, hhalt⟩
          simp [Playhead.planVisit]
        next => exact ⟨List.prefix_rfl, rfl, rfl, rfl, rfl⟩
      · exact ⟨List.prefix_rfl, rfl, rfl, rfl, rfl⟩

theorem extends_planUntil (h : Playhead) (c : Chart) (limit : Float) :
    h.Extends (h.planUntil c limit) := extends_planSome c limit _ h

theorem Extends.getElem? {h h' : Playhead} (he : h.Extends h') {i : Nat} {v : Visit}
    (hv : h.visits[i]? = some v) : h'.visits[i]? = some v := by
  obtain ⟨more, hmore⟩ := he.visits
  rw [← Array.getElem?_toList] at hv ⊢
  rw [← hmore, List.getElem?_append_left (List.getElem?_eq_some_iff.mp hv).1]
  exact hv

/-- When nothing is left to plan, planning changes no visit. -/
theorem Extends.visits_eq {c : Chart} {speed start : Float} {h h' : Playhead} (he : h.Extends h')
    (hs : h.Scheduled c speed start) (hs' : h'.Scheduled c speed start)
    (hrest : h.planner.rest c = []) : h'.visits = h.visits ∧ h'.planner.rest c = [] := by
  obtain ⟨more, hmore⟩ := he.visits
  have hplan := hs'.plan.trans hs.plan.symm
  rw [hrest, ← hmore, List.append_assoc, List.append_right_inj] at hplan
  obtain ⟨rfl, hrest'⟩ := List.append_eq_nil_iff.mp hplan
  exact ⟨Array.ext' (by rw [← hmore, List.append_nil]), hrest'⟩

/-- A visit that begins by the limit is planned, if there is room for one. -/
theorem planUntil_grows {c : Chart} {h : Playhead} {limit : Float}
    (hhorizon : h.planner.horizon ≤ limit) (hroom : h.ahead < maxAhead)
    (hrest : h.planner.rest c ≠ []) : h.visits.size < (h.planUntil c limit).visits.size := by
  obtain ⟨steps, hsteps⟩ : ∃ steps, maxAhead - h.ahead = steps + 1 :=
    Nat.exists_eq_add_one.mpr (by omega)
  unfold planUntil
  rw [hsteps, Playhead.planSome]
  split_ifs with hfinished
  · exact absurd (Planner.rest_of_none (by rw [Planner.next_isFinished hfinished])) hrest
  · split
    next v q hnext =>
      have hle := (extends_planSome c limit steps (h.planVisit v q c)).visits.length_le
      simp only [Array.length_toList] at hle
      have hsize : (h.planVisit v q c).visits.size = h.visits.size + 1 := Array.size_push _
      omega
    next q hnext => exact absurd (Planner.rest_of_none (by rw [hnext])) hrest

/-! ### The account of a playhead -/

/-- What is told of a visit that is entered at `time` and then left. -/
def account (c : Chart) (v : Visit) (time : Float) : List Event :=
  entryEvents v c time ++ [.moved v.exit]

/-- What was told since the last visit was left: nothing, that the current visit is entered, or that the
playhead has halted after the last of all visits. -/
inductive Latest (c : Chart) (h : Playhead) : List Event → Prop where
  | before (running : h.halt = none) (hfired : ∀ seq, h.fired = some seq → seq < h.left) :
      Latest c h []
  | inside (v : Visit) (time : Float) (running : h.halt = none)
      (current : h.visits[h.left]? = some v) (hfired : h.fired = some h.left) :
      Latest c h (entryEvents v c time)
  | halted (v : Visit) (time : Float) (stopped : h.halt.isSome) (last : h.visits.back? = some v) :
      Latest c h [.halted v.row time]
  | nowhere (stopped : h.halt.isSome) (none : h.visits = #[]) : Latest c h []

/-- The events tell of each visit that is left, in the order of the traversal, and then of where the
playhead is. -/
structure Course (c : Chart) (speed start : Float) (h : Playhead) (events : Array Event) : Prop where
  scheduled : h.Scheduled c speed start
  clock : 0.0 ≤ h.time
  running : h.halt = none → h.left < h.visits.size
  stopped : h.halt.isSome → h.left = h.visits.size ∧ h.planner.rest c = []
  told : ∃ times : List Float, times.length = h.left ∧ ∃ latest, Latest c h latest ∧
    events.toList =
      ((h.visits.toList.zip times).flatMap fun visit => account c visit.1 visit.2) ++ latest

section Course

variable {c : Chart} {speed start : Float} {h : Playhead} {events : Array Event}

theorem Course.left_le (hc : h.Course c speed start events) : h.left ≤ h.visits.size := by
  cases hhalt : h.halt with
  | none => exact (hc.running hhalt).le
  | some stop => exact (hc.stopped (by rw [hhalt]; rfl)).1.le

/-- Visits that are planned later do not change what is told of those that are left. -/
theorem zip_extended {visits visits' : List Visit} (hvisits : visits <+: visits')
    {times : List Float} (htimes : times.length ≤ visits.length) :
    visits'.zip times = visits.zip times := by
  obtain ⟨more, rfl⟩ := hvisits
  induction times generalizing visits with
  | nil => simp
  | cons time times ih =>
      cases visits with
      | nil => simp at htimes
      | cons v visits =>
          have hrest := @ih visits (by simpa using htimes)
          simp [hrest]

theorem zip_concat {visits : List Visit} {times : List Float} {v : Visit}
    (hv : visits[times.length]? = some v) (time : Float) :
    visits.zip (times ++ [time]) = visits.zip times ++ [(v, time)] := by
  induction times generalizing visits with
  | nil =>
      cases visits with
      | nil => simp at hv
      | cons w visits => simpa using hv
  | cons _ times ih =>
      cases visits with
      | nil => simp at hv
      | cons w visits => simpa using ih (by simpa using hv)

theorem Course.plan (hc : h.Course c speed start events) (limit : Float) :
    (h.planUntil c limit).Course c speed start events := by
  have he := extends_planUntil h c limit
  have hs := (unmarked_scheduled c speed start).plan h limit hc.scheduled
  generalize h.planUntil c limit = h' at he hs ⊢
  obtain ⟨times, htimes, latest, hlatest, htold⟩ := hc.told
  refine
    { scheduled := hs
      clock := he.time ▸ hc.clock
      running := fun hrun => ?_
      stopped := fun hstop => ?_
      told := ⟨times, he.left ▸ htimes, latest, ?_, ?_⟩ }
  · have := hc.running (he.halt ▸ hrun)
    have := he.visits.length_le
    simp only [Array.length_toList] at this
    rw [he.left]
    omega
  · obtain ⟨hleft, hrest⟩ := hc.stopped (he.halt ▸ hstop)
    obtain ⟨hvisits, hrest'⟩ := he.visits_eq hc.scheduled hs hrest
    exact ⟨by rw [he.left, hvisits, hleft], hrest'⟩
  · have hsame : h.halt.isSome → h'.visits = h.visits := fun hstop =>
      (he.visits_eq hc.scheduled hs (hc.stopped hstop).2).1
    cases hlatest with
    | before hrun hfired => exact .before (he.halt ▸ hrun) (by rw [he.fired, he.left]; exact hfired)
    | inside v time hrun hcurrent hfired =>
        exact .inside v time (he.halt ▸ hrun) (he.left ▸ he.getElem? hcurrent)
          (by rw [he.fired, he.left]; exact hfired)
    | halted v time hstop hlast => exact .halted v time (he.halt ▸ hstop) (by rw [hsame hstop, hlast])
    | nowhere hstop hnone => exact .nowhere (he.halt ▸ hstop) (by rw [hsame hstop, hnone])
  · have hle := hc.left_le
    rw [zip_extended he.visits (by simp only [Array.length_toList]; omega)]
    exact htold

theorem Course.advance (hc : h.Course c speed start events) (dt : Float) :
    (h.advance dt).Course c speed start events := by
  have hclock := le_of_le_of_le hc.clock (Playback.time_le_advance hc.clock dt)
  unfold Playhead.advance at hclock ⊢
  split_ifs at hclock ⊢
  · obtain ⟨times, htimes, latest, hlatest, htold⟩ := hc.told
    refine ⟨⟨hc.scheduled.pace, hc.scheduled.plan, hc.scheduled.live, hc.scheduled.horizon,
      hc.scheduled.onward⟩, hclock, hc.running, hc.stopped, times, htimes, latest, ?_, htold⟩
    cases hlatest with
    | before hrun hfired => exact .before hrun hfired
    | inside v time hrun hcurrent hfired => exact .inside v time hrun hcurrent hfired
    | halted v time hstop hlast => exact .halted v time hstop hlast
    | nowhere hstop hnone => exact .nowhere hstop hnone
  · exact hc

/-- Announcing tells of the current visit unless that was told. -/
theorem Course.fire (hc : h.Course c speed start events) :
    (h.fire c events).1.Course c speed start (h.fire c events).2 := by
  unfold Playhead.fire
  split
  next v hrun hcurrent =>
    have hseq := hc.scheduled.seq hcurrent
    split_ifs with hskip
    · exact hc
    · obtain ⟨hfired, -⟩ := not_or.mp hskip
      obtain ⟨times, htimes, latest, hlatest, htold⟩ := hc.told
      refine
        { scheduled := (unmarked_scheduled c speed start).mark _ _ _ _ hc.scheduled
          clock := hc.clock
          running := hc.running
          stopped := hc.stopped
          told := ⟨times, htimes, _, .inside v h.time hrun hcurrent (congrArg some hseq), ?_⟩ }
      cases hlatest with
      | before => simp [htold]
      | inside v' time _ hcurrent' hfired' => exact absurd (hseq ▸ hfired') hfired
      | halted v' time hstop => rw [hrun] at hstop; cases hstop
      | nowhere hstop => rw [hrun] at hstop; cases hstop
  · exact hc

/-- Once the current visit has begun, it is told of. -/
theorem Course.fired_fire (hc : h.Course c speed start events) {v : Visit} (hrun : h.halt = none)
    (hcurrent : h.visits[h.left]? = some v) (hbegun : ¬ h.time < v.start) :
    (h.fire c events).1 = { h with fired := some h.left } := by
  have hseq := hc.scheduled.seq hcurrent
  unfold Playhead.fire
  split
  next v' _ hcurrent' =>
    obtain rfl := Option.some.inj (hcurrent'.symm.trans hcurrent)
    split_ifs with hskip
    · have hfired := hskip.resolve_right hbegun
      exact congrArg (fun fired => ({ h with fired } : Playhead)) (hfired.trans (congrArg some hseq))
    · exact congrArg (fun seq => ({ h with fired := some seq } : Playhead)) hseq
  next hno => exact absurd hcurrent (hno v hrun)

/-- The playhead past its current visit. -/
def past (h : Playhead) : Playhead := { h with left := h.left + 1 }

/-- The playhead past its current visit, with more visits planned when none is ahead. -/
def onward (h : Playhead) (c : Chart) (v : Visit) : Playhead :=
  if v.exit.target.isSome ∧ h.past.ahead = 0 then h.past.planUntil c h.time else h.past

theorem leave_eq (h : Playhead) (v : Visit) (c : Chart) (events : Array Event) :
    h.leave v c events =
      if (h.onward c v).ahead = 0 then
        ({ h.onward c v with halt := some ⟨some v.row, v.duration * (h.onward c v).speed⟩ },
          (events.push (.moved v.exit)).push (.halted v.row (h.onward c v).time))
      else (h.onward c v, events.push (.moved v.exit)) := rfl

/-- Past its current visit a playhead plans on; when it finds nothing ahead, nothing is left to
plan. -/
theorem Scheduled.onward_spec (hs : h.Scheduled c speed start) {v : Visit}
    (hcurrent : h.visits[h.left]? = some v) (hfinish : v.finish ≤ h.time) :
    h.past.Extends (h.onward c v) ∧ (h.onward c v).Scheduled c speed start ∧
      ((h.onward c v).ahead = 0 → (h.onward c v).planner.rest c = []) := by
  have hpast : h.past.Scheduled c speed start := (unmarked_scheduled c speed start).mark _ _ _ _ hs
  have hlt := (Array.getElem?_eq_some_iff.mp hcurrent).1
  -- With no visit ahead, the visit is the last one that is planned.
  have hlast : h.past.ahead = 0 → h.visits.back? = some v := by
    intro hahead
    have hsize : h.visits.size - (h.left + 1) = 0 := hahead
    rw [Array.back?_eq_getElem?, show h.visits.size - 1 = h.left by omega]
    exact hcurrent
  unfold Playhead.onward
  split_ifs with hmore
  · have he := extends_planUntil h.past c h.time
    have hs' := (unmarked_scheduled c speed start).plan _ h.time hpast
    refine ⟨he, hs', fun hahead => ?_⟩
    have hhorizon : h.past.planner.horizon = v.finish := by
      change h.planner.horizon = v.finish
      rw [hs.horizon, hlast hmore.2]
      rfl
    by_contra hrest
    have hgrows := planUntil_grows (hhorizon ▸ hfinish) (by rw [hmore.2]; decide) fun hnil =>
      hrest (he.visits_eq hpast hs' hnil).2
    have hleft : (h.past.planUntil c h.time).left = h.left + 1 := he.left
    have hsize : h.past.visits.size = h.visits.size := rfl
    unfold ahead at hahead
    omega
  · refine ⟨⟨List.prefix_rfl, rfl, rfl, rfl, rfl⟩, hpast, fun hahead => ?_⟩
    refine hs.onward v (hlast hahead) ?_
    by_contra htarget
    exact hmore ⟨Option.isSome_iff_ne_none.mpr htarget, hahead⟩

/-- A visit that is left has been told of, from its entry to its exit. -/
theorem Course.leave (hc : h.Course c speed start events) {v : Visit} (hrun : h.halt = none)
    (hcurrent : h.visits[h.left]? = some v) (hfired : h.fired = some h.left)
    (hfinish : v.finish ≤ h.time) :
    (h.leave v c events).1.Course c speed start (h.leave v c events).2 := by
  obtain ⟨he, hs', hrest⟩ := hc.scheduled.onward_spec hcurrent hfinish
  rw [leave_eq]
  generalize h.onward c v = h' at he hs' hrest ⊢
  obtain ⟨times, htimes, latest, hlatest, htold⟩ := hc.told
  have hleft : h'.left = h.left + 1 := he.left
  have hclock : 0.0 ≤ h'.time := he.time.symm ▸ hc.clock
  have hhalt : h'.halt = none := he.halt.trans hrun
  have hlt := (Array.getElem?_eq_some_iff.mp hcurrent).1
  obtain ⟨time, htime⟩ : ∃ time, events.toList ++ [.moved v.exit] =
      (h'.visits.toList.zip (times ++ [time])).flatMap fun visit => account c visit.1 visit.2 := by
    cases hlatest with
    | before _ hbefore => exact absurd (hbefore _ hfired) (Nat.lt_irrefl _)
    | inside v' time _ hcurrent' _ =>
        obtain rfl := Option.some.inj (hcurrent'.symm.trans hcurrent)
        refine ⟨time, ?_⟩
        have hvisits : h.visits.toList <+: h'.visits.toList := he.visits
        rw [zip_extended hvisits
          (by simp only [List.length_append, List.length_singleton, Array.length_toList]; omega)]
        rw [zip_concat (by rw [htimes, Array.getElem?_toList]; exact hcurrent), htold]
        simp [account]
    | halted _ _ hstop => rw [hrun] at hstop; cases hstop
    | nowhere hstop => rw [hrun] at hstop; cases hstop
  have hcount : (times ++ [time]).length = h'.left := by simp [htimes, hleft]
  split_ifs with hahead
  · have hsize : h'.visits.size = h'.left := by
      have hle : h.visits.toList.length ≤ h'.visits.toList.length := he.visits.length_le
      simp only [Array.length_toList] at hle
      unfold ahead at hahead
      omega
    refine
      { scheduled := (unmarked_scheduled c speed start).mark _ _ _ _ hs'
        clock := hclock
        running := fun hnone => by cases hnone
        stopped := fun _ => ⟨hsize.symm, hrest hahead⟩
        told := ⟨times ++ [time], hcount, _, .halted v h'.time rfl ?_, ?_⟩ }
    · change h'.visits.back? = some v
      rw [Array.back?_eq_getElem?, hsize, hleft]
      exact he.getElem? hcurrent
    · simp only [Array.toList_push, htime]
  · refine
      { scheduled := hs'
        clock := hclock
        running := fun _ => Nat.lt_of_sub_ne_zero hahead
        stopped := fun hstop => by rw [hhalt] at hstop; cases hstop
        told := ⟨times ++ [time], hcount, [], .before hhalt ?_, by simpa using htime⟩ }
    intro seq hseq
    have hsame : h.fired = some seq := he.fired.symm.trans hseq
    rw [hfired, Option.some.injEq] at hsame
    rw [hleft]
    omega

/-- No visit of the traversal ends before it starts. -/
theorem Course.forth (hc : h.Course c speed start events)
    (ht : Timetable c (usableSpeed speed) start (Plan.ofChart c speed start).visits.toList)
    {i : Nat} {v : Visit} (hv : h.visits[i]? = some v) : v.start ≤ v.finish := by
  refine ht.forth v ?_
  rw [← hc.scheduled.plan]
  exact List.mem_append_left _ (Array.mem_toList_iff.mpr (Array.mem_of_getElem? hv))

variable (ht : Timetable c (usableSpeed speed) start (Plan.ofChart c speed start).visits.toList)
include ht

/-- A visit that is over has begun, so that it is told of before it is left. -/
theorem Course.leave_over (hc : h.Course c speed start events) {v : Visit} (hrun : h.halt = none)
    (hcurrent : h.visits[h.left]? = some v) (hover : ¬ h.time ≤ v.finish) :
    v.finish < h.time ∧ (h.fire c events).1 = { h with fired := some h.left } ∧
      ((h.fire c events).1.leave v c (h.fire c events).2).1.Course c speed start
        ((h.fire c events).1.leave v c (h.fire c events).2).2 := by
  have hforth := hc.forth ht hcurrent
  have hfinish : v.finish < h.time :=
    lt_of_not_le ((zero_le_iff _).mp hc.clock).1 ((le_iff _ _).mp hforth).2.1 hover
  have hfired := hc.fired_fire hrun hcurrent fun hlt => hover (le_of_le_of_le (le_of_lt hlt) hforth)
  have hfire := hc.fire
  rw [hfired] at hfire ⊢
  exact ⟨hfinish, rfl, hfire.leave hrun hcurrent rfl (le_of_lt hfinish)⟩

/-- Leaving all rows that are over tells of each of them once. -/
theorem Course.resolveSome (ends : Nat) {h : Playhead} {events : Array Event}
    (hc : h.Course c speed start events) :
    (resolveSome c ends h events).1.Course c speed start (resolveSome c ends h events).2 := by
  induction ends generalizing h events with
  | zero => exact hc
  | succ ends ih =>
      unfold Playhead.resolveSome
      split
      next v hrun hcurrent =>
        split_ifs with hover
        · exact hc
        · exact ih (hc.leave_over ht hrun hcurrent hover).2.2
      · exact hc

theorem Course.step (hc : h.Course c speed start events) (s : Step) :
    (step c (h, events) s).1.Course c speed start (step c (h, events) s).2 := by
  cases s with
  | plan limit => exact hc.plan limit
  | fire => exact hc.fire
  | advance dt => exact hc.advance dt
  | resolve => exact (Course.resolveSome ht maxEnds hc).fire

end Course

/-- A playhead that finds no visit to begin with has halted. -/
theorem ofChart_eq (c : Chart) (speed start : Float) :
    ofChart c speed start =
      if ((unplanned c speed start).planUntil c start).visits.isEmpty then
        { (unplanned c speed start).planUntil c start with halt := some ⟨none, 0.0⟩ }
      else (unplanned c speed start).planUntil c start := rfl

/-- A playhead at the start has told nothing.  It has planned a visit if there is one. -/
theorem course_ofChart (c : Chart) (speed : Float) {start : Float} (hstart : start.isFinite = true) :
    (ofChart c speed start).Course c speed start #[] := by
  have hs := (unmarked_scheduled c speed start).plan _ start scheduled_unplanned
  have hrest : (unplanned c speed start).planner.rest c ≠ [] →
      0 < ((unplanned c speed start).planUntil c start).visits.size :=
    planUntil_grows (le_self (isNumber_of_isFinite hstart)) (Nat.zero_lt_succ _)
  have he := extends_planUntil (unplanned c speed start) c start
  have hleft : ((unplanned c speed start).planUntil c start).left = 0 := he.left
  have hclock : 0.0 ≤ ((unplanned c speed start).planUntil c start).time := by
    rw [he.time]
    exact le_self isNumber_zero
  rw [ofChart_eq]
  generalize (unplanned c speed start).planUntil c start = h at hs hrest he hleft hclock ⊢
  split_ifs with hempty
  · have hvisits : h.visits = #[] := Array.isEmpty_iff.mp hempty
    refine
      { scheduled := (unmarked_scheduled c speed start).mark _ _ _ _ hs
        clock := hclock
        running := fun hnone => by cases hnone
        stopped := fun _ => ⟨by rw [hleft, hvisits]; rfl, ?_⟩
        told := ⟨[], hleft.symm, [], .nowhere rfl hvisits, by simp⟩ }
    by_contra hmore
    have hnil : (unplanned c speed start).planner.rest c = [] := by
      by_contra hne
      have := hrest hne
      rw [hvisits] at this
      exact Nat.lt_irrefl _ this
    exact hmore (he.visits_eq scheduled_unplanned hs hnil).2
  · have hpos : 0 < h.visits.size := by
      rw [Array.isEmpty_iff] at hempty
      exact Array.size_pos_iff.mpr hempty
    have hhalt : h.halt = none := he.halt
    refine
      { scheduled := hs
        clock := hclock
        running := fun _ => hleft ▸ hpos
        stopped := fun hstop => by rw [hhalt] at hstop; cases hstop
        told := ⟨[], hleft.symm, [], .before hhalt fun seq hseq => ?_, by simp⟩ }
    have hfired : h.fired = none := he.fired
    rw [hfired] at hseq
    cases hseq

/-- The events of a playhead on a chart from a text, after any steps. -/
theorem course_stepped (text : String) (speed : Float) {start : Float}
    (hstart : start.isFinite = true) (steps : List Step) :
    (stepped (.ofText text) speed start steps).1.Course (.ofText text) speed start
      (stepped (.ofText text) speed start steps).2 := by
  have ht : Timetable (.ofText text) (usableSpeed speed) start
      (Plan.ofChart (.ofText text) speed start).visits.toList :=
    Planner.visits_ofChart (.ofText text) speed start ▸
      Planner.timed_rest (Chart.laid_ofText text) (Planner.timed_ofChart _ speed hstart)
  suffices ∀ state : Playhead × Array Event, state.1.Course (.ofText text) speed start state.2 →
      (steps.foldl (step (.ofText text)) state).1.Course (.ofText text) speed start
        (steps.foldl (step (.ofText text)) state).2 from
    this _ (course_ofChart _ speed hstart)
  induction steps with
  | nil => exact fun _ hc => hc
  | cons s steps ih => exact fun state hc => ih _ (hc.step ht s)

/-- Whatever is done to a playhead, it has planned the first visits of the traversal and stamped the
notes of each.  Its events tell of each visit that is left, one after the other, from its entry and the
commands of its row to its exit; then of the entry of the current one at most, or of the halt, which comes
only after all visits of the traversal. -/
theorem follows_plan (text : String) (speed : Float) {start : Float}
    (hstart : start.isFinite = true) (steps : List Step) :
    let c := Chart.ofText text
    let plan := (Plan.ofChart c speed start).visits.toList
    let h := (stepped c speed start steps).1
    let events := (stepped c speed start steps).2
    h.visits.toList <+: plan ∧
      (h.live.toList = h.visits.toList.flatMap fun v => (c.notesAt v.row).map fun n =>
        .fresh n.1 v.seq v.row n.2.position (v.start + n.2.position / usableSpeed speed)) ∧
      (∀ seq, (h.notesOfVisit seq).toList =
        ((h.visits[seq]?).map fun v => v.liveNotes c (usableSpeed speed)).getD []) ∧
      h.left ≤ h.visits.size ∧
      ∃ (times : List Float) (latest : List Event), times.length = h.left ∧
        (events.toList = ((h.visits.toList.zip times).flatMap fun visit =>
          entryEvents visit.1 c visit.2 ++ [.moved visit.1.exit]) ++ latest) ∧
        (latest = [] ∨
          (∃ v time, h.visits[h.left]? = some v ∧ latest = entryEvents v c time) ∨
          ∃ v time, plan.getLast? = some v ∧ h.left = plan.length ∧
            latest = [.halted v.row time]) := by
  intro c plan h events
  have hc : h.Course c speed start events := course_stepped text speed hstart steps
  have hlive := live_stepped c speed start steps
  obtain ⟨times, htimes, latest, hlatest, htold⟩ := hc.told
  refine ⟨⟨_, hc.scheduled.plan⟩, hlive, ofVisit_eq hc.scheduled hlive, hc.left_le, times, latest,
    htimes, htold, ?_⟩
  cases hlatest with
  | before => exact .inl rfl
  | inside v time _ hcurrent => exact .inr (.inl ⟨v, time, hcurrent, rfl⟩)
  | nowhere => exact .inl rfl
  | halted v time hstop hlast =>
      obtain ⟨hleft, hrest⟩ := hc.stopped hstop
      have hplan : h.visits.toList = plan := by
        have := hc.scheduled.plan
        rwa [hrest, List.append_nil] at this
      refine .inr (.inr ⟨v, time, ?_, ?_, rfl⟩)
      · rw [← hplan, Array.getLast?_toList]
        exact hlast
      · rw [← hplan, Array.length_toList, hleft]

/-- One long tick over the row that is played twice tells of three visits and of the halt. -/
theorem follows_plan_loopText :
    let c := Chart.ofText loopText
    let plan := (Plan.ofChart c 4.0 0.25).visits.toList
    let h := (stepped c 4.0 0.25 [.fire, .advance 10.0, .resolve]).1
    let events := (stepped c 4.0 0.25 [.fire, .advance 10.0, .resolve]).2
    (0.25 : Float).isFinite = true ∧ h.left = 3 ∧ events.size = 7 ∧ h.visits.toList <+: plan ∧
      ∃ (times : List Float) (latest : List Event), times.length = h.left ∧
        events.toList = ((h.visits.toList.zip times).flatMap fun visit =>
          entryEvents visit.1 c visit.2 ++ [.moved visit.1.exit]) ++ latest := by
  obtain ⟨hplan, -, -, -, times, latest, htimes, htold, -⟩ :=
    follows_plan loopText 4.0 (show (0.25 : Float).isFinite = true by decide +kernel)
      [.fire, .advance 10.0, .resolve]
  refine ⟨by decide +kernel, ?_, ?_, hplan, times, latest, htimes, htold⟩
  · rw [ofText_loopText]
    decide +kernel
  · rw [ofText_loopText]
    decide +kernel

end Playhead

end RhythmChart
