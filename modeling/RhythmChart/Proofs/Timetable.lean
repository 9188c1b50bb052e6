import RhythmChart.Proofs.Flow.Sites
import RhythmChart.Proofs.Triggers

/-! # Timetables

The visits of a whole traversal and their times.  A visit starts when the one before it ends, and the
notes of a visit are due between its start and its end, whatever sums and quotients are rounded to.

Main statements.

* `Planner.rest`: all visits that a planner goes on to plan;
* `Planner.timed_rest`: they follow each other in time, and no time is lost;
* `Planner.rising_stamps`: their live notes come by visit and by time;
* `Playhead.Scheduled`: a playhead has planned the first visits of the traversal, and stamped their
  notes;
* `Playhead.timetable_ofText`: the timetable of a chart from a text, and of the live notes of every
  playhead on it. -/

namespace RhythmChart

open Binary64

/-! ### All visits of a planner -/

namespace Planner

/-- The next visits that a planner plans, at most the given number. -/
def coming (c : Chart) : Nat → Planner → List Visit
  | 0, _ => []
  | steps + 1, p =>
    match p.next c with
    | (some v, q) => v :: coming c steps q
    | (none, _) => []

/-- All visits that a planner goes on to plan. -/
def rest (c : Chart) (p : Planner) : List Visit := coming c (maxVisits + 1 - p.planned) p

/-- Visits are counted as they are planned, and each knows its number and what comes after it. -/
theorem next_count {c : Chart} {p q : Planner} {v : Visit} (h : p.next c = (some v, q)) :
    v.seq = p.planned ∧ q.planned = p.planned + 1 ∧ p.planned < maxVisits ∧
      q.nextRow = v.exit.target := by
  unfold next at h
  split at h
  · cases h
  next row hrow =>
    by_cases hmax : maxVisits ≤ p.planned
    · rw [if_pos hmax] at h
      cases h
    · rw [if_neg hmax] at h
      obtain ⟨hv, rfl⟩ := Prod.mk.inj h
      obtain rfl := Option.some.inj hv
      exact ⟨rfl, rfl, Nat.lt_of_not_le hmax, rfl⟩

theorem rest_of_some {c : Chart} {p q : Planner} {v : Visit} (h : p.next c = (some v, q)) :
    p.rest c = v :: q.rest c := by
  obtain ⟨-, hplanned, hlt, -⟩ := next_count h
  have hsteps : maxVisits + 1 - p.planned = (maxVisits + 1 - q.planned) + 1 := by omega
  unfold rest
  rw [hsteps]
  simp only [coming, h]

theorem rest_of_none {c : Chart} {p : Planner} (h : (p.next c).1 = none) : p.rest c = [] := by
  unfold rest
  cases maxVisits + 1 - p.planned with
  | zero => rfl
  | succ steps =>
      unfold coming
      split
      next v q hnext => rw [hnext] at h; cases h
      next => rfl

/-- What holds of a planner that is done, and is passed on from the next planner, holds of all. -/
theorem rest_induction {c : Chart} {P : Planner → List Visit → Prop}
    (done : ∀ p, (p.next c).1 = none → P p [])
    (step : ∀ p v q, p.next c = (some v, q) → P q (q.rest c) → P p (v :: q.rest c)) (p : Planner) :
    P p (p.rest c) := by
  generalize hleft : maxVisits + 1 - p.planned = left
  induction left generalizing p with
  | zero =>
      -- Past the bound there is no next visit.
      cases hnext : p.next c with
      | mk v? q =>
          cases v? with
          | none =>
              rw [rest_of_none (by rw [hnext])]
              exact done p (by rw [hnext])
          | some v =>
              obtain ⟨-, -, hlt, -⟩ := next_count hnext
              omega
  | succ left ih =>
      cases hnext : p.next c with
      | mk v? q =>
          cases v? with
          | none =>
              rw [rest_of_none (by rw [hnext])]
              exact done p (by rw [hnext])
          | some v =>
              obtain ⟨-, hplanned, -, -⟩ := next_count hnext
              rw [rest_of_some hnext]
              exact step p v q hnext (ih q (by omega))

/-- The visits of a plan are those that its planner goes on to plan. -/
theorem visits_extend (c : Chart) (steps : Nat) (p : Planner) (plan : Plan) :
    (Plan.extend c steps p plan).visits.toList = plan.visits.toList ++ coming c steps p := by
  induction steps generalizing p plan with
  | zero => simp [Plan.extend, coming]
  | succ steps ih =>
      unfold Plan.extend coming
      split
      next q hnext => simp [hnext]
      next v q hnext => simp [ih, hnext]

theorem visits_ofChart (c : Chart) (speed start : Float) :
    (Plan.ofChart c speed start).visits.toList = (ofChart c speed start).rest c := by
  have hplanned : (ofChart c speed start).planned = 0 := rfl
  unfold Plan.ofChart rest
  rw [visits_extend, hplanned, Nat.sub_zero, Array.toList_empty, List.nil_append]

/-- No horizon is ahead of time's beginning or lost, and the speed is usable. -/
structure Timed (p : Planner) : Prop where
  speed : 0.0 < p.speed
  finite : p.speed.isFinite = true
  number : IsNumber p.horizon
  bounded : value p.horizon ≠ ⊥

theorem timed_ofChart (c : Chart) (speed : Float) {start : Float} (h : start.isFinite = true) :
    (ofChart c speed start).Timed :=
  ⟨(usableSpeed_spec speed).1, (usableSpeed_spec speed).2, isNumber_of_isFinite h,
    not_bot_of_isFinite h⟩

/-- The next visit starts at the horizon and does not end before. -/
theorem Timed.next {c : Chart} (hc : c.Placed) {p q : Planner} {v : Visit} (hp : p.Timed)
    (h : p.next c = (some v, q)) :
    v.start = p.horizon ∧ v.finish = q.horizon ∧ p.horizon ≤ q.horizon ∧ q.speed = p.speed ∧
      q.Timed := by
  obtain ⟨row, hrow, hstart, hduration, hspeed, hhorizon⟩ := next_some h
  have hle : p.horizon ≤ v.finish := by
    rw [Visit.finish, hstart, hduration]
    exact le_add_of_nonneg hp.number hp.bounded
      (div_nonneg (hc.extent_of_row hrow) hp.speed hp.finite)
  obtain ⟨-, hnumber, hvalue⟩ := (le_iff _ _).mp hle
  refine ⟨hstart, hhorizon.symm, hhorizon ▸ hle, hspeed, ?_⟩
  exact ⟨hspeed ▸ hp.speed, hspeed ▸ hp.finite, hhorizon ▸ hnumber,
    fun hbot => hp.bounded (le_bot_iff.mp (hvalue.trans (hhorizon ▸ hbot).le))⟩

end Planner

/-! ### Timetables -/

/-- Visits that follow each other in time from `start` on, each with its notes between its start and its
end. -/
structure Timetable (c : Chart) (speed start : Float) (visits : List Visit) : Prop where
  first : ∀ v ∈ visits.head?, v.start = start
  next : visits.IsChain fun v w => w.start = v.finish
  rising : visits.Pairwise fun v w => v.start ≤ w.start
  number : ∀ v ∈ visits, IsNumber v.start
  after : ∀ v ∈ visits, start ≤ v.start
  forth : ∀ v ∈ visits, v.start ≤ v.finish
  within : ∀ v ∈ visits, ∀ n ∈ c.notesAt v.row,
    v.start ≤ v.start + n.2.position / speed ∧ v.start + n.2.position / speed ≤ v.finish

/-- The first of two live notes is neither in a later visit nor due later. -/
structure LiveNote.InOrder (a b : LiveNote) : Prop where
  visit : a.visit ≤ b.visit
  trigger : a.trigger ≤ b.trigger

theorem LiveNote.inOrder_fresh (note note' visit : Nat) (row : Int) {position position' : Float}
    {s t : Float} (h : s ≤ t) :
    (fresh note visit row position s).InOrder (fresh note' visit row position' t) := ⟨le_rfl, h⟩

namespace Planner

/-- The notes of the next visit are due between its start and its end, in the order of the row. -/
theorem Timed.within {c : Chart} (hc : c.Laid) {p q : Planner} {v : Visit} (hp : p.Timed)
    (h : p.next c = (some v, q)) :
    (∀ n ∈ c.notesAt v.row, v.start ≤ v.start + n.2.position / p.speed ∧
      v.start + n.2.position / p.speed ≤ v.finish) ∧
    (c.notesAt v.row).Pairwise fun m n =>
      v.start + m.2.position / p.speed ≤ v.start + n.2.position / p.speed := by
  obtain ⟨row, hrow, hstart, hduration, -, -⟩ := next_some h
  have hmem := Chart.mem_rows_of_row? hrow
  have hnotes := Chart.notesAt_eq hrow
  have hbounded : value v.start ≠ ⊥ := hstart ▸ hp.bounded
  have hnumber : IsNumber v.start := hstart ▸ hp.number
  have hposition : ∀ n ∈ c.notesAt v.row, 0.0 ≤ n.2.position / p.speed := fun n hn =>
    div_nonneg (hc.position_of_mem hn) hp.speed hp.finite
  -- Sums with the start of the visit keep the order of what is added.
  have hsum : ∀ {x y : Float}, 0.0 ≤ x → x ≤ y → v.start + x ≤ v.start + y := by
    intro x y hx hle
    have hy : 0.0 ≤ y := le_of_le_of_le hx hle
    exact add_le_add_of_isNumber
      (isNumber_add hnumber ((zero_le_iff y).mp hy).1 hbounded (not_bot_of_zero_le hy)) hx hle
  refine ⟨fun n hn => ⟨le_add_of_nonneg hnumber hbounded (hposition n hn), ?_⟩, ?_⟩
  · rw [Visit.finish, hduration]
    refine hsum (hposition n hn) (div_le_div ?_ hp.speed hp.finite)
    exact hc.within row hmem _ (List.mem_map_of_mem (hnotes ▸ hn))
  · have hsorted := List.pairwise_map.mp (hc.sorted row hmem)
    rw [← hnotes] at hsorted
    exact hsorted.imp_of_mem fun hm _ hle =>
      hsum (hposition _ hm) (div_le_div hle hp.speed hp.finite)

/-- The visits of a planner follow each other in time from its horizon on. -/
theorem timed_rest {c : Chart} (hc : c.Laid) {p : Planner} (hp : p.Timed) :
    Timetable c p.speed p.horizon (p.rest c) := by
  revert hp
  refine rest_induction (P := fun p visits => p.Timed → Timetable c p.speed p.horizon visits)
    ?_ ?_ p
  · exact fun p _ _ => ⟨by simp, .nil, .nil, by simp, by simp, by simp, by simp⟩
  · intro p v q hnext ih hp
    obtain ⟨hstart, hfinish, hle, hspeed, hq⟩ := hp.next hc.toPlaced hnext
    obtain ⟨hfirst, hchain, hrising, hnumber, hafter, hforth, hwithin⟩ := ih hq
    refine
      { first := fun w hw => ?_
        next := List.isChain_cons.mpr ⟨fun w hw => ?_, hchain⟩
        rising := List.pairwise_cons.mpr ⟨fun w hw => ?_, hrising⟩
        number := List.forall_mem_cons.mpr ⟨hstart ▸ hp.number, hnumber⟩
        after := List.forall_mem_cons.mpr ⟨hstart.symm ▸ le_self hp.number, fun w hw => ?_⟩
        forth := List.forall_mem_cons.mpr ⟨by rw [hstart, hfinish]; exact hle, hforth⟩
        within := List.forall_mem_cons.mpr ⟨(hp.within hc hnext).1, hspeed ▸ hwithin⟩ }
    · rw [← Option.some.inj hw, hstart]
    · rw [hfirst w hw, hfinish]
    · rw [hstart]
      exact le_of_le_of_le hle (hafter w hw)
    · exact le_of_le_of_le hle (hafter w hw)

/-- Visits are numbered in the order in which they are planned. -/
theorem seq_rest (c : Chart) (p : Planner) (i : Nat) :
    ∀ v ∈ (p.rest c)[i]?, v.seq = p.planned + i := by
  refine rest_induction (P := fun p visits => ∀ i, ∀ v ∈ visits[i]?, v.seq = p.planned + i)
    ?_ ?_ p i
  · exact fun p _ i v hv => by simp at hv
  · intro p v q hnext ih i w hw
    obtain ⟨hseq, hplanned, -, -⟩ := next_count hnext
    cases i with
    | zero =>
        obtain rfl := Option.some.inj hw
        exact hseq
    | succ i =>
        have := ih i w hw
        omega

theorem stampsOf_cons (c : Chart) (speed : Float) (v : Visit) (visits : List Visit) :
    stampsOf c speed (v :: visits) = v.liveNotes c speed ++ stampsOf c speed visits :=
  List.flatMap_cons

/-- The live notes of all visits come by visit and by time. -/
theorem rising_stamps {c : Chart} (hc : c.Laid) {p : Planner} (hp : p.Timed) :
    (stampsOf c p.speed (p.rest c)).Pairwise LiveNote.InOrder ∧
      ∀ n ∈ stampsOf c p.speed (p.rest c), p.planned ≤ n.visit ∧ p.horizon ≤ n.trigger := by
  revert hp
  refine rest_induction (P := fun p visits => p.Timed →
    (stampsOf c p.speed visits).Pairwise LiveNote.InOrder ∧
      ∀ n ∈ stampsOf c p.speed visits, p.planned ≤ n.visit ∧ p.horizon ≤ n.trigger) ?_ ?_ p
  · exact fun p _ _ => ⟨.nil, fun n hn => (nomatch hn)⟩
  · intro p v q hnext ih hp
    obtain ⟨hstart, hfinish, hle, hspeed, hq⟩ := hp.next hc.toPlaced hnext
    obtain ⟨hseq, hplanned, -, -⟩ := next_count hnext
    obtain ⟨hwithin, hsorted⟩ := hp.within hc hnext
    obtain ⟨hrest, hlater⟩ := ih hq
    rw [hspeed] at hrest hlater
    have hvisit : ∀ n ∈ v.liveNotes c p.speed,
        n.visit = p.planned ∧ p.horizon ≤ n.trigger ∧ n.trigger ≤ q.horizon := by
      intro n hn
      obtain ⟨m, hm, rfl⟩ := List.mem_map.mp hn
      exact ⟨hseq, hstart ▸ (hwithin m hm).1, hfinish ▸ (hwithin m hm).2⟩
    rw [stampsOf_cons]
    refine ⟨List.pairwise_append.mpr ⟨?_, hrest, fun a ha b hb => ?_⟩, fun n hn => ?_⟩
    · exact List.pairwise_map.mpr (hsorted.imp fun hle => LiveNote.inOrder_fresh _ _ _ _ hle)
    · obtain ⟨hvisit, -, htrigger⟩ := hvisit a ha
      obtain ⟨hvisit', htrigger'⟩ := hlater b hb
      exact ⟨by omega, le_of_le_of_le htrigger htrigger'⟩
    · rcases List.mem_append.mp hn with hn | hn
      · obtain ⟨hvisit, htrigger, -⟩ := hvisit n hn
        exact ⟨hvisit.ge, htrigger⟩
      · obtain ⟨hvisit, htrigger⟩ := hlater n hn
        exact ⟨by omega, le_of_le_of_le hle htrigger⟩

end Planner

/-! ### Playheads on a timetable -/

namespace Playhead

/-- A playhead that has planned the first visits of the traversal and stamped their notes.  Its planner
goes on at the end of the last planned visit. -/
structure Scheduled (c : Chart) (speed start : Float) (h : Playhead) : Prop where
  pace : h.planner.speed = usableSpeed speed
  plan : h.visits.toList ++ h.planner.rest c = (Plan.ofChart c speed start).visits.toList
  live : h.live.map LiveNote.stamp = (stampsOf c (usableSpeed speed) h.visits.toList).toArray
  horizon : h.planner.horizon = (h.visits.back?.map Visit.finish).getD start
  onward : ∀ v, h.visits.back? = some v → v.exit.target = none → h.planner.rest c = []

section Scheduled

variable {c : Chart} {speed start : Float} {h : Playhead}

theorem scheduled_unplanned : (unplanned c speed start).Scheduled c speed start :=
  { pace := rfl
    plan := by rw [Planner.visits_ofChart, unplanned, Array.toList_empty, List.nil_append]
    live := by simp [unplanned, stampsOf]
    horizon := rfl
    onward := fun v hv => by simp [unplanned] at hv }

theorem Scheduled.planVisit (hs : h.Scheduled c speed start) {v : Visit} {q : Planner}
    (hnext : h.planner.next c = (some v, q)) : (h.planVisit v q c).Scheduled c speed start := by
  obtain ⟨row, -, -, -, hspeed, hhorizon⟩ := Planner.next_some hnext
  obtain ⟨-, -, -, hrow⟩ := Planner.next_count hnext
  have hq : q.speed = usableSpeed speed := hspeed.trans hs.pace
  have hvisits : (h.planVisit v q c).visits.toList = h.visits.toList ++ [v] := by
    simp [Playhead.planVisit]
  have hlast : (h.planVisit v q c).visits.back? = some v := Array.back?_push
  refine { pace := hq, plan := ?_, live := ?_, horizon := ?_, onward := fun w hw htarget => ?_ }
  · rw [hvisits, List.append_assoc, List.singleton_append]
    exact (congrArg (h.visits.toList ++ ·) (Planner.rest_of_some hnext).symm).trans hs.plan
  · rw [hvisits, stampsOf_append]
    refine Array.ext' ?_
    have hlive := congrArg Array.toList hs.live
    rw [Array.toList_map] at hlive
    simp [Playhead.planVisit, hlive, hq, stamp_liveNotes, stampsOf]
  · rw [hlast]
    exact hhorizon
  · obtain rfl := Option.some.inj (hlast.symm.trans hw)
    refine Planner.rest_of_none ?_
    change (q.next c).1 = none
    rw [Planner.next_isFinished]
    rw [Planner.isFinished, hrow, htarget]
    rfl

theorem Scheduled.planSome (hs : h.Scheduled c speed start) (limit : Float) (steps : Nat) :
    (planSome c limit steps h).Scheduled c speed start := by
  induction steps generalizing h with
  | zero => exact hs
  | succ steps ih =>
      unfold Playhead.planSome
      split_ifs
      · exact hs
      · split
        next v q hnext => exact ih (hs.planVisit hnext)
        next q hnext =>
          have hnone : (h.planner.next c).1 = none := by rw [hnext]
          have hrest := Planner.rest_of_none hnone
          obtain rfl := Planner.next_none hnext
          have hstop : h.planner.stop.rest c = [] := Planner.rest_of_none rfl
          exact ⟨hs.pace, by rw [hstop, ← hrest]; exact hs.plan, hs.live, hs.horizon,
            fun _ _ _ => hstop⟩
      · exact hs

end Scheduled

theorem unmarked_scheduled (c : Chart) (speed start : Float) :
    Unmarked c (Scheduled c speed start) where
  plan _ limit hs := hs.planSome limit _
  mark _ _ _ _ hs := ⟨hs.pace, hs.plan, hs.live, hs.horizon, hs.onward⟩

theorem scheduled_ofChart (c : Chart) (speed start : Float) :
    (ofChart c speed start).Scheduled c speed start := by
  have hplan := (unmarked_scheduled c speed start).plan _ start scheduled_unplanned
  unfold ofChart
  dsimp only
  split_ifs
  · exact (unmarked_scheduled c speed start).mark _ _ _ _ hplan
  · exact hplan

/-! ### Steps -/

/-- What may be done to a playhead: visits are planned, the current row is announced, time passes, or
the rows that are over are left. -/
inductive Step where
  | plan (limit : Float)
  | fire
  | advance (dt : Float)
  | resolve

/-- The playhead and the events so far, after one step. -/
def step (c : Chart) (state : Playhead × Array Event) : Step → Playhead × Array Event
  | .plan limit => (state.1.planUntil c limit, state.2)
  | .fire => state.1.fire c state.2
  | .advance dt => (state.1.advance dt, state.2)
  | .resolve => state.1.resolve c state.2

/-- A playhead after some steps, with all events. -/
def stepped (c : Chart) (speed start : Float) (steps : List Step) : Playhead × Array Event :=
  steps.foldl (step c) (ofChart c speed start, #[])

/-- What planning keeps, and what looks neither at the marks nor at the time, holds after all steps. -/
theorem Unmarked.stepped {c : Chart} {P : Playhead → Prop} (hP : Unmarked c P)
    (htime : ∀ (h : Playhead) (time : Float), P h → P { h with time }) {speed start : Float}
    (h0 : P (ofChart c speed start)) (steps : List Step) : P (stepped c speed start steps).1 := by
  suffices ∀ state : Playhead × Array Event, P state.1 → P (steps.foldl (step c) state).1 from
    this _ h0
  induction steps with
  | nil => exact fun _ h => h
  | cons s steps ih =>
      refine fun state h => ih _ ?_
      cases s with
      | plan limit => exact hP.plan _ _ h
      | fire => exact hP.fire h _
      | advance dt =>
          change P (state.1.advance dt)
          unfold advance
          split_ifs
          · exact htime _ _ h
          · exact h
      | resolve => exact hP.resolve h _

theorem scheduled_stepped (c : Chart) (speed start : Float) (steps : List Step) :
    (stepped c speed start steps).1.Scheduled c speed start :=
  (unmarked_scheduled c speed start).stepped
    (fun _ _ hs => ⟨hs.pace, hs.plan, hs.live, hs.horizon, hs.onward⟩)
    (scheduled_ofChart c speed start) steps

/-- Steps only stamp live notes: none is judged. -/
theorem unjudged_stepped (c : Chart) (speed start : Float) (steps : List Step) :
    ∀ n ∈ (stepped c speed start steps).1.live, n.stamp = n := by
  have hstamped : ∀ h : Playhead, (∀ n ∈ h.live, n.stamp = n) → ∀ h' : Playhead,
      Stamped h.live h'.live → ∀ n ∈ h'.live, n.stamp = n := by
    rintro h hfresh h' ⟨more, hmore, hfresh'⟩ n hn
    rw [hmore] at hn
    rcases Array.mem_append.mp hn with hn | hn
    · exact hfresh n hn
    · exact hfresh' n hn
  have hunmarked : Unmarked c fun h => ∀ n ∈ h.live, n.stamp = n :=
    { plan := fun h limit hfresh => hstamped h hfresh _ (stamps_planUntil h c limit).live
      mark := fun _ _ _ _ hfresh => hfresh }
  exact hunmarked.stepped (fun _ _ hfresh => hfresh)
    (hstamped (unplanned c speed start) (fun n hn => by simp [unplanned] at hn) _
      (stamps_ofChart c speed start).live) steps

/-- The live notes are those of the planned visits, in order. -/
theorem live_stepped (c : Chart) (speed start : Float) (steps : List Step) :
    let h := (stepped c speed start steps).1
    h.live.toList = h.visits.toList.flatMap fun v => v.liveNotes c (usableSpeed speed) := by
  intro h
  have hlive := congrArg Array.toList (scheduled_stepped c speed start steps).live
  have hfresh := unjudged_stepped c speed start steps
  rw [Array.toList_map, List.map_congr_left fun n hn => hfresh n (Array.mem_toList_iff.mp hn),
    List.map_id'] at hlive
  exact hlive

/-- A row that is played twice after the row that says so. -/
def loopText : String := "# Main\n-1:\n0:[1;t loop\x7b2\x7d]\n-2:\ntab:1\n0.5:[1;t]\n"

/-- What is read of it. -/
def loopScan : Scan := Scan.start.lines ((Text.lines loopText.toList).zipIdx 1)

theorem ofText_loopText :
    Chart.ofText loopText =
      { notes := loopScan.notes
        rows := ([-1, -2].map (Row.ofMembers loopScan.closeRow.declared
          loopScan.notes.toList.zipIdx)).toArray
        metadata := loopScan.metadata.toList
        diagnostics := loopScan.diagnostics.toList } :=
  Chart.ofParts_eq _ (by decide +kernel) (by decide) _ _

end Playhead

end RhythmChart
