import RhythmChart.Proofs.Accounting
import RhythmChart.Proofs.Binary64.Margin
import RhythmChart.Proofs.Charts

/-! # What planning leaves out

Planning follows the whole traversal, a few visits at a time.  What it has not planned yet lies past its
limit, because visits and notes never begin before the horizon.

Main statements.

* `Planner.Plans`: the visits that a planner goes on to plan;
* `Planner.Plans.far`: their notes do not come before the horizon;
* `Playhead.Foresees`: a playhead has planned the first of the visits;
* `Playhead.Foresees.planUntil`: when it has planned up to a limit, what is left lies past that limit. -/

namespace RhythmChart

open Binary64

/-! ### Planners -/

/-- The live notes of some visits, as they are stamped. -/
def stampsOf (c : Chart) (speed : Float) (visits : List Visit) : List LiveNote :=
  visits.flatMap fun v => v.liveNotes c speed

theorem stampsOf_append (c : Chart) (speed : Float) (vs ws : List Visit) :
    stampsOf c speed (vs ++ ws) = stampsOf c speed vs ++ stampsOf c speed ws :=
  List.flatMap_append

namespace Planner

/-- The visits that a planner goes on to plan.  Planning is over when there is no next visit, and also
when the horizon is lost: no limit is ever past a horizon that is not a number. -/
inductive Plans (c : Chart) : Planner → List Visit → Prop where
  | done (p : Planner) (h : (p.next c).1 = none) : Plans c p []
  | lost (p : Planner) (h : ¬ IsNumber p.horizon) : Plans c p []
  | step (p q : Planner) (v : Visit) (rest : List Visit) (hnext : p.next c = (some v, q))
      (hn : IsNumber p.horizon) (h : Plans c q rest) : Plans c p (v :: rest)

/-- What planning one visit does. -/
theorem next_some {c : Chart} {p q : Planner} {v : Visit} (h : p.next c = (some v, q)) :
    ∃ row, c.row? v.row = some row ∧ v.start = p.horizon ∧ v.duration = row.extent / p.speed ∧
      q.speed = p.speed ∧ q.horizon = v.finish := by
  unfold next at h
  split at h
  · cases h
  next row hrow =>
    by_cases hmax : maxVisits ≤ p.planned
    · rw [if_pos hmax] at h
      cases h
    rw [if_neg hmax] at h
    obtain ⟨hv, hq⟩ := Prod.mk.inj h
    obtain ⟨id, -, hid⟩ := Option.bind_eq_some_iff.mp hrow
    have hrowId : row.id = id := by
      unfold Chart.row? at hid
      obtain ⟨i, hi, hget⟩ := Option.bind_eq_some_iff.mp hid
      unfold Chart.rowIndex? at hi
      dsimp only at hi
      split at hi
      next r hr =>
        split_ifs at hi with heq
        obtain rfl := Option.some.inj hi
        rw [hr] at hget
        rw [← Option.some.inj hget]
        exact heq
      · cases hi
    subst hrowId hq
    obtain rfl := Option.some.inj hv
    exact ⟨row, hid, rfl, rfl, rfl, rfl⟩

theorem next_isFinished {c : Chart} {p : Planner} (h : p.isFinished = true) : p.next c = (none, p.stop) := by
  unfold isFinished at h
  rw [Option.isNone_iff_eq_none] at h
  unfold next
  rw [h]
  rfl

theorem next_none {c : Chart} {p q : Planner} (h : p.next c = (none, q)) : q = p.stop := by
  unfold next at h
  split at h
  · exact (Prod.mk.inj h).2.symm
  next row hrow =>
    by_cases hmax : maxVisits ≤ p.planned
    · rw [if_pos hmax] at h
      exact (Prod.mk.inj h).2.symm
    · rw [if_neg hmax] at h
      cases h

theorem Plans.eq_nil {c : Chart} {p : Planner} {rest : List Visit} (h : Plans c p rest)
    (hnext : (p.next c).1 = none) : rest = [] := by
  cases h with
  | done => rfl
  | lost => rfl
  | step _ q v rest hstep => rw [hstep] at hnext; cases hnext

/-- Notes that are not planned yet do not come before the horizon. -/
theorem Plans.far {c : Chart} (hc : c.Placed) {p : Planner} {rest : List Visit}
    (h : Plans c p rest) (hspeed : 0.0 < p.speed) (hfinite : p.speed.isFinite = true)
    {limit : Float} (hhorizon : limit < p.horizon) :
    ∀ n ∈ stampsOf c p.speed rest, limit < n.trigger := by
  -- Adding what is not negative to a time past the limit stays past it.
  have hpast : ∀ {x y : Float}, limit < x → 0.0 ≤ y → limit < x + y := by
    intro x y hx hy
    obtain ⟨hl, hxn, hlt⟩ := (lt_iff _ _).mp hx
    have hle := le_add_of_nonneg hxn (ne_bot_of_gt hlt) hy
    obtain ⟨-, hs, hv⟩ := (le_iff _ _).mp hle
    exact (lt_iff _ _).mpr ⟨hl, hs, hlt.trans_le hv⟩
  induction h with
  | done => exact fun n hn => (nomatch hn)
  | lost => exact fun n hn => (nomatch hn)
  | step p q v rest hnext hn h ih =>
      obtain ⟨row, hrow, hstart, hduration, hq, hfinish⟩ := next_some hnext
      intro n hmem
      rcases List.mem_append.mp hmem with hmem | hmem
      · obtain ⟨m, hm, rfl⟩ := List.mem_map.mp hmem
        change limit < v.start + m.2.position / p.speed
        rw [hstart]
        exact hpast hhorizon (div_nonneg (hc.position_of_mem hm) hspeed hfinite)
      · refine ih (hq ▸ hspeed) (hq ▸ hfinite) ?_ n (by rw [hq]; exact hmem)
        rw [hfinish, Visit.finish, hstart, hduration]
        exact hpast hhorizon (div_nonneg (hc.extent_of_row hrow) hspeed hfinite)

end Planner

theorem prefix_extend (c : Chart) (steps : Nat) (p : Planner) (plan : Plan) :
    plan.visits.toList <+: (Plan.extend c steps p plan).visits.toList := by
  induction steps generalizing p plan with
  | zero => exact List.prefix_refl _
  | succ steps ih =>
      unfold Plan.extend
      split
      · exact List.prefix_refl _
      next v q hnext =>
        refine List.IsPrefix.trans ?_ (ih q _)
        simp

/-- The visits that a planner goes on to plan are those of its plan, or the first of them. -/
theorem exists_plans (c : Chart) (steps : Nat) (p : Planner) (plan : Plan)
    (hsteps : (Plan.extend c steps p plan).visits.size < steps + plan.visits.size) :
    ∃ rest, Planner.Plans c p rest ∧
      plan.visits.toList ++ rest <+: (Plan.extend c steps p plan).visits.toList := by
  have hinit := prefix_extend c steps p plan
  by_cases hn : IsNumber p.horizon
  · induction steps generalizing p plan with
    | zero => simp [Plan.extend] at hsteps
    | succ steps ih =>
        unfold Plan.extend at hsteps hinit ⊢
        split at hsteps
        next q hnext =>
          exact ⟨[], .done p (by rw [hnext]), by simp⟩
        next v q hnext =>
          simp only [hnext] at hinit ⊢
          set plan' : Plan := ⟨plan.visits.push v, if v.exit.target.isNone = true then
            plan.notices ++ p.nextNotices c else plan.notices⟩ with hplan'
          by_cases hq : IsNumber q.horizon
          · obtain ⟨rest, hrest, hpre⟩ := ih q plan' (by
              have hsize : plan'.visits.size = plan.visits.size + 1 := Array.size_push _
              have hless : (Plan.extend c steps q plan').visits.size <
                steps + 1 + plan.visits.size := hsteps
              omega) (prefix_extend c steps q plan') hq
            refine ⟨v :: rest, .step p q v rest hnext hn hrest, ?_⟩
            simpa [hplan'] using hpre
          · refine ⟨[v], .step p q v [] hnext hn (.lost q hq), ?_⟩
            have := prefix_extend c steps q plan'
            simpa [hplan'] using this
  · exact ⟨[], .lost p hn, by simpa using hinit⟩

/-! ### Playheads -/

namespace Playhead

/-- A playhead that has planned the first of the visits `all`, and goes on to plan the others. -/
structure Foresees (c : Chart) (speed : Float) (all : List Visit) (h : Playhead) : Prop where
  pace : h.planner.speed = speed
  plan : ∃ rest, Planner.Plans c h.planner rest ∧ h.visits.toList ++ rest = all
  live : h.live.map LiveNote.stamp = (stampsOf c speed h.visits.toList).toArray

theorem stamp_liveNotes (v : Visit) (c : Chart) (speed : Float) :
    (v.liveNotes c speed).map LiveNote.stamp = v.liveNotes c speed := by
  unfold Visit.liveNotes
  rw [List.map_map]
  rfl

theorem Foresees.planVisit {c : Chart} {speed : Float} {all : List Visit} {h : Playhead}
    (hf : h.Foresees c speed all) {v : Visit} {q : Planner}
    (hnext : h.planner.next c = (some v, q)) (hn : IsNumber h.planner.horizon) :
    (h.planVisit v q c).Foresees c speed all := by
  obtain ⟨rest, hrest, hall⟩ := hf.plan
  obtain ⟨row, -, -, -, hspeed, -⟩ := Planner.next_some hnext
  obtain ⟨rest, rfl, hleft⟩ : ∃ rest', rest = v :: rest' ∧ Planner.Plans c q rest' := by
    cases hrest with
    | done _ h => rw [hnext] at h; cases h
    | lost _ h => exact absurd hn h
    | step _ q' v' rest' hstep _ hrest' =>
        obtain ⟨hv, rfl⟩ := Prod.mk.inj (hstep.symm.trans hnext)
        obtain rfl := Option.some.inj hv
        exact ⟨rest', rfl, hrest'⟩
  refine ⟨hspeed.trans hf.pace, ⟨rest, hleft, ?_⟩, ?_⟩
  · simpa [Playhead.planVisit] using hall
  · have hq : q.speed = speed := hspeed.trans hf.pace
    have hvisits : (h.planVisit v q c).visits.toList = h.visits.toList ++ [v] := by
      simp [Playhead.planVisit]
    rw [hvisits, stampsOf_append]
    change (h.live ++ v.liveNotes c q.speed).map LiveNote.stamp = _
    refine Array.ext' ?_
    have hlive := congrArg Array.toList hf.live
    rw [Array.toList_map] at hlive
    simp [hlive, hq, stamp_liveNotes, stampsOf]

/-- Planning goes on until all is planned, or the horizon is past the limit. -/
theorem Foresees.planSome {c : Chart} {speed : Float} {all : List Visit} {limit : Float}
    (steps : Nat) {h : Playhead} (hf : h.Foresees c speed all) :
    (planSome c limit steps h).Foresees c speed all ∧
      (all.length < h.visits.size + steps → (planSome c limit steps h).visits.toList = all ∨
        ¬ (planSome c limit steps h).planner.horizon ≤ limit) := by
  induction steps generalizing h with
  | zero =>
      refine ⟨hf, fun hlt => ?_⟩
      obtain ⟨rest, -, rfl⟩ := hf.plan
      simp at hlt
  | succ steps ih =>
      unfold Playhead.planSome
      split_ifs with hfinished hlimit
      · refine ⟨hf, fun _ => .inl ?_⟩
        obtain ⟨rest, hrest, rfl⟩ := hf.plan
        rw [hrest.eq_nil (by rw [Planner.next_isFinished hfinished]), List.append_nil]
      · have hn : IsNumber h.planner.horizon := ((le_iff _ _).mp hlimit).1
        split
        next v q hnext =>
          obtain ⟨hf', hend⟩ := ih (hf.planVisit hnext hn)
          refine ⟨hf', fun hlt => hend ?_⟩
          have hsize : (h.planVisit v q c).visits.size = h.visits.size + 1 := Array.size_push _
          omega
        next q hnext =>
          obtain ⟨rest, hrest, hall⟩ := hf.plan
          obtain rfl := hrest.eq_nil (by rw [hnext])
          rw [List.append_nil] at hall
          obtain rfl := Planner.next_none hnext
          exact ⟨⟨hf.pace, ⟨[], .done _ rfl, by simpa using hall⟩, hf.live⟩, fun _ => .inl hall⟩
      · exact ⟨hf, fun _ => .inr hlimit⟩

theorem Foresees.planUntil {c : Chart} {speed : Float} {all : List Visit} {h : Playhead}
    (hf : h.Foresees c speed all) (limit : Float) :
    (h.planUntil c limit).Foresees c speed all := (hf.planSome _).1

theorem unmarked_foresees (c : Chart) (speed : Float) (all : List Visit) :
    Unmarked c (Foresees c speed all) where
  plan _ limit hf := hf.planUntil limit
  mark _ _ _ _ hf := ⟨hf.pace, hf.plan, hf.live⟩

/-- When planning has gone up to a limit, the notes that are left lie past it. -/
theorem Foresees.far {c : Chart} (hc : c.Placed) {speed : Float} (hspeed : 0.0 < speed)
    (hfinite : speed.isFinite = true) {all : List Visit} {h : Playhead}
    (hf : h.Foresees c speed all) (hall : all.length < maxAhead) {limit : Float}
    (hlimit : IsNumber limit) {id : Nat} {n : LiveNote}
    (hid : (h.planUntil c limit).live.size ≤ id) (hn : (stampsOf c speed all)[id]? = some n) :
    limit < n.trigger := by
  obtain ⟨hf', hend⟩ := @Foresees.planSome c speed all limit (maxAhead - h.ahead) h hf
  change (h.planUntil c limit).Foresees c speed all at hf'
  obtain ⟨rest, hrest, heq⟩ := hf'.plan
  have hsize : (h.planUntil c limit).live.size =
      (stampsOf c speed (h.planUntil c limit).visits.toList).length := by
    simpa using congrArg Array.size hf'.live
  rw [← heq, stampsOf_append, List.getElem?_append, if_neg (by omega)] at hn
  have hmem := List.mem_of_getElem? hn
  have hplanned : h.visits.size ≤ all.length := by
    obtain ⟨rest, -, rfl⟩ := hf.plan
    simp
  rcases hend (by unfold ahead; omega) with hdone | hfar
  · change (h.planUntil c limit).visits.toList = all at hdone
    rw [hdone] at heq
    rw [List.append_right_eq_self.mp heq] at hmem
    cases hmem
  · -- Something is left, so that the horizon is a number, and it is past the limit.
    have hhorizon : IsNumber (h.planUntil c limit).planner.horizon := by
      cases hrest with
      | done => cases hmem
      | lost => cases hmem
      | step _ q v rest hnext hnumber h => exact hnumber
    have hlt : limit < (h.planUntil c limit).planner.horizon := by
      by_contra hnot
      exact hfar (le_of_not_lt hlimit hhorizon hnot)
    have := hrest.far hc (hf'.pace ▸ hspeed) (hf'.pace ▸ hfinite) hlt n
    rw [hf'.pace] at this
    exact this hmem

end Playhead

end RhythmChart
