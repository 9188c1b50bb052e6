import RhythmChart.Proofs.Arrival
import RhythmChart.Proofs.Outlook

/-! # Live notes in the order of their times

A visit starts when the one before it ends, and the notes of a row come by position.  So live notes are
stamped in the order of their times, whatever speed and start are used and however the sums are rounded.

Main statements.

* `Playhead.Rises`: live notes come in the order of their times, none of which is past the horizon;
* `Playhead.Rises.planVisit`: planning one more visit keeps that;
* `Playback.rises_after`: it holds after any inputs. -/

namespace RhythmChart

open Binary64

/-! ### Times in order -/

/-- The time `s` is not after `t`.  A time that is not a number comes last. -/
def Precedes (s t : Float) : Prop := IsNumber t → s ≤ t

theorem Precedes.trans {s t u : Float} (h : Precedes s t) (h' : Precedes t u) : Precedes s u := by
  intro hu
  have htu := h' hu
  exact le_of_le_of_le (h ((le_iff t u).mp htu).1) htu

theorem precedes_add {x y : Float} (hy : 0.0 ≤ y) : Precedes x (x + y) :=
  fun hn => le_add_of_isNumber hn hy

theorem precedes_add_add {x y y' : Float} (hy : 0.0 ≤ y) (hle : y ≤ y') :
    Precedes (x + y) (x + y') := fun hn => add_le_add_of_isNumber hn hy hle

/-- Judging does not change the times of live notes. -/
theorem map_trigger_of_stamp {live live' : Array LiveNote}
    (h : live'.map LiveNote.stamp = live.map LiveNote.stamp) :
    live'.toList.map LiveNote.trigger = live.toList.map LiveNote.trigger := by
  have := congrArg (fun live => (Array.toList live).map LiveNote.trigger) h
  simpa [Function.comp_def, LiveNote.stamp, LiveNote.fresh] using this

/-! ### Planning -/

/-- The notes of the row with a given id. -/
theorem Chart.notesAt_eq {c : Chart} {id : Int} {r : Row} (h : c.row? id = some r) :
    c.notesAt id = c.notesOf r := by
  unfold Chart.notesAt
  rw [h]

theorem Chart.mem_rows_of_row? {c : Chart} {id : Int} {r : Row} (h : c.row? id = some r) :
    r ∈ c.rows := by
  obtain ⟨i, -, hi⟩ := Option.bind_eq_some_iff.mp h
  exact Array.mem_of_getElem? hi

namespace Playhead

/-- The times of the live notes, in the order in which they were stamped. -/
def triggers (h : Playhead) : List Float := h.live.toList.map LiveNote.trigger

/-- The live notes come in the order of their times, none of which is past the horizon. -/
structure Rises (h : Playhead) : Prop where
  speed : 0.0 < h.planner.speed
  finite : h.planner.speed.isFinite = true
  sorted : h.triggers.Pairwise Precedes
  below : ∀ t ∈ h.triggers, Precedes t h.planner.horizon

theorem triggers_planVisit (h : Playhead) (v : Visit) (q : Planner) (c : Chart) :
    (h.planVisit v q c).triggers =
      h.triggers ++ (c.notesAt v.row).map fun n => v.start + n.2.position / q.speed := by
  unfold triggers planVisit Visit.liveNotes
  simp [LiveNote.fresh, Function.comp_def]

/-- Planning one more visit keeps live notes in the order of their times: those of the visit come after
its start, by position, and before its end. -/
theorem Rises.planVisit {c : Chart} (hc : c.Laid) {h : Playhead} (hr : h.Rises) {v : Visit}
    {q : Planner} (hnext : h.planner.next c = (some v, q)) : (h.planVisit v q c).Rises := by
  obtain ⟨row, hrow, hstart, hduration, hspeed, hhorizon⟩ := Planner.next_some hnext
  have hmem := Chart.mem_rows_of_row? hrow
  have hpositive : 0.0 < q.speed := hspeed ▸ hr.speed
  have hfinite : q.speed.isFinite = true := hspeed ▸ hr.finite
  have hquotient : ∀ {x : Float}, 0.0 ≤ x → 0.0 ≤ x / q.speed := fun hx =>
    div_nonneg hx hpositive hfinite
  have hpositions : ∀ x ∈ c.positionsOf row, 0.0 ≤ x := by
    intro x hx
    obtain ⟨n, hn, rfl⟩ := List.mem_map.mp hx
    exact hc.position_of_mem (Chart.notesAt_eq hrow ▸ hn)
  have htriggers : (h.planVisit v q c).triggers =
      h.triggers ++ (c.positionsOf row).map fun x => h.planner.horizon + x / q.speed := by
    rw [triggers_planVisit, Chart.notesAt_eq hrow, hstart, Chart.positionsOf, List.map_map]
    rfl
  have hfinish : q.horizon = h.planner.horizon + row.extent / q.speed := by
    rw [hhorizon, Visit.finish, hstart, hduration, hspeed]
  refine ⟨hpositive, hfinite, ?_, ?_⟩
  · rw [htriggers]
    refine List.pairwise_append.mpr ⟨hr.sorted, ?_, fun t ht u hu => ?_⟩
    · rw [List.pairwise_map]
      refine (hc.sorted row hmem).imp_of_mem fun hx _ hle => ?_
      exact precedes_add_add (hquotient (hpositions _ hx)) (div_le_div hle hpositive hfinite)
    · obtain ⟨x, hx, rfl⟩ := List.mem_map.mp hu
      exact (hr.below t ht).trans (precedes_add (hquotient (hpositions x hx)))
  · intro t ht
    change Precedes t q.horizon
    rw [hfinish]
    rw [htriggers] at ht
    rcases List.mem_append.mp ht with ht | ht
    · exact (hr.below t ht).trans (precedes_add (hquotient (hc.extents row hmem)))
    · obtain ⟨x, hx, rfl⟩ := List.mem_map.mp ht
      exact precedes_add_add (hquotient (hpositions x hx))
        (div_le_div (hc.within row hmem x hx) hpositive hfinite)

theorem Rises.planSome {c : Chart} (hc : c.Laid) (limit : Float) (steps : Nat) {h : Playhead}
    (hr : h.Rises) : (planSome c limit steps h).Rises := by
  induction steps generalizing h with
  | zero => exact hr
  | succ steps ih =>
      unfold Playhead.planSome
      split_ifs
      · exact hr
      · split
        next v q hnext => exact ih (hr.planVisit hc hnext)
        next q hnext =>
          obtain rfl := Planner.next_none hnext
          exact ⟨hr.speed, hr.finite, hr.sorted, hr.below⟩
      · exact hr

theorem unmarked_rises {c : Chart} (hc : c.Laid) : Unmarked c Rises where
  plan _ limit hr := hr.planSome hc limit _
  mark _ _ _ _ hr := ⟨hr.speed, hr.finite, hr.sorted, hr.below⟩

theorem rises_ofChart {c : Chart} (hc : c.Laid) (speed start : Float) :
    (ofChart c speed start).Rises := by
  have hfresh : (unplanned c speed start).Rises :=
    ⟨(usableSpeed_spec speed).1, (usableSpeed_spec speed).2, List.Pairwise.nil,
      fun _ ht => (nomatch ht)⟩
  have hplan := (unmarked_rises hc).plan _ start hfresh
  unfold ofChart
  dsimp only
  split_ifs
  · exact (unmarked_rises hc).mark _ _ _ _ hplan
  · exact hplan

/-- Judging keeps live notes in the order of their times. -/
theorem Rises.withLive {h : Playhead} (hr : h.Rises) {live : Array LiveNote}
    (hlive : live.map LiveNote.stamp = h.live.map LiveNote.stamp) : (h.withLive live).Rises := by
  have htriggers := map_trigger_of_stamp hlive
  refine ⟨hr.speed, hr.finite, ?_, fun t ht => hr.below t ?_⟩
  · change (live.toList.map LiveNote.trigger).Pairwise Precedes
    rw [htriggers]
    exact hr.sorted
  · change t ∈ live.toList.map LiveNote.trigger at ht
    rwa [htriggers] at ht

end Playhead

/-! ### Playbacks -/

namespace Playback

/-- The rows of the chart are in order, and live notes come in the order of their times. -/
structure Rises (p : Playback) : Prop where
  laid : p.chart.Laid
  playhead : p.playhead.Rises

theorem rises_ofChart {c : Chart} (hc : c.Laid) (settings : Settings) : (ofChart c settings).Rises :=
  ⟨hc.stamped _ _, Playhead.rises_ofChart (hc.stamped _ _) _ _⟩

/-- Every input keeps live notes in the order of their times. -/
theorem rises_feed {p : Playback} (hs : p.Sound) (h : p.Rises) (input : Input) :
    (p.feed input).Rises := by
  cases input with
  | edge e =>
      change (p.queueEdge e).Rises
      unfold queueEdge
      split_ifs
      · exact ⟨h.laid, h.playhead⟩
      · exact h
  | update dt =>
      have hplanned : p.planAhead.Rises := ⟨h.laid, (Playhead.unmarked_rises h.laid).plan _ _ h.playhead⟩
      have hjudged : p.planAhead.judgeTick.playhead.Rises :=
        hplanned.playhead.withLive (frame_judgeTick (sound_planAhead hs)).stamp
      refine ⟨h.laid, ?_⟩
      exact @unmarked_moveTick p.planAhead.judgeTick _ (Playhead.unmarked_rises h.laid)
        (fun _ _ hr => ⟨hr.speed, hr.finite, hr.sorted, hr.below⟩) hjudged dt

/-- The live notes of a chart from a text come in the order of their times, after any inputs. -/
theorem rises_after (text : String) (settings : Settings) (inputs : List Input) :
    (after (Chart.ofText text) settings inputs).Rises :=
  (after_induction (P := fun p => p.Sound ∧ p.Rises)
    ⟨sound_ofChart _ settings, rises_ofChart (Chart.laid_ofText text) settings⟩
    (fun _ input h => ⟨sound_feed h.1 input, rises_feed h.1 h.2 input⟩) inputs).2

end Playback

end RhythmChart
