import RhythmChart.Proofs.Binary64.Order
import RhythmChart.Windows

/-! # Clamped windows

Main statements.

* `Windows.clamped_ordered`: clamped windows are numbers in rising order;
* `Windows.grade_eq_tooLate`: a note whose exit window has closed gets the grade of a late miss;
* `Windows.isMiss_grade`: an offset within the exit window is not a miss. -/

namespace RhythmChart.Windows

open Binary64

/-- The windows are in order, and no bound is negative. -/
structure Ordered (w : Windows) : Prop where
  zero_le_fixed : 0.0 ≤ w.fixed
  fixed_le_patched : w.fixed ≤ w.patched
  patched_le_exit : w.patched ≤ w.exit
  exit_le_enter : w.exit ≤ w.enter
  zero_le_holdGrace : 0.0 ≤ w.holdGrace

theorem clamped_ordered (w : Windows) : w.clamped.Ordered := by
  have hfixed : 0.0 ≤ w.clamped.fixed := le_raise isNumber_zero
  have hpatched : w.clamped.fixed ≤ w.clamped.patched := le_raise ((le_iff _ _).mp hfixed).2.1
  have hexit : w.clamped.patched ≤ w.clamped.exit := le_raise ((le_iff _ _).mp hpatched).2.1
  exact ⟨hfixed, hpatched, hexit, le_raise ((le_iff _ _).mp hexit).2.1, le_raise isNumber_zero⟩

theorem Ordered.zero_le_exit {w : Windows} (h : w.Ordered) : IsNumber w.exit ∧ 0 ≤ value w.exit := by
  obtain ⟨-, hf⟩ := (zero_le_iff _).mp h.zero_le_fixed
  obtain ⟨-, -, hp⟩ := (le_iff _ _).mp h.fixed_le_patched
  obtain ⟨-, hn, he⟩ := (le_iff _ _).mp h.patched_le_exit
  exact ⟨hn, hf.trans (hp.trans he)⟩

theorem Ordered.zero_le_enter {w : Windows} (h : w.Ordered) : 0.0 ≤ w.enter := by
  obtain ⟨-, hzero⟩ := h.zero_le_exit
  obtain ⟨-, hn, hle⟩ := (le_iff _ _).mp h.exit_le_enter
  exact (zero_le_iff _).mpr ⟨hn, hzero.trans hle⟩

/-- A note whose exit window has closed gets the grade of a late miss. -/
theorem grade_eq_tooLate {w : Windows} (h : w.Ordered) {now trigger : Float}
    (hlate : ¬ now - trigger ≤ w.exit) : w.grade (trigger - now) = .tooLate := by
  obtain ⟨hexit, hzero⟩ := h.zero_le_exit
  have hpatched := (le_iff _ _).mp h.patched_le_exit
  have hfixed := (le_iff _ _).mp h.fixed_le_patched
  by_cases hn : IsNumber (trigger - now)
  · obtain ⟨hn', hneg⟩ := value_sub_comm hn
    have hlt : value w.exit < -value (trigger - now) := by
      rw [← hneg]
      exact not_le.mp fun hle => hlate ((le_iff _ _).mpr ⟨hn', hexit, hle⟩)
    have hwide : ∀ x : Float, value x ≤ value w.exit → ¬ (trigger - now).abs ≤ x := by
      intro x hx hle
      have := ((le_iff _ _).mp hle).2.2
      rw [value_abs] at this
      exact absurd (hlt.trans_le ((le_max_right _ _).trans (this.trans hx))) (lt_irrefl _)
    have hearly : ¬ 0.0 < trigger - now := by
      intro hpos
      have := ((lt_iff _ _).mp hpos).2.2
      rw [value_zero] at this
      have hneg' : -value (trigger - now) ≤ 0 := EReal.neg_le_zero.mpr this.le
      exact absurd (hzero.trans_lt hlt) (not_lt.mpr hneg')
    unfold grade
    simp [hwide _ le_rfl, hwide _ hpatched.2.2, hwide _ (hfixed.2.2.trans hpatched.2.2), hearly]
  · have hcmp : ∀ x : Float, ¬ (trigger - now).abs ≤ x := fun x hle =>
      hn ((isNumber_abs_iff _).mp ((le_iff _ _).mp hle).1)
    have hearly : ¬ 0.0 < trigger - now := fun hpos => hn ((lt_iff _ _).mp hpos).2.1
    unfold grade
    simp [hcmp, hearly]

/-- An offset within the exit window is not a miss. -/
theorem isMiss_grade {w : Windows} {offset : Float} (h : offset.abs ≤ w.exit) :
    (w.grade offset).isMiss = false := by
  unfold grade
  dsimp only
  split_ifs <;> rfl

end RhythmChart.Windows
