import RhythmChart.Proofs.Binary64.Nearest

/-! # Rounding of significands

The arithmetic of core's float model computes a significand with two more bits, one for the first
digit that is cut off and one for all others, and rounds it by these bits.  This module relates that
to the rounding of real numbers.

Main statements.

* `Describes.roundedMantissa`: two bits are enough to round;
* `roundWithAccuracy_spec`: a number whose leading digits are known is rounded to the nearest;
* `normalize_spec`: so is a number of which all digits are known. -/

namespace RhythmChart.Binary64

open Float.Model Float.Model.UnpackedFloat

/-! ### Residual bits -/

theorem Describes.bounds {em : ExtendedMantissa} {y : ℝ} (h : Describes em y) :
    (em.mantissa : ℝ) ≤ y ∧ y < em.mantissa + 1 := by
  obtain ⟨m, r, s⟩ := em
  cases r <;> cases s <;> simp only [Describes] at h <;> constructor <;> linarith

/-- Dropping the last bit halves the number. -/
theorem Describes.shiftRightOne {em : ExtendedMantissa} {y : ℝ} (h : Describes em y) :
    Describes em.shiftRightOne (y / 2) := by
  obtain ⟨m, r, s⟩ := em
  have hm : (m : ℝ) = 2 * (m / 2 : ℕ) + (m % 2 : ℕ) := by exact_mod_cast (Nat.div_add_mod m 2).symm
  rcases Nat.mod_two_eq_zero_or_one m with h2 | h2 <;> rw [h2] at hm <;> push_cast at hm <;>
    cases r <;> cases s <;>
    simp only [Describes, ExtendedMantissa.shiftRightOne, h2] at h ⊢ <;>
    simp only [Bool.or_false, Bool.or_true, bne_self_eq_false] <;> grind

theorem Describes.shiftRight {em : ExtendedMantissa} {y : ℝ} (h : Describes em y) (k : ℕ) :
    Describes (em >>> k) (y / 2 ^ k) := by
  induction k with
  | zero =>
      rw [pow_zero, div_one]
      exact h
  | succ k ih =>
      have hstep : em >>> (k + 1) = (em >>> k).shiftRightOne := rfl
      rw [hstep, pow_succ, ← div_div]
      exact ih.shiftRightOne

/-- Two bits are enough to round. -/
theorem Describes.roundedMantissa {em : ExtendedMantissa} {y : ℝ} (h : Describes em y) :
    (em.roundedMantissa : ℤ) = halfEven y := by
  have hfloor : ⌊y⌋ = (em.mantissa : ℤ) := by
    rw [Int.floor_eq_iff]
    exact_mod_cast h.bounds
  have hfract : Int.fract y = y - em.mantissa := by
    rw [Int.fract, hfloor]
    norm_num
  obtain ⟨m, r, s⟩ := em
  unfold halfEven
  rw [hfract, hfloor]
  cases r <;> cases s <;> simp only [Describes] at h <;>
    simp only [ExtendedMantissa.roundedMantissa, ExtendedMantissa.accuracy,
      Accuracy.roundToNearestEven]
  · rw [if_pos (by linarith)]
  · rw [if_pos (by linarith)]
  · rw [if_neg (by linarith), if_pos (by linarith)]
    push_cast
    rfl
  · rw [if_neg (by linarith), if_neg (by linarith)]
    push_cast
    rfl

/-- What an accuracy says about a number with a given whole part. -/
def Approximates (m : ℕ) (acc : Accuracy) (y : ℝ) : Prop :=
  Describes (ExtendedMantissa.ofMantissaAndAccuracy m acc) y

theorem approximates_exact (m : ℕ) : Approximates m .exact m := by
  simp [Approximates, Describes, ExtendedMantissa.ofMantissaAndAccuracy]

theorem Approximates.bounds {m : ℕ} {acc : Accuracy} {y : ℝ} (h : Approximates m acc y) :
    (m : ℝ) ≤ y ∧ y < m + 1 := by
  have hm : (ExtendedMantissa.ofMantissaAndAccuracy m acc).mantissa = m := by
    cases acc with
    | exact => rfl
    | inexact o => cases o <;> rfl
  have := Describes.bounds h
  rwa [hm] at this

/-! ### Exponents -/

/-- The whole part of a number has the logarithm of the number. -/
theorem log_eq_of_approximates {m : ℕ} {acc : Accuracy} {e : ℤ} {x : ℝ} (hm : 0 < m)
    (h : Approximates m acc (x / 2 ^ e)) : Int.log 2 x = m.log2 + e := by
  have hpow : (0 : ℝ) < 2 ^ e := by positivity
  obtain ⟨hlo, hhi⟩ := h.bounds
  have hself : 2 ^ m.log2 ≤ m := Nat.log2_self_le hm.ne'
  have hlt : m < 2 ^ (m.log2 + 1) := Nat.lt_log2_self
  have hx : 0 < x := by
    have : (0 : ℝ) < x / 2 ^ e := lt_of_lt_of_le (by exact_mod_cast hm) hlo
    exact (div_pos_iff_of_pos_right hpow).mp this
  have hlower : (2 : ℝ) ^ ((m.log2 : ℤ) + e) ≤ x := by
    rw [zpow_add₀ two_ne_zero, zpow_natCast, ← le_div_iff₀ hpow]
    exact le_trans (by exact_mod_cast hself) hlo
  have hupper : x < (2 : ℝ) ^ ((m.log2 : ℤ) + e + 1) := by
    have hle : (m : ℝ) + 1 ≤ 2 ^ (m.log2 + 1) := by exact_mod_cast hlt
    rw [show (m.log2 : ℤ) + e + 1 = ((m.log2 + 1 : ℕ) : ℤ) + e by push_cast; ring,
      zpow_add₀ two_ne_zero, zpow_natCast, ← div_lt_iff₀ hpow]
    exact lt_of_lt_of_le hhi hle
  have hle := (Int.zpow_le_iff_le_log (R := ℝ) (b := 2) one_lt_two hx).mp (by exact_mod_cast hlower)
  have hlt := (Int.lt_zpow_iff_log_lt (R := ℝ) (b := 2) one_lt_two hx).mp (by exact_mod_cast hupper)
  omega

theorem targetExponent_eq (t : ℤ) : Format.binary64.targetExponent t = max (t - 53) (-1074) := by
  simp [Format.targetExponent, Format.mantissaBits, Format.minExponent]

/-- The exponent that the model aims at is the one with which the number is written. -/
theorem targetExponent_eq_place {m : ℕ} {acc : Accuracy} {e : ℤ} {x : ℝ} (hm : 0 < m)
    (h : Approximates m acc (x / 2 ^ e)) :
    Format.binary64.targetExponent (totalExponent m e) = place x := by
  rw [targetExponent_eq, place, log_eq_of_approximates hm h, totalExponent]
  congr 1
  omega

/-! ### Results -/

/-- What a result is before it is packed: zero, or a number in canonical form whose exponent may be
too large. -/
inductive Rounded : UnpackedFloat → ℝ → Prop where
  | zero (s : Sign) : Rounded (.zero s) 0
  | finite (s : Sign) (m : ℕ) (e : ℤ) (hm : 0 < m) (hbits : m < 2 ^ 53) (he : -1074 ≤ e)
      (hfull : 2 ^ 52 ≤ m ∨ e = -1074) : Rounded (.finite s m e hm) (finiteValue s m e)

theorem finiteValue_eq (s : Sign) (m : ℕ) (e : ℤ) :
    finiteValue s m e = (s.apply 1 : ℤ) * (m * 2 ^ e : ℝ) := by
  cases s <;> simp [finiteValue, Sign.apply]

/-- A significand that fits is not shifted. -/
theorem shiftToTargetExponent_of_lt {m : ℕ} {e : ℤ} (hm : m < 2 ^ 53) (he : -1074 ≤ e) :
    shiftToTargetExponent Format.binary64 m e .exact = (⟨m, false, false⟩, e) := by
  have hlog : m.log2 ≤ 52 := by
    rcases Nat.eq_zero_or_pos m with rfl | hpos
    · simp
    · have := (Nat.log2_lt hpos.ne').mpr hm
      omega
  have hshift : (Format.binary64.targetExponent (totalExponent m e) - e).toNat = 0 := by
    rw [targetExponent_eq, totalExponent]
    omega
  simp only [shiftToTargetExponent, shiftToExponent, hshift]
  rw [Int.ofNat_zero, add_zero]
  rfl

/-- A significand that rounding made too long by one bit is shifted once. -/
theorem shiftToTargetExponent_two_pow {e : ℤ} (he : -1074 ≤ e) :
    shiftToTargetExponent Format.binary64 (2 ^ 53) e .exact = (⟨2 ^ 52, false, false⟩, e + 1) := by
  have hshift : (Format.binary64.targetExponent (totalExponent (2 ^ 53) e) - e).toNat = 1 := by
    rw [targetExponent_eq, totalExponent, Nat.log2_two_pow]
    omega
  simp only [shiftToTargetExponent, shiftToExponent, hshift]
  rfl

/-- The rounded significand fits, or is the least that does not, and it is full unless the exponent is
as small as can be. -/
theorem halfEven_div_place_bounds {x : ℝ} (hx : 0 < x) :
    halfEven (x / 2 ^ place x) ≤ 2 ^ 53 ∧
      (2 ^ 52 ≤ halfEven (x / 2 ^ place x) ∨ place x = -1074) := by
  have hpow : (0 : ℝ) < 2 ^ place x := by positivity
  have hhalf := abs_le.mp (abs_halfEven_sub_le_half (x / 2 ^ place x))
  constructor
  · have hlt : x / 2 ^ place x < 2 ^ 53 := by
      rw [div_lt_iff₀ hpow, ← zpow_natCast, ← zpow_add₀ two_ne_zero]
      have := lt_zpow_place (x := x)
      rwa [add_comm] at this
    have : (halfEven (x / 2 ^ place x) : ℝ) < 2 ^ 53 + 1 := by linarith
    have : halfEven (x / 2 ^ place x) < 2 ^ 53 + 1 := by exact_mod_cast this
    omega
  · rcases (le_max_right (Int.log 2 x - 52) (-1074)).eq_or_lt with h | h
    · exact .inr h.symm
    · left
      have hge : (2 : ℝ) ^ 52 ≤ x / 2 ^ place x := by
        rw [le_div_iff₀ hpow, ← zpow_natCast, ← zpow_add₀ two_ne_zero]
        have := zpow_place_le hx h
        rwa [add_comm] at this
      have : (2 : ℝ) ^ 52 - 1 < halfEven (x / 2 ^ place x) := by linarith
      have : (2 : ℤ) ^ 52 - 1 < halfEven (x / 2 ^ place x) := by exact_mod_cast this
      omega

/-- The second shift makes the rounded significand fit again. -/
theorem rounded_of_significand (s : Sign) {n : ℕ} {e : ℤ} (hn : n ≤ 2 ^ 53) (he : -1074 ≤ e)
    (hfull : 2 ^ 52 ≤ n ∨ e = -1074) :
    let shifted := shiftToTargetExponent Format.binary64 n e .exact
    Rounded (if h : shifted.1.mantissa = 0 then .zero s
      else .finite s shifted.1.mantissa shifted.2 (Nat.pos_of_ne_zero h)) (finiteValue s n e) := by
  intro shifted
  rcases hn.lt_or_eq with hlt | rfl
  · have hshift : shifted = (⟨n, false, false⟩, e) := shiftToTargetExponent_of_lt hlt he
    rw [hshift]
    dsimp only
    split_ifs with h0
    · subst h0
      simpa [finiteValue_eq] using Rounded.zero s
    · exact .finite s n e (Nat.pos_of_ne_zero h0) hlt he hfull
  · have hshift : shifted = (⟨2 ^ 52, false, false⟩, e + 1) := shiftToTargetExponent_two_pow he
    have hvalue : finiteValue s (2 ^ 53) e = finiteValue s (2 ^ 52) (e + 1) := by
      rw [finiteValue_eq, finiteValue_eq, zpow_add_one₀ two_ne_zero]
      push_cast
      ring
    rw [hshift, hvalue]
    dsimp only
    rw [dif_neg (by norm_num)]
    exact .finite s (2 ^ 52) (e + 1) (by norm_num) (by norm_num) (by omega) (.inl le_rfl)

/-- A number is rounded to the nearest if its digits are given up to the exponent with which it is
written. -/
theorem roundWithAccuracy_of_place (s : Sign) {m : ℕ} {e : ℤ} {acc : Accuracy} {x : ℝ} (hx : 0 < x)
    (h : Approximates m acc (x / 2 ^ e)) (he : e ≤ place x)
    (hplace : Format.binary64.targetExponent (totalExponent m e) = place x) :
    Rounded (roundWithAccuracy Format.binary64 s m e acc) ((s.apply 1 : ℤ) * roundMagnitude x) := by
  obtain ⟨em, hfirst, hem⟩ : ∃ em, shiftToTargetExponent Format.binary64 m e acc = (em, place x) ∧
      Describes em (x / 2 ^ place x) := by
    have hscale : x / 2 ^ e / 2 ^ (place x - e).toNat = x / 2 ^ place x := by
      rw [div_div, ← zpow_natCast, ← zpow_add₀ two_ne_zero]
      congr 2
      omega
    refine ⟨_, ?_, hscale ▸ h.shiftRight (place x - e).toNat⟩
    simp only [shiftToTargetExponent, shiftToExponent, hplace]
    congr 1
    omega
  obtain ⟨hn, hfull⟩ := halfEven_div_place_bounds hx
  rw [← hem.roundedMantissa] at hn hfull
  have hvalue : (s.apply 1 : ℤ) * roundMagnitude x = finiteValue s em.roundedMantissa (place x) := by
    rw [finiteValue_eq, roundMagnitude, ← hem.roundedMantissa]
    norm_cast
  rw [hvalue]
  have := rounded_of_significand s (n := em.roundedMantissa) (e := place x) (by exact_mod_cast hn)
    (le_max_right _ _) (by exact_mod_cast hfull)
  unfold roundWithAccuracy
  rw [hfirst]
  exact this

/-- A number is rounded to the nearest if the given digits are its leading ones and go far enough. -/
theorem roundWithAccuracy_spec (s : Sign) {m : ℕ} {e : ℤ} {acc : Accuracy} {x : ℝ} (hm : 0 < m)
    (h : Approximates m acc (x / 2 ^ e)) (he : e ≤ place x) :
    Rounded (roundWithAccuracy Format.binary64 s m e acc) ((s.apply 1 : ℤ) * roundMagnitude x) := by
  have hx : 0 < x := by
    have : (0 : ℝ) < x / 2 ^ e := lt_of_lt_of_le (by exact_mod_cast hm) h.bounds.1
    exact (div_pos_iff_of_pos_right (by positivity)).mp this
  exact roundWithAccuracy_of_place s hx h he (targetExponent_eq_place hm h)

/-- A number of which all digits are known is rounded to the nearest. -/
theorem round_spec (s : Sign) {m : ℕ} {e : ℤ} (hm : 0 < m) :
    Rounded (UnpackedFloat.round Format.binary64 s m e)
      ((s.apply 1 : ℤ) * roundMagnitude (m * 2 ^ e)) := by
  set x : ℝ := m * 2 ^ e with hx
  have hpow : ∀ k : ℤ, (2 : ℝ) ^ k ≠ 0 := fun k => by positivity
  have hplace : Format.binary64.targetExponent (totalExponent m e) = place x := by
    have happ : Approximates m .exact (x / 2 ^ e) := by
      rw [hx, mul_div_cancel_right₀ _ (hpow e)]
      exact approximates_exact m
    exact targetExponent_eq_place hm happ
  set k := (e - place x).toNat with hk
  have hdecrease : decreaseExponent m e (Format.binary64.targetExponent (totalExponent m e)) =
      (m * 2 ^ k, e - k) := by
    rw [hplace, decreaseExponent, Nat.shiftLeft_eq]
  have hvalue : x / 2 ^ (e - k) = ((m * 2 ^ k : ℕ) : ℝ) := by
    rw [hx, zpow_sub₀ two_ne_zero, zpow_natCast]
    field_simp [hpow e]
    push_cast
    ring
  unfold UnpackedFloat.round
  dsimp only
  rw [hdecrease]
  refine roundWithAccuracy_spec s (by positivity) ?_ (by omega)
  rw [hvalue]
  exact approximates_exact _

/-- An integer with an exponent is rounded to the nearest. -/
theorem normalize_spec (m e : ℤ) (s : Sign) :
    Rounded (normalize Format.binary64 m e s) (round (m * 2 ^ e)) := by
  have hpow : (0 : ℝ) < 2 ^ e := by positivity
  unfold UnpackedFloat.normalize
  rcases lt_trichotomy m 0 with h | rfl | h
  · rw [compare_lt_iff_lt.mpr h]
    have hneg : (m : ℝ) * 2 ^ e < 0 := mul_neg_of_neg_of_pos (by exact_mod_cast h) hpow
    have := round_spec .negative (m := (-m).toNat) (e := e) (by omega)
    have hcast : (((-m).toNat : ℕ) : ℝ) = -m := by
      have : (((-m).toNat : ℕ) : ℤ) = -m := by omega
      exact_mod_cast this
    rw [hcast] at this
    simpa [round, if_pos hneg, Sign.apply] using this
  · simpa [round_zero] using Rounded.zero s
  · rw [compare_gt_iff_gt.mpr h]
    have hpos : ¬ (m : ℝ) * 2 ^ e < 0 := not_lt.mpr (mul_pos (by exact_mod_cast h) hpow).le
    have := round_spec .positive (m := m.toNat) (e := e) (by omega)
    have hcast : ((m.toNat : ℕ) : ℝ) = m := by
      have : ((m.toNat : ℕ) : ℤ) = m := by omega
      exact_mod_cast this
    rw [hcast] at this
    simpa [round, if_neg hpos, Sign.apply] using this

end RhythmChart.Binary64
