import RhythmChart.Number.Decimal
import RhythmChart.Proofs.Binary64.Product

/-! # Values of numerals

A numeral is read to the float whose value is nearest to it.

Main statements.

* `value_ofScientific`: that holds for moderate exponents;
* `value_numeral`: and with the cuts at very large and very small numbers for all. -/

namespace RhythmChart.Binary64

open Float.Model Float.Model.UnpackedFloat

/-! ### Moderate exponents -/

/-- Digits with an exponent are rounded to the nearest. -/
theorem rounded_ofScientific {m : ℕ} (hm : 0 < m) {e : ℤ} (hmax : e ≤ 2048)
    (hmin : -(2048 + m.log2 : ℤ) ≤ e) :
    Rounded (UnpackedFloat.ofScientific Format.binary64 m e) (roundMagnitude (m * 10 ^ e)) := by
  unfold UnpackedFloat.ofScientific
  rw [dif_neg hm.ne', if_neg (by norm_num; omega), if_neg (by norm_num; omega)]
  split_ifs with he
  · -- The digits are exact, and there are enough of them.
    have hpos : 0 < m <<< 53 * 10 ^ e.toNat := by
      rw [Nat.shiftLeft_eq]
      positivity
    have hvalue : ((m <<< 53 * 10 ^ e.toNat : ℕ) : ℝ) * 2 ^ (-53 : ℤ) = m * 10 ^ e := by
      have hten : (10 : ℝ) ^ e = 10 ^ e.toNat := by
        rw [← zpow_natCast, Int.toNat_of_nonneg he]
      rw [Nat.shiftLeft_eq, hten]
      push_cast
      norm_num
      ring
    have hplace : (-53 : ℤ) ≤ place (((m <<< 53 * 10 ^ e.toNat : ℕ) : ℝ) * 2 ^ (-53 : ℤ)) := by
      have hlong : 2 ^ 53 ≤ m <<< 53 * 10 ^ e.toNat := by
        rw [Nat.shiftLeft_eq, mul_right_comm]
        exact Nat.le_mul_of_pos_left _ (by positivity)
      have := le_log_magnitude hlong (-53)
      unfold place
      omega
    have hspec := rounded_product .positive hpos hplace
    rw [hvalue, Sign.apply, Int.cast_one, one_mul] at hspec
    exact hspec
  · have hspec := divCore_spec .positive hm (Nat.pow_pos (n := (-e).toNat) (by norm_num : 0 < 10)) 0 0
    have hvalue : ((m : ℝ) * 2 ^ (0 : ℤ)) / ((10 ^ (-e).toNat : ℕ) * 2 ^ (0 : ℤ)) = m * 10 ^ e := by
      have hten : (10 : ℝ) ^ (-e).toNat = (10 ^ e)⁻¹ := by
        rw [← zpow_natCast, Int.toNat_of_nonneg (by omega), zpow_neg]
      push_cast
      rw [hten]
      simp
    rw [hvalue, Sign.apply, Int.cast_one, one_mul] at hspec
    exact hspec

/-- Short digits are multiplied or divided by an exact power of ten. -/
theorem value_ofScientific_short {m : ℕ} (hm : 0 < m) {e : ℤ} (hshort : m < 2 ^ 53 ∧ e.natAbs ≤ 22) :
    IsNumber (Float.ofScientific m (decide (e < 0)) e.natAbs) ∧
      value (Float.ofScientific m (decide (e < 0)) e.natAbs) = nearest ((m * 10 ^ e : ℝ) : EReal) := by
  have hdigits := value_toFloat_of_lt hshort.1
  have hpower := value_power (k := e.natAbs) (Nat.lt_succ_of_le hshort.2)
  rw [Float.ofScientific, dif_pos hshort]
  dsimp only
  split_ifs with hneg
  · obtain ⟨hpos, hfinite⟩ := pos_of_value hpower (by positivity)
    have hten : (10 : ℝ) ^ e = (10 ^ e.natAbs)⁻¹ := by
      rw [← zpow_natCast, ← zpow_neg, Int.ofNat_natAbs_of_nonpos (of_decide_eq_true hneg).le, neg_neg]
    have hquotient := value_div (value_toFloat m.toUInt64).1 hpos hfinite
    rwa [hdigits, hpower, ← EReal.coe_div, div_eq_mul_inv, ← hten] at hquotient
  · have hten : (10 : ℝ) ^ e = 10 ^ e.natAbs := by
      rw [← zpow_natCast, Int.natAbs_of_nonneg (by simpa using hneg)]
    have hproduct := value_mul hdigits hpower (by exact_mod_cast hm) (by positivity)
    rwa [← hten] at hproduct

/-- Both ways in which decimals are converted give the nearest value. -/
theorem value_ofScientific {m : ℕ} (hm : 0 < m) {e : ℤ} (hmax : e ≤ 2048)
    (hmin : -(2048 + m.log2 : ℤ) ≤ e) :
    IsNumber (Float.ofScientific m (decide (e < 0)) e.natAbs) ∧
      value (Float.ofScientific m (decide (e < 0)) e.natAbs) = nearest ((m * 10 ^ e : ℝ) : EReal) := by
  by_cases hshort : m < 2 ^ 53 ∧ e.natAbs ≤ 22
  · exact value_ofScientific_short hm hshort
  · have hsigned : (if decide (e < 0) = true then Int.negOfNat e.natAbs else Int.ofNat e.natAbs) = e := by
      simp only [decide_eq_true_eq, Int.negOfNat_eq, Int.ofNat_eq_natCast]
      omega
    have hspec := (rounded_ofScientific hm hmax hmin).packed
    have hpos : (0 : ℝ) < m * 10 ^ e := by positivity
    have hround : round (m * 10 ^ e) = roundMagnitude (m * 10 ^ e) := if_neg hpos.le.not_gt
    rw [Float.ofScientific, dif_neg hshort]
    dsimp only
    rw [hsigned, nearest_coe, hround]
    exact hspec

theorem zero_le_toFloat (n : ℕ) : 0.0 ≤ n.toFloat := by
  rcases Nat.eq_zero_or_pos n with rfl | hn
  · decide
  · obtain ⟨hnumber, hvalue⟩ := value_ofScientific hn (e := 0) (by norm_num) (by omega)
    change value n.toFloat = _ at hvalue
    refine (zero_le_iff _).mpr ⟨hnumber, ?_⟩
    rw [hvalue, ← nearest_zero, zpow_zero, mul_one]
    exact nearest_mono (by exact_mod_cast n.cast_nonneg)

/-! ### Very large and very small numbers -/

/-- How powers of ten compare with powers of two. -/
theorem two_pow_le_ten_pow : (2 : ℝ) ^ 93 ≤ 10 ^ 28 := by norm_num

theorem overflow_le_ten_pow : overflow ≤ (10 : ℝ) ^ (310 : ℤ) := by
  unfold overflow
  calc (2 : ℝ) ^ ((1024 : ℕ) : ℤ) = (2 ^ 93) ^ 11 * 2 := by
        rw [zpow_natCast, ← pow_mul, ← pow_succ]
    _ ≤ (10 ^ 28) ^ 11 * 10 ^ 2 := by gcongr; exacts [two_pow_le_ten_pow, by norm_num]
    _ = 10 ^ ((310 : ℕ) : ℤ) := by rw [zpow_natCast, ← pow_mul, ← pow_add]

theorem ten_pow_le_half_least : (10 : ℝ) ^ (-330 : ℤ) ≤ 2 ^ (-1075 : ℤ) := by
  have hpow : (2 : ℝ) ^ 1075 ≤ 10 ^ 330 :=
    calc (2 : ℝ) ^ 1075 = (2 ^ 93) ^ 11 * 2 ^ 52 := by rw [← pow_mul, ← pow_add]
      _ ≤ (10 ^ 28) ^ 11 * 10 ^ 22 := by gcongr; exacts [two_pow_le_ten_pow, by norm_num]
      _ = 10 ^ 330 := by rw [← pow_mul, ← pow_add]
  calc (10 : ℝ) ^ (-((330 : ℕ) : ℤ)) = (10 ^ 330)⁻¹ := by rw [zpow_neg, zpow_natCast]
    _ ≤ (2 ^ 1075)⁻¹ := by gcongr
    _ = 2 ^ (-((1075 : ℕ) : ℤ)) := by rw [zpow_neg, zpow_natCast]

theorem nearest_of_overflow {r : ℝ} (h : overflow ≤ r) : nearest r = ⊤ := by
  have hrepresentable : Representable overflow := ⟨1, 1024, by norm_num, by norm_num, by simp [overflow]⟩
  rw [nearest_coe, clip_of_le (le_round hrepresentable h)]

/-- Less than half of the least positive value is rounded to zero. -/
theorem round_of_lt_half_least {r : ℝ} (h0 : 0 < r) (hlt : r < 2 ^ (-1075 : ℤ)) : round r = 0 := by
  have hlog : Int.log 2 r < -1075 :=
    (Int.lt_zpow_iff_log_lt (R := ℝ) (b := 2) one_lt_two h0).mp (by exact_mod_cast hlt)
  have hplace : place r = -1074 := by
    unfold place
    omega
  have hscaled : r / 2 ^ (-1074 : ℤ) < 1 / 2 := by
    have hhalf : (2 : ℝ) ^ (-1075 : ℤ) = 1 / 2 * 2 ^ (-1074 : ℤ) := by
      rw [show (-1075 : ℤ) = -1 + -1074 by norm_num, zpow_add₀ two_ne_zero]
      norm_num
    rwa [div_lt_iff₀ (by positivity), ← hhalf]
  have hpos : 0 < r / 2 ^ (-1074 : ℤ) := by positivity
  have hfract : Int.fract (r / 2 ^ (-1074 : ℤ)) = r / 2 ^ (-1074 : ℤ) :=
    Int.fract_eq_self.mpr ⟨hpos.le, by linarith⟩
  have hfloor : ⌊r / 2 ^ (-1074 : ℤ)⌋ = 0 := Int.floor_eq_zero_iff.mpr ⟨hpos.le, by linarith⟩
  rw [round, if_neg h0.le.not_gt, roundMagnitude, hplace, halfEven, hfract, if_pos hscaled, hfloor]
  simp

/-- The number of its digits bounds a number. -/
theorem naturalText_bounds {m : ℕ} (hm : 0 < m) :
    10 ^ ((Number.naturalText m).length - 1) ≤ m ∧ m < 10 ^ (Number.naturalText m).length := by
  unfold Number.naturalText
  have hlength : 0 < (Nat.toDigits 10 m).length := Nat.length_toDigits_pos
  constructor
  · rcases Nat.eq_zero_or_pos ((Nat.toDigits 10 m).length - 1) with h | h
    · rw [h]
      exact hm
    · by_contra hlt
      have := (Nat.length_toDigits_le_iff (by norm_num) h).mpr (not_le.mp hlt)
      omega
  · exact (Nat.length_toDigits_le_iff (by norm_num) hlength).mp le_rfl

theorem value_infinity : value Number.infinity = ⊤ := by rfl

/-- A numeral is read to the float of the nearest value. -/
theorem value_numeral (n : Number.Numeral) :
    IsNumber n.value ∧ value n.value = nearest ((n.mantissa * 10 ^ n.exponent : ℝ) : EReal) := by
  obtain ⟨m, e⟩ := n
  unfold Number.Numeral.value
  dsimp only
  split_ifs with hzero hlarge hsmall hneg
  · subst hzero
    refine ⟨isNumber_zero, ?_⟩
    rw [Nat.cast_zero, zero_mul, EReal.coe_zero, nearest_zero, value_zero]
  · -- At least `10 ^ 310`, which is past all floats.
    obtain ⟨hlow, -⟩ := naturalText_bounds (Nat.pos_of_ne_zero hzero)
    have hlength : 0 < (Number.naturalText m).length := Nat.length_toDigits_pos
    refine ⟨by rfl, ?_⟩
    rw [value_infinity, nearest_of_overflow]
    calc overflow ≤ (10 : ℝ) ^ (310 : ℤ) := overflow_le_ten_pow
      _ ≤ 10 ^ ((((Number.naturalText m).length - 1 : ℕ) : ℤ) + e) :=
          zpow_le_zpow_right₀ (by norm_num) (by omega)
      _ = (10 ^ ((Number.naturalText m).length - 1) : ℕ) * 10 ^ e := by
          rw [zpow_add₀ (by norm_num), zpow_natCast]
          norm_cast
      _ ≤ m * 10 ^ e := by gcongr
  · -- Less than `10 ^ (-330)`, which is not half of the least positive float.
    obtain ⟨-, hhigh⟩ := naturalText_bounds (Nat.pos_of_ne_zero hzero)
    refine ⟨isNumber_zero, ?_⟩
    have hm : (0 : ℝ) < m := by exact_mod_cast Nat.pos_of_ne_zero hzero
    have hlt : (m : ℝ) * 10 ^ e < 2 ^ (-1075 : ℤ) := by
      calc (m : ℝ) * 10 ^ e < (10 ^ (Number.naturalText m).length : ℕ) * 10 ^ e := by gcongr
        _ = 10 ^ (((Number.naturalText m).length : ℤ) + e) := by
            rw [zpow_add₀ (by norm_num), zpow_natCast]
            norm_cast
        _ ≤ 10 ^ (-330 : ℤ) := zpow_le_zpow_right₀ (by norm_num) (by omega)
        _ ≤ 2 ^ (-1075 : ℤ) := ten_pow_le_half_least
    rw [value_zero, nearest_coe, round_of_lt_half_least (by positivity) hlt,
      clip_of_abs_lt (by rw [abs_zero]; exact overflow_pos)]
    rfl
  all_goals
    have hm := Nat.pos_of_ne_zero hzero
    have hlog : (Number.naturalText m).length ≤ m.log2 + 1 := by
      refine (Nat.length_toDigits_le_iff (by norm_num) (by omega)).mpr ?_
      exact Nat.lt_log2_self.trans_le (Nat.pow_le_pow_left (by norm_num) _)
    have hspec := value_ofScientific hm (e := e) (by omega) (by omega)
    simpa [hneg] using hspec

end RhythmChart.Binary64
