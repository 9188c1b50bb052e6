import RhythmChart.Proofs.Binary64.Bits
import RhythmChart.Proofs.Binary64.Quotient

/-! # Products and powers of ten

What the products are that reading a decimal numeral takes.

Main statements.

* `value_mul`: the value of a product of positive floats;
* `mul_nonneg`: the sign of a product;
* `value_toFloat`: a count is converted to the nearest value;
* `value_power`: the table of powers of ten is exact. -/

namespace RhythmChart.Binary64

open Float.Model Float.Model.UnpackedFloat

/-! ### Real values -/

theorem nearest_of_representable {r : ℝ} (h : Representable r) (hlt : |r| < overflow) :
    nearest r = r := by
  rw [nearest_coe, round_of_representable h, clip_of_abs_lt hlt]

/-- A float whose value is a positive real number is positive and finite. -/
theorem pos_of_value {x : Float} {r : ℝ} (h : value x = r) (hr : 0 < r) :
    0.0 < x ∧ x.isFinite = true := by
  have hpos : 0 < value x := by
    rw [h]
    exact_mod_cast hr
  have hforms : ∀ u : UnpackedFloat, unpackedValue u = r → u.isNaN = false ∧ u.isFinite = true := by
    intro u hu
    cases u with
    | notANumber => exact absurd (EReal.coe_eq_zero.mp hu.symm) hr.ne'
    | infinity s => cases s <;> cases hu
    | zero s => exact absurd (EReal.coe_eq_zero.mp hu.symm) hr.ne'
    | finite s m e => exact ⟨rfl, rfl⟩
  obtain ⟨hnumber, hfinite⟩ := hforms x.toModel.unpack h
  exact ⟨(lt_iff _ _).mpr ⟨isNumber_zero, hnumber, hpos⟩, hfinite⟩

/-! ### Products -/

theorem mul_eq (x y : Float) :
    x * y = packed (UnpackedFloat.mul Format.binary64 x.toModel.unpack y.toModel.unpack) := rfl

/-- A number is not below the power of two at the place of its last digit. -/
theorem le_log_magnitude {m k : ℕ} (h : 2 ^ k ≤ m) (e : ℤ) : k + e ≤ Int.log 2 ((m : ℝ) * 2 ^ e) := by
  have hm : 0 < m := (Nat.two_pow_pos k).trans_le h
  refine (Int.zpow_le_iff_le_log (R := ℝ) (b := 2) one_lt_two (magnitude_pos hm e)).mp ?_
  have hpow : (2 : ℝ) ^ k ≤ m := by exact_mod_cast h
  calc ((2 : ℕ) : ℝ) ^ ((k : ℤ) + e) = 2 ^ k * 2 ^ e := by
        rw [Nat.cast_ofNat, zpow_add₀ two_ne_zero, zpow_natCast]
    _ ≤ m * 2 ^ e := by gcongr

/-- A product of which all digits are known is rounded to the nearest. -/
theorem rounded_product (s : Sign) {m : ℕ} (hm : 0 < m) {e : ℤ} (he : e ≤ place (m * 2 ^ e)) :
    Rounded (roundWithAccuracy Format.binary64 s m e .exact)
      ((s.apply 1 : ℤ) * roundMagnitude (m * 2 ^ e)) := by
  refine roundWithAccuracy_spec s hm ?_ he
  rw [mul_div_cancel_right₀ _ (by positivity)]
  exact approximates_exact m

/-- The value of a product of positive finite floats. -/
theorem value_mul {x y : Float} {r q : ℝ} (hx : value x = r) (hy : value y = q) (hr : 0 < r)
    (hq : 0 < q) : IsNumber (x * y) ∧ value (x * y) = nearest ((r * q : ℝ) : EReal) := by
  obtain ⟨m, e, hm, hu⟩ := exists_unpack_of_pos (pos_of_value hx hr).1 (pos_of_value hx hr).2
  obtain ⟨m', e', hm', hu'⟩ := exists_unpack_of_pos (pos_of_value hy hq).1 (pos_of_value hy hq).2
  have hcanonical := canonical_toModel x
  have hcanonical' := canonical_toModel y
  rw [mul_eq, hu, hu']
  rw [value, hu, unpackedValue, finiteValue_positive, EReal.coe_eq_coe_iff] at hx
  rw [value, hu', unpackedValue, finiteValue_positive, EReal.coe_eq_coe_iff] at hy
  rw [hu] at hcanonical
  rw [hu'] at hcanonical'
  obtain ⟨hfull, he⟩ : (2 ^ 52 ≤ m ∨ e = -1074) ∧ -1074 ≤ e := by
    cases hcanonical with
    | finite s m e hm hbits he hmax hfull => exact ⟨hfull, he⟩
  obtain ⟨hfull', he'⟩ : (2 ^ 52 ≤ m' ∨ e' = -1074) ∧ -1074 ≤ e' := by
    cases hcanonical' with
    | finite s m e hm hbits he hmax hfull => exact ⟨hfull, he⟩
  have hproduct : r * q = ((m * m' : ℕ) : ℝ) * 2 ^ (e + e') := by
    rw [← hx, ← hy, zpow_add₀ two_ne_zero]
    push_cast
    ring
  -- One full factor is enough for the product not to need more digits than it has.
  have hplace : e + e' ≤ place (((m * m' : ℕ) : ℝ) * 2 ^ (e + e')) := by
    rcases hfull, hfull' with ⟨hfull | rfl, hfull' | rfl⟩
    · have := le_log_magnitude (hfull.trans (Nat.le_mul_of_pos_right m hm')) (e + e')
      unfold place
      omega
    · have := le_log_magnitude (hfull.trans (Nat.le_mul_of_pos_right m hm')) (e + -1074)
      unfold place
      omega
    · have := le_log_magnitude (hfull'.trans (Nat.le_mul_of_pos_left m' hm)) (-1074 + e')
      unfold place
      omega
    · exact le_trans (by norm_num) (le_max_right _ _)
  have hspec := (rounded_product .positive (Nat.mul_pos hm hm') hplace).packed
  rw [sign_mul_roundMagnitude .positive (magnitude_pos (Nat.mul_pos hm hm') _), ← hproduct] at hspec
  have hmul : UnpackedFloat.mul Format.binary64 (.finite .positive m e hm)
      (.finite .positive m' e' hm') =
        roundWithAccuracy Format.binary64 .positive (m * m') (e + e') .exact := rfl
  rw [hmul, nearest_coe]
  simpa [Sign.apply] using hspec

/-- A product of what is positive and finite by what is not negative is not negative. -/
theorem mul_nonneg {x y : Float} (hx : 0.0 < x) (hfinite : x.isFinite = true) (hy : 0.0 ≤ y) :
    0.0 ≤ x * y := by
  obtain ⟨m, e, hm, hu⟩ := exists_unpack_of_pos hx hfinite
  obtain ⟨hn, hv⟩ := (zero_le_iff y).mp hy
  change y.toModel.unpack.isNaN = false at hn
  rw [value] at hv
  cases hu' : y.toModel.unpack with
  | notANumber =>
      rw [hu'] at hn
      cases hn
  | infinity s =>
      rw [hu'] at hv
      cases s with
      | negative => exact absurd hv (by decide)
      | positive =>
          have hmul : x * y = packed (.infinity .positive) := by rw [mul_eq, hu, hu']; rfl
          rw [hmul]
          decide
  | zero s =>
      have hmul : x * y = packed (.zero (.positive * s)) := by rw [mul_eq, hu, hu']; rfl
      rw [hmul]
      cases s <;> decide
  | finite s m' e' hm' =>
      have hpos := magnitude_pos hm e
      have hpos' := magnitude_pos hm' e'
      cases s with
      | negative =>
          rw [hu', unpackedValue, finiteValue_negative] at hv
          exact absurd hv (not_le.mpr (by exact_mod_cast neg_neg_of_pos hpos'))
      | positive =>
          obtain ⟨hnumber, hvalue⟩ := value_mul (x := x) (y := y)
            (by rw [value, hu, unpackedValue, finiteValue_positive])
            (by rw [value, hu', unpackedValue, finiteValue_positive]) hpos hpos'
          refine (zero_le_iff _).mpr ⟨hnumber, ?_⟩
          rw [hvalue, ← nearest_zero]
          exact nearest_mono (by exact_mod_cast (mul_pos hpos hpos').le)

/-! ### Counts -/

/-- A count is converted to the nearest value. -/
theorem value_toFloat (n : UInt64) :
    IsNumber n.toFloat ∧ value n.toFloat = nearest ((n.toNat : ℝ) : EReal) := by
  have hspec := (normalize_spec n.toNat 0 .positive).packed
  rw [zpow_zero, mul_one, Int.cast_natCast, ← nearest_coe] at hspec
  exact hspec

/-- A short count has its value as a float. -/
theorem value_toFloat_of_lt {m : ℕ} (hm : m < 2 ^ 53) : value m.toUInt64.toFloat = (m : ℝ) := by
  have hnat : m.toUInt64.toNat = m := Nat.mod_eq_of_lt (by norm_num; omega)
  have hrepresentable : Representable (m : ℝ) := ⟨m, 0, by simp; omega, by norm_num, by simp⟩
  have hlt : |(m : ℝ)| < overflow := by
    have hbound : (m : ℝ) * 2 ^ (0 : ℤ) < 2 ^ (1024 : ℤ) := magnitude_lt hm (by norm_num)
    rwa [zpow_zero, mul_one, ← Nat.abs_cast] at hbound
  rw [(value_toFloat _).2, hnat, nearest_of_representable hrepresentable hlt]

/-! ### Powers of ten -/

/-- The significands and exponents of the first powers of ten. -/
theorem pattern_power : ∀ i : Fin Float.exactlyRepresentablePowersOfTen.size,
    let n := (Number.orderKey (Float.exactlyRepresentablePowersOfTen[i])).toNat
    0 ≤ Number.orderKey (Float.exactlyRepresentablePowersOfTen[i]) ∧ n / 2 ^ 52 < 2047 ∧
      (Float.exactlyRepresentablePowersOfTen[i]).isFinite = true ∧ 0 ≤ patternExponent n + 52 ∧
      patternSignificand n * 2 ^ (patternExponent n + 52).toNat = 10 ^ i.val * 2 ^ 52 := by
  decide +kernel

theorem value_power {k : ℕ} (hk : k < Float.exactlyRepresentablePowersOfTen.size) :
    value (Float.exactlyRepresentablePowersOfTen[k]) = ((10 ^ k : ℝ) : EReal) := by
  obtain ⟨hkey, hfinite, hnumber, hexponent, hdigits⟩ := pattern_power ⟨k, hk⟩
  dsimp only [Fin.getElem_fin] at hkey hfinite hnumber hexponent hdigits
  rw [value_eq_keyValue (isNumber_of_isFinite hnumber), keyValue, if_neg (by omega), patternValue,
    if_pos hfinite, finiteValue_positive]
  generalize (Number.orderKey Float.exactlyRepresentablePowersOfTen[k]).toNat = n at *
  have hreal : (patternSignificand n : ℝ) * 2 ^ (patternExponent n + 52).toNat = 10 ^ k * 2 ^ 52 := by
    exact_mod_cast hdigits
  have hpow : (2 : ℝ) ^ (patternExponent n + 52).toNat = 2 ^ patternExponent n * 2 ^ 52 := by
    rw [← zpow_natCast, Int.toNat_of_nonneg hexponent, zpow_add₀ two_ne_zero]
    norm_num
  rw [hpow, ← mul_assoc] at hreal
  exact congrArg _ (mul_right_cancel₀ (by positivity) hreal)

end RhythmChart.Binary64
