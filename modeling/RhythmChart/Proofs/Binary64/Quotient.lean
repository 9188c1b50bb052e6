import RhythmChart.Proofs.Binary64.Order

/-! # Quotients

The quotient of a number by a positive finite float has the value nearest to the quotient of the
values.

Main statements.

* `divCore_spec`: the digits of a quotient are rounded to the nearest;
* `value_div`: the value of a quotient;
* `div_nonneg` and `div_le_div`: quotients keep signs and order. -/

namespace RhythmChart.Binary64

open Float.Model Float.Model.UnpackedFloat

/-! ### Digits -/

/-- The remainder of a division tells where the quotient lies. -/
theorem approximates_div (n : ℕ) {d : ℕ} (hd : 0 < d) :
    Approximates (n / d) (accuracyOfFraction (n % d) d) ((n : ℝ) / d) := by
  have hdR : (0 : ℝ) < d := by exact_mod_cast hd
  have hn : (n : ℝ) = d * (n / d : ℕ) + (n % d : ℕ) := by exact_mod_cast (Nat.div_add_mod n d).symm
  have hlt : ((n % d : ℕ) : ℝ) < d := by exact_mod_cast Nat.mod_lt n hd
  have hquot : (n : ℝ) / d = (n / d : ℕ) + ((n % d : ℕ) : ℝ) / d := by
    rw [hn, add_div, mul_div_cancel_left₀ _ hdR.ne']
  rw [hquot]
  generalize n / d = q at *
  generalize hr : n % d = r at *
  unfold accuracyOfFraction
  split_ifs with h0
  · subst h0
    simp [Approximates, Describes, ExtendedMantissa.ofMantissaAndAccuracy]
  · have hpos : (0 : ℝ) < (r : ℝ) / d := by positivity
    have hone : (r : ℝ) / d < 1 := (div_lt_one hdR).mpr hlt
    rcases lt_trichotomy (2 * r) d with h | h | h
    · rw [compare_lt_iff_lt.mpr h]
      have hhalf : (r : ℝ) / d < 1 / 2 := by
        rw [div_lt_div_iff₀ hdR two_pos]
        have : (2 : ℝ) * r < d := by exact_mod_cast h
        linarith
      simp only [Approximates, Describes, ExtendedMantissa.ofMantissaAndAccuracy]
      constructor <;> linarith
    · rw [compare_eq_iff_eq.mpr h]
      have hhalf : (r : ℝ) / d = 1 / 2 := by
        rw [div_eq_div_iff hdR.ne' two_ne_zero]
        have : (2 : ℝ) * r = d := by exact_mod_cast h
        linarith
      simp only [Approximates, Describes, ExtendedMantissa.ofMantissaAndAccuracy]
      linarith
    · rw [compare_gt_iff_gt.mpr h]
      have hhalf : 1 / 2 < (r : ℝ) / d := by
        rw [div_lt_div_iff₀ two_pos hdR]
        have : (d : ℝ) < 2 * r := by exact_mod_cast h
        linarith
      simp only [Approximates, Describes, ExtendedMantissa.ofMantissaAndAccuracy]
      constructor <;> linarith

/-- The quotient of two magnitudes is at least the power of two that their leading digits give. -/
theorem zpow_le_div {m m' : ℕ} (hm : 0 < m) (hm' : 0 < m') (e e' : ℤ) :
    (2 : ℝ) ^ (totalExponent m e - totalExponent m' e' - 1) ≤ (m * 2 ^ e) / (m' * 2 ^ e') := by
  have hself : (2 : ℝ) ^ m.log2 ≤ m := by exact_mod_cast Nat.log2_self_le hm.ne'
  have hlt : (m' : ℝ) ≤ 2 ^ (m'.log2 + 1) := by exact_mod_cast (Nat.lt_log2_self (n := m')).le
  have hpos : (0 : ℝ) < m' * 2 ^ e' := magnitude_pos hm' e'
  rw [le_div_iff₀ hpos]
  calc (2 : ℝ) ^ (totalExponent m e - totalExponent m' e' - 1) * (m' * 2 ^ e')
      ≤ 2 ^ (totalExponent m e - totalExponent m' e' - 1) * (2 ^ (m'.log2 + 1) * 2 ^ e') := by gcongr
    _ = 2 ^ m.log2 * 2 ^ e := by
        simp only [← zpow_natCast, ← zpow_add₀ (two_ne_zero (α := ℝ))]
        congr 1
        simp only [totalExponent]
        push_cast
        omega
    _ ≤ m * 2 ^ e := by gcongr

/-- The digits of a quotient are rounded to the nearest. -/
theorem divCore_spec (s : Sign) {m m' : ℕ} (hm : 0 < m) (hm' : 0 < m') (e e' : ℤ) :
    let q := divCore Format.binary64 m e m' e'
    Rounded (roundWithAccuracy Format.binary64 s q.1 q.2.1 q.2.2)
      ((s.apply 1 : ℤ) * roundMagnitude ((m * 2 ^ e) / (m' * 2 ^ e'))) := by
  intro q
  set x : ℝ := (m * 2 ^ e) / (m' * 2 ^ e') with hx
  set total := totalExponent m e - totalExponent m' e' with htotal
  set t := min (e - e') (Format.binary64.targetExponent total) with ht
  set k := (e - e' - t).toNat with hk
  have hq : q = ((m * 2 ^ k) / m', t, accuracyOfFraction ((m * 2 ^ k) % m') m') := by
    simp only [q, divCore, Nat.shiftLeft_eq, ← htotal, ← ht, ← hk]
  have hpos : 0 < x := div_pos (magnitude_pos hm e) (magnitude_pos hm' e')
  have hpow : ∀ i : ℤ, (2 : ℝ) ^ i ≠ 0 := fun i => by positivity
  have hscale : x / 2 ^ t = ((m * 2 ^ k : ℕ) : ℝ) / m' := by
    have hke : (2 : ℝ) ^ k * 2 ^ t * 2 ^ e' = 2 ^ e := by
      rw [← zpow_natCast, ← zpow_add₀ two_ne_zero, ← zpow_add₀ two_ne_zero]
      congr 1
      omega
    have hm'R : (m' : ℝ) ≠ 0 := by positivity
    rw [hx]
    field_simp [hpow t, hpow e']
    rw [← hke]
    push_cast
    ring
  have happ : Approximates ((m * 2 ^ k) / m') (accuracyOfFraction ((m * 2 ^ k) % m') m')
      (x / 2 ^ t) := by
    rw [hscale]
    exact approximates_div _ hm'
  -- The leading digits of the quotient stand where its total exponent says, or one place lower.
  have hlog : total - 1 ≤ Int.log 2 x :=
    (Int.zpow_le_iff_le_log (R := ℝ) (b := 2) one_lt_two hpos).mp
      (by exact_mod_cast zpow_le_div hm hm' e e')
  have htarget : t ≤ max (total - 53) (-1074) := by
    rw [ht, targetExponent_eq]
    exact min_le_right _ _
  have hle : t ≤ place x := by
    unfold place
    omega
  rw [hq]
  rcases Nat.eq_zero_or_pos ((m * 2 ^ k) / m') with hzero | hdigits
  · -- No digit is left of the exponent, which then is the smallest or below it.
    refine roundWithAccuracy_of_place s hpos happ hle ?_
    have hlt : x < 2 ^ t := by
      have := happ.bounds.2
      rw [hzero, Nat.cast_zero, zero_add, div_lt_one (by positivity)] at this
      exact this
    have hlogt : Int.log 2 x < t :=
      (Int.lt_zpow_iff_log_lt (R := ℝ) (b := 2) one_lt_two hpos).mp (by exact_mod_cast hlt)
    dsimp only
    rw [hzero, targetExponent_eq, totalExponent, place, Nat.log2_zero]
    omega
  · exact roundWithAccuracy_spec s hdigits happ hle

/-! ### Quotients -/

theorem div_eq (x y : Float) :
    x / y = packed (UnpackedFloat.div Format.binary64 x.toModel.unpack y.toModel.unpack) := rfl

/-- A positive finite float has a positive significand. -/
theorem exists_unpack_of_pos {y : Float} (hy : 0.0 < y) (hfinite : y.isFinite = true) :
    ∃ m e, ∃ hm : 0 < m, y.toModel.unpack = .finite .positive m e hm := by
  obtain ⟨-, -, hv⟩ := (lt_iff _ _).mp hy
  rw [value_zero, value] at hv
  have hfinite' : y.toModel.unpack.isFinite = true := hfinite
  cases hu : y.toModel.unpack with
  | notANumber => rw [hu] at hfinite'; cases hfinite'
  | infinity s => rw [hu] at hfinite'; cases hfinite'
  | zero s => rw [hu] at hv; exact absurd hv (lt_irrefl _)
  | finite s m e hm =>
      cases s with
      | positive => exact ⟨m, e, hm, rfl⟩
      | negative =>
          rw [hu, unpackedValue, finiteValue_negative] at hv
          have := magnitude_pos hm e
          exact absurd hv (not_lt.mpr (by exact_mod_cast (neg_neg_of_pos this).le))

theorem div_positive (s : Sign) : s / .positive = s := by cases s <;> rfl

theorem sign_mul_roundMagnitude (s : Sign) {r : ℝ} (hr : 0 < r) :
    (s.apply 1 : ℤ) * roundMagnitude r = round ((s.apply 1 : ℤ) * r) := by
  cases s with
  | positive => simp [Sign.apply, round, not_lt.mpr hr.le]
  | negative => simp [Sign.apply, round, hr]

/-- The value of a quotient by a positive finite float. -/
theorem value_div {x y : Float} (hx : IsNumber x) (hy : 0.0 < y) (hfinite : y.isFinite = true) :
    IsNumber (x / y) ∧ value (x / y) = nearest (value x / value y) := by
  obtain ⟨m', e', hm', hv⟩ := exists_unpack_of_pos hy hfinite
  have hpos := magnitude_pos hm' e'
  have hvalue : value y = ((m' * 2 ^ e' : ℝ) : EReal) := by
    rw [value, hv, unpackedValue, finiteValue_positive]
  rw [hvalue, div_eq, hv]
  unfold value
  change x.toModel.unpack.isNaN = false at hx
  have hcanon := canonical_toModel x
  generalize x.toModel.unpack = u at hx hcanon ⊢
  cases u with
  | notANumber => cases hx
  | infinity s =>
      have hdiv : UnpackedFloat.div Format.binary64 (.infinity s) (.finite .positive m' e' hm') =
          .infinity s := congrArg UnpackedFloat.infinity (div_positive s)
      rw [hdiv]
      refine hcanon.packed_eq rfl ?_
      cases s with
      | positive => rw [unpackedValue, EReal.top_div_of_pos_ne_top (by exact_mod_cast hpos) (EReal.coe_ne_top _)]; rfl
      | negative => rw [unpackedValue, EReal.bot_div_of_pos_ne_top (by exact_mod_cast hpos) (EReal.coe_ne_top _)]; rfl
  | zero s =>
      have hdiv : UnpackedFloat.div Format.binary64 (.zero s) (.finite .positive m' e' hm') =
          .zero s := congrArg UnpackedFloat.zero (div_positive s)
      rw [hdiv]
      refine hcanon.packed_eq rfl ?_
      rw [unpackedValue, EReal.zero_div]
      exact nearest_zero
  | finite s m e hm =>
      have hspec := divCore_spec s hm hm' e e'
      rw [sign_mul_roundMagnitude s (div_pos (magnitude_pos hm e) hpos)] at hspec
      have hdiv : UnpackedFloat.div Format.binary64 (.finite s m e hm) (.finite .positive m' e' hm') =
          roundWithAccuracy Format.binary64 s (divCore Format.binary64 m e m' e').1
            (divCore Format.binary64 m e m' e').2.1 (divCore Format.binary64 m e m' e').2.2 := by
        simp only [UnpackedFloat.div, div_positive]
      rw [hdiv, unpackedValue, finiteValue_eq, ← EReal.coe_div, nearest_coe, mul_div_assoc]
      exact hspec.packed

/-- A quotient of what is not negative by what is positive and finite is not negative. -/
theorem div_nonneg {x y : Float} (hx : 0.0 ≤ x) (hy : 0.0 < y) (hfinite : y.isFinite = true) :
    0.0 ≤ x / y := by
  obtain ⟨hxn, hxv⟩ := (zero_le_iff x).mp hx
  obtain ⟨-, -, hyv⟩ := (lt_iff _ _).mp hy
  obtain ⟨hn, hv⟩ := value_div hxn hy hfinite
  refine (zero_le_iff _).mpr ⟨hn, ?_⟩
  rw [hv, ← nearest_zero]
  exact nearest_mono (EReal.div_nonneg hxv (value_zero ▸ hyv).le)

/-- Quotients keep the order of what is divided. -/
theorem div_le_div {x x' y : Float} (hx : x ≤ x') (hy : 0.0 < y) (hfinite : y.isFinite = true) :
    x / y ≤ x' / y := by
  obtain ⟨hxn, hxn', hv⟩ := (le_iff _ _).mp hx
  obtain ⟨-, -, hyv⟩ := (lt_iff _ _).mp hy
  obtain ⟨hn, hvalue⟩ := value_div hxn hy hfinite
  obtain ⟨hn', hvalue'⟩ := value_div hxn' hy hfinite
  refine (le_iff _ _).mpr ⟨hn, hn', ?_⟩
  rw [hvalue, hvalue']
  exact nearest_mono (EReal.div_le_div_right_of_nonneg (value_zero ▸ hyv).le hv)

end RhythmChart.Binary64
