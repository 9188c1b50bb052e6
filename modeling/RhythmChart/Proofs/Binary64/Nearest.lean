import Mathlib

/-! # Rounding to nearest

Binary64 has the numbers `m * 2 ^ e` with `|m| ≤ 2 ^ 53` and `-1074 ≤ e`, up to a largest one.  A real
number is rounded to the nearest of them, to the one with the even significand when it lies halfway.

Main statements.

* `abs_round_sub_le`: no representable number is nearer to a real number than its rounding;
* `round_mono`: rounding keeps the order;
* `round_of_representable`: a representable number is its own rounding;
* `round_neg`: rounding does not look at the sign. -/

namespace RhythmChart.Binary64

/-! ### Integers -/

/-- The nearest integer, the even one of two. -/
noncomputable def halfEven (q : ℝ) : ℤ :=
  if Int.fract q < 1 / 2 then ⌊q⌋
  else if Int.fract q = 1 / 2 then ⌊q⌋ + ⌊q⌋ % 2
  else ⌊q⌋ + 1

theorem abs_halfEven_sub_le_half (q : ℝ) : |(halfEven q : ℝ) - q| ≤ 1 / 2 := by
  have hq : q = ⌊q⌋ + Int.fract q := (Int.floor_add_fract q).symm
  have h0 := Int.fract_nonneg q
  have h1 := Int.fract_lt_one q
  unfold halfEven
  rw [abs_le]
  split_ifs with hlt heq
  · constructor <;> linarith
  · rcases Int.emod_two_eq_zero_or_one ⌊q⌋ with hm | hm <;> rw [hm] <;> push_cast <;>
      constructor <;> linarith
  · have : 1 / 2 < Int.fract q := lt_of_le_of_ne (not_lt.mp hlt) (Ne.symm heq)
    push_cast
    constructor <;> linarith

/-- No integer is nearer to a real number than the one it is rounded to. -/
theorem abs_halfEven_sub_le (q : ℝ) (k : ℤ) : |(halfEven q : ℝ) - q| ≤ |(k : ℝ) - q| := by
  by_contra hlt
  have hhalf := abs_halfEven_sub_le_half q
  have hdist : |((halfEven q - k : ℤ) : ℝ)| < 1 := by
    have hsum := abs_sub ((halfEven q : ℝ) - q) ((k : ℝ) - q)
    have heq : ((halfEven q - k : ℤ) : ℝ) = (halfEven q - q) - (k - q) := by push_cast; ring
    rw [heq]
    linarith
  have hzero : halfEven q - k = 0 := by
    rw [← Int.cast_abs] at hdist
    have : |halfEven q - k| < 1 := by exact_mod_cast hdist
    exact Int.abs_lt_one_iff.mp this
  have : halfEven q = k := by omega
  rw [this] at hlt
  exact hlt le_rfl

theorem halfEven_nonneg {q : ℝ} (h : 0 ≤ q) : 0 ≤ halfEven q := by
  have hfloor : 0 ≤ ⌊q⌋ := Int.floor_nonneg.mpr h
  unfold halfEven
  split_ifs <;> omega

/-! ### Representable numbers -/

/-- The numbers with a significand of at most 53 bits and an exponent that is not too small. -/
def Representable (z : ℝ) : Prop := ∃ m e : ℤ, |m| ≤ 2 ^ 53 ∧ -1074 ≤ e ∧ z = m * 2 ^ e

theorem Representable.neg {z : ℝ} (h : Representable z) : Representable (-z) := by
  obtain ⟨m, e, hm, he, rfl⟩ := h
  exact ⟨-m, e, by rwa [abs_neg], he, by push_cast; ring⟩

theorem representable_zero : Representable 0 := ⟨0, 0, by norm_num, by norm_num, by norm_num⟩

/-- Moderate multiples of `2 ^ e` are representable. -/
theorem representable_mul_zpow {m e : ℤ} (hm : |m| ≤ 2 ^ 53) (he : -1074 ≤ e) :
    Representable (m * 2 ^ e) := ⟨m, e, hm, he, rfl⟩

/-! ### Rounding -/

/-- The exponent with which a positive number is written. -/
noncomputable def place (x : ℝ) : ℤ := max (Int.log 2 x - 52) (-1074)

/-- The rounding of a number that is not negative. -/
noncomputable def roundMagnitude (x : ℝ) : ℝ := halfEven (x / 2 ^ place x) * 2 ^ place x

/-- The rounding of a number. -/
noncomputable def round (x : ℝ) : ℝ := if x < 0 then -roundMagnitude (-x) else roundMagnitude x

theorem roundMagnitude_zero : roundMagnitude 0 = 0 := by simp [roundMagnitude, halfEven]

theorem round_zero : round 0 = 0 := by simp [round, roundMagnitude_zero]

theorem round_neg (x : ℝ) : round (-x) = -round x := by
  unfold round
  rcases lt_trichotomy x 0 with h | rfl | h
  · rw [if_neg (by linarith), if_pos h, neg_neg]
  · simp [roundMagnitude_zero]
  · rw [if_pos (by linarith), if_neg (by linarith), neg_neg]

theorem lt_zpow_place {x : ℝ} : x < 2 ^ (place x + 53) := by
  have hlog : x < (2 : ℝ) ^ (Int.log 2 x + 1) := by
    have := Int.lt_zpow_succ_log_self (R := ℝ) (b := 2) one_lt_two x
    exact_mod_cast this
  have hexp : Int.log 2 x + 1 ≤ place x + 53 := by
    have := le_max_left (Int.log 2 x - 52) (-1074)
    unfold place
    omega
  exact hlog.trans_le (zpow_le_zpow_right₀ one_le_two hexp)

/-- Unless it is as small as can be, the exponent is chosen so that the significand is full. -/
theorem zpow_place_le {x : ℝ} (hx : 0 < x) (hp : -1074 < place x) :
    (2 : ℝ) ^ (place x + 52) ≤ x := by
  have hlog : (2 : ℝ) ^ Int.log 2 x ≤ x := by
    have := Int.zpow_log_le_self (R := ℝ) (b := 2) one_lt_two hx
    exact_mod_cast this
  have hexp : place x + 52 = Int.log 2 x := by
    unfold place at hp ⊢
    omega
  rwa [hexp]

/-- No representable number is nearer to a positive number than its rounding. -/
theorem abs_roundMagnitude_sub_le {x z : ℝ} (hx : 0 < x) (hz : Representable z) :
    |roundMagnitude x - x| ≤ |z - x| := by
  set p := place x with hp
  have hpow : (0 : ℝ) < 2 ^ p := by positivity
  -- On the grid of the rounding, the question is one about integers.
  have hgrid : ∀ k : ℤ, |roundMagnitude x - x| ≤ |k * 2 ^ p - x| := by
    intro k
    have hscale : ∀ n : ℤ, |(n : ℝ) * 2 ^ p - x| = |(n : ℝ) - x / 2 ^ p| * 2 ^ p := by
      intro n
      rw [← abs_of_pos hpow, ← abs_mul, abs_of_pos hpow]
      congr 1
      field_simp
    have hround : roundMagnitude x = (halfEven (x / 2 ^ p) : ℝ) * 2 ^ p := rfl
    rw [hround, hscale, hscale]
    exact mul_le_mul_of_nonneg_right (abs_halfEven_sub_le _ k) hpow.le
  obtain ⟨m, e, hm, he, rfl⟩ := hz
  by_cases hle : p ≤ e
  · have hmul : (m : ℝ) * 2 ^ e = ((m * 2 ^ (e - p).toNat : ℤ) : ℝ) * 2 ^ p := by
      push_cast
      rw [mul_assoc, ← zpow_natCast, ← zpow_add₀ two_ne_zero]
      congr 2
      omega
    rw [hmul]
    exact hgrid _
  · -- A finer number lies below the power of two with which the full significands begin.
    have hfine : (m : ℝ) * 2 ^ e ≤ 2 ^ (p + 52) := by
      have hm' : (m : ℝ) ≤ 2 ^ 53 := by exact_mod_cast (le_abs_self m).trans hm
      calc (m : ℝ) * 2 ^ e ≤ 2 ^ 53 * 2 ^ e := by gcongr
        _ = 2 ^ (53 + e) := by rw [zpow_add₀ two_ne_zero]; norm_num
        _ ≤ 2 ^ (p + 52) := zpow_le_zpow_right₀ one_le_two (by omega)
    have hfull : (2 : ℝ) ^ (p + 52) ≤ x := zpow_place_le hx (by omega)
    have hstep := hgrid (2 ^ 52)
    have hcast : ((2 ^ 52 : ℤ) : ℝ) * 2 ^ p = 2 ^ (p + 52) := by
      rw [add_comm, zpow_add₀ two_ne_zero]
      norm_num
    rw [hcast, abs_of_nonpos (sub_nonpos.mpr hfull)] at hstep
    rw [abs_of_nonpos (sub_nonpos.mpr (hfine.trans hfull))]
    linarith

theorem representable_roundMagnitude {x : ℝ} (hx : 0 < x) : Representable (roundMagnitude x) := by
  refine ⟨halfEven (x / 2 ^ place x), place x, ?_, le_max_right _ _, rfl⟩
  have hpow : (0 : ℝ) < 2 ^ place x := by positivity
  have hnonneg : 0 ≤ halfEven (x / 2 ^ place x) := halfEven_nonneg (by positivity)
  rw [abs_of_nonneg hnonneg]
  have hlt : x / 2 ^ place x < 2 ^ 53 := by
    rw [div_lt_iff₀ hpow, ← zpow_natCast, ← zpow_add₀ two_ne_zero]
    have := lt_zpow_place (x := x)
    rwa [add_comm] at this
  have hhalf := (abs_le.mp (abs_halfEven_sub_le_half (x / 2 ^ place x))).2
  have : (halfEven (x / 2 ^ place x) : ℝ) < 2 ^ 53 + 1 := by linarith
  have : halfEven (x / 2 ^ place x) < 2 ^ 53 + 1 := by exact_mod_cast this
  omega

theorem representable_round (x : ℝ) : Representable (round x) := by
  rcases lt_trichotomy x 0 with h | rfl | h
  · rw [round, if_pos h]
    exact (representable_roundMagnitude (by linarith)).neg
  · rw [round_zero]
    exact representable_zero
  · rw [round, if_neg (by linarith)]
    exact representable_roundMagnitude h

/-- No representable number is nearer to a number than its rounding. -/
theorem abs_round_sub_le {x z : ℝ} (hz : Representable z) : |round x - x| ≤ |z - x| := by
  rcases lt_trichotomy x 0 with h | rfl | h
  · have := abs_roundMagnitude_sub_le (x := -x) (by linarith) hz.neg
    rw [round, if_pos h]
    rw [show -z - -x = -(z - x) by ring, abs_neg] at this
    rwa [show -roundMagnitude (-x) - x = -(roundMagnitude (-x) - -x) by ring, abs_neg]
  · simp [round_zero]
  · rw [round, if_neg (by linarith)]
    exact abs_roundMagnitude_sub_le h hz

/-- A representable number is its own rounding. -/
theorem round_of_representable {z : ℝ} (hz : Representable z) : round z = z := by
  have h := abs_round_sub_le (x := z) hz
  rw [sub_self, abs_zero] at h
  exact sub_eq_zero.mp (abs_nonpos_iff.mp h)

/-- Rounding keeps the order. -/
theorem round_mono {x y : ℝ} (h : x ≤ y) : round x ≤ round y := by
  rcases h.eq_or_lt with rfl | hlt
  · exact le_rfl
  by_contra hgt
  rw [not_le] at hgt
  -- Each of the two numbers is on its own side of the middle of the roundings.
  have hx := abs_round_sub_le (x := x) (representable_round y)
  have hy := abs_round_sub_le (x := y) (representable_round x)
  rcases abs_cases (round x - x) with h1 | h1 <;> rcases abs_cases (round y - x) with h2 | h2 <;>
    rcases abs_cases (round y - y) with h3 | h3 <;> rcases abs_cases (round x - y) with h4 | h4 <;>
    linarith

/-- A representable number that is not above a number is not above its rounding. -/
theorem le_round {z x : ℝ} (hz : Representable z) (h : z ≤ x) : z ≤ round x := by
  have := round_mono h
  rwa [round_of_representable hz] at this

/-! ### Forms

What the forms in which results are computed say of real numbers. -/

/-- The significand is the whole part of `y`, and its two bits tell how what is cut off compares with
`0` and with one half. -/
def Describes (em : Float.Model.UnpackedFloat.ExtendedMantissa) (y : ℝ) : Prop :=
  match em.roundBit, em.stickyBit with
  | false, false => y = em.mantissa
  | false, true => (em.mantissa : ℝ) < y ∧ y < em.mantissa + 1 / 2
  | true, false => y = em.mantissa + 1 / 2
  | true, true => (em.mantissa : ℝ) + 1 / 2 < y ∧ y < em.mantissa + 1

/-- The number of a sign, a significand and an exponent. -/
noncomputable def finiteValue (s : Float.Model.UnpackedFloat.Sign) (m : ℕ) (e : ℤ) : ℝ :=
  (s.apply m : ℤ) * 2 ^ e

/-- The least power of two that is too large for a float. -/
noncomputable def overflow : ℝ := 2 ^ (1024 : ℤ)

theorem overflow_pos : 0 < overflow := by unfold overflow; positivity

end RhythmChart.Binary64
