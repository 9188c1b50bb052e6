import RhythmChart.Proofs.Binary64.Order

/-! # Planning margins

A program that plans for `now + enter + 0.5` has planned everything that is not farther than `enter`
from `now`, as long as `enter` is small enough for halves to count.

Main statements.

* `lt_sub_of_margin`: what lies past the margin is far;
* `lt_sub_of_lt_sub`: a difference that is larger than a float stays so when it is taken from more. -/

namespace RhythmChart.Binary64

/-! ### Rounding at the margin -/

/-- Halves count below `2 ^ 52`. -/
theorem exists_representable_next {e : ℝ} (h0 : 0 ≤ e) (hlt : e < 2 ^ 52) :
    ∃ z, Representable z ∧ e < z ∧ z ≤ e + 1 / 2 := by
  have hlo := Int.floor_le (2 * e)
  have hhi := Int.lt_floor_add_one (2 * e)
  have hfloor : 0 ≤ ⌊2 * e⌋ := Int.floor_nonneg.mpr (by linarith)
  have hbound : ⌊2 * e⌋ < 2 ^ 53 := Int.floor_lt.mpr (by push_cast; linarith)
  have hz := representable_mul_zpow (m := ⌊2 * e⌋ + 1) (e := -1)
    (by rw [abs_of_nonneg (by omega)]; omega) (by norm_num)
  have hhalf : ((⌊2 * e⌋ + 1 : ℤ) : ℝ) * 2 ^ (-1 : ℤ) = (⌊2 * e⌋ + 1) / 2 := by
    push_cast
    rw [zpow_neg_one, div_eq_mul_inv]
  rw [hhalf] at hz
  exact ⟨_, hz, by linarith, by linarith⟩

/-- A number whose rounding is not above `e` is hardly above it. -/
theorem le_add_of_round_le {e y : ℝ} (h0 : 0 ≤ e) (hlt : e < 2 ^ 52) (h : round y ≤ e) :
    y ≤ e + 1 / 4 := by
  obtain ⟨z, hz, hez, hze⟩ := exists_representable_next h0 hlt
  have hyz : y < z := by
    by_contra hge
    have := le_round hz (not_lt.mp hge)
    linarith
  have hnear := abs_round_sub_le (x := y) hz
  rw [abs_of_pos (by linarith : 0 < z - y)] at hnear
  have := (abs_le.mp hnear).1
  linarith

/-- A representable number past the rounded margin is farther than `e` from `n`. -/
theorem lt_round_sub {n e x : ℝ} (h0 : 0 ≤ e) (hlt : e < 2 ^ 52) (hx : Representable x)
    (h : round (round (n + e) + 1 / 2) < x) : e < round (x - n) := by
  by_contra hle
  have hclose := le_add_of_round_le h0 hlt (not_lt.mp hle)
  set s := round (n + e) with hs
  have hsx : s < x := by
    have : s ≤ round (s + 1 / 2) := le_round (representable_round _) (by linarith)
    linarith
  -- No representable number is nearer to the sum than its rounding, and `x` is within a quarter.
  have hnear := abs_round_sub_le (x := n + e) hx
  rw [← hs] at hnear
  have hquarter : n + e - 1 / 4 ≤ s := by
    rcases le_total x (n + e) with hxr | hxr
    · rw [abs_of_nonpos (by linarith), abs_of_nonpos (by linarith)] at hnear
      linarith
    · rw [abs_of_nonneg (by linarith : 0 ≤ x - (n + e))] at hnear
      have := (abs_le.mp hnear).1
      linarith
  have hround : x ≤ round (s + 1 / 2) := le_round hx (by linarith)
  linarith

/-! ### Floats at the margin -/

theorem value_half : value 0.5 = ((1 / 2 : ℝ) : EReal) := by
  have h : value 0.5 = ((finiteValue .positive (2 ^ 52) (-53) : ℝ) : EReal) := rfl
  rw [h, finiteValue_positive]
  norm_num

theorem value_two_pow : value 4503599627370496.0 = ((2 ^ 52 : ℝ) : EReal) := by
  have h : value 4503599627370496.0 = ((finiteValue .positive (2 ^ 52) 0 : ℝ) : EReal) := rfl
  rw [h, finiteValue_positive]
  norm_num

theorem clip_eq_coe {r x : ℝ} (h : clip r = x) : r = x := by
  unfold clip at h
  split_ifs at h with htop hbot
  · exact absurd h.symm (EReal.coe_ne_top x)
  · exact absurd h.symm (EReal.coe_ne_bot x)
  · exact_mod_cast h

/-- The value of a float is representable if it is not infinite. -/
theorem representable_of_value {x : Float} {r : ℝ} (h : value x = r) : Representable r := by
  have hnear := nearest_value x
  rw [h, nearest_coe] at hnear
  rw [← clip_eq_coe hnear]
  exact representable_round r

theorem le_of_clip_le {r e : ℝ} (h0 : 0 ≤ e) (he : e < overflow) (h : clip r ≤ e) : r ≤ e := by
  by_contra hlt
  have hclip := clip_mono (not_le.mp hlt).le
  rw [clip_of_abs_lt (by rwa [abs_of_nonneg h0])] at hclip
  exact hlt (clip_eq_coe (h.antisymm hclip)).le

theorem exists_coe_of_nonneg {a : EReal} (h0 : 0 ≤ a) (htop : a ≠ ⊤) : ∃ r : ℝ, 0 ≤ r ∧ a = r := by
  have hr := EReal.coe_toReal htop (ne_bot_of_gt (EReal.bot_lt_zero.trans_le h0))
  exact ⟨a.toReal, EReal.toReal_nonneg h0, hr.symm⟩

/-- The sum of two floats that are not negative is not negative. -/
theorem zero_le_add {x y : Float} (hx : 0.0 ≤ x) (hy : 0.0 ≤ y) : 0.0 ≤ x + y := by
  obtain ⟨hxn, hxv⟩ := (zero_le_iff x).mp hx
  obtain ⟨hyn, hyv⟩ := (zero_le_iff y).mp hy
  have hn := isNumber_add hxn hyn (not_bot_of_zero_le hx) (not_bot_of_zero_le hy)
  refine (zero_le_iff _).mpr ⟨hn, ?_⟩
  rw [value_add hn, ← nearest_zero]
  exact nearest_mono (add_nonneg hxv hyv)

/-- A sum below a bound has summands that are not infinite. -/
theorem exists_coe_of_add_lt {x y : Float} {b : EReal} (hx : 0.0 ≤ x) (hy : 0.0 ≤ y)
    (h : value (x + y) < b) : ∃ r s : ℝ, 0 ≤ r ∧ value x = r ∧ value y = s ∧
      value (x + y) = (round (r + s) : ℝ) := by
  obtain ⟨hxn, hxv⟩ := (zero_le_iff x).mp hx
  obtain ⟨hyn, hyv⟩ := (zero_le_iff y).mp hy
  obtain ⟨hn, h0⟩ := (zero_le_iff _).mp (zero_le_add hx hy)
  have hadd := value_add hn
  have hxtop : value x ≠ ⊤ := by
    intro htop
    rw [htop, EReal.top_add_of_ne_bot (not_bot_of_zero_le hy)] at hadd
    exact not_top_lt (hadd ▸ h)
  have hytop : value y ≠ ⊤ := by
    intro htop
    rw [htop, EReal.add_top_of_ne_bot (not_bot_of_zero_le hx)] at hadd
    exact not_top_lt (hadd ▸ h)
  obtain ⟨r, hr0, hr⟩ := exists_coe_of_nonneg hxv hxtop
  obtain ⟨s, -, hs⟩ := exists_coe_of_nonneg hyv hytop
  obtain ⟨q, -, hq⟩ := exists_coe_of_nonneg h0 (h.trans_le le_top).ne
  rw [hq, hr, hs, ← EReal.coe_add, nearest_coe] at hadd
  exact ⟨r, s, hr0, hr, hs, by rw [hq, clip_eq_coe hadd.symm]⟩

/-- What lies past the margin is far. -/
theorem lt_sub_of_margin {now enter x : Float} (hnow : 0.0 ≤ now) (henter : 0.0 ≤ enter)
    (hsmall : enter < 4503599627370496.0) (h : now + enter + 0.5 < x) : enter < x - now := by
  obtain ⟨-, hxn, hlt⟩ := (lt_iff _ _).mp h
  have hhalf : 0.0 ≤ (0.5 : Float) := by decide +kernel
  obtain ⟨s, half, -, hs, hhalfValue, hsum⟩ := exists_coe_of_add_lt (zero_le_add hnow henter) hhalf hlt
  obtain rfl : half = 1 / 2 := by exact_mod_cast hhalfValue.symm.trans value_half
  obtain ⟨n, e, -, hn, he, hround⟩ := exists_coe_of_add_lt hnow henter
    (hs.trans_lt (EReal.coe_lt_top s))
  obtain rfl : s = round (n + e) := by exact_mod_cast hs.symm.trans hround
  have he0 : 0 ≤ e := by
    have := ((zero_le_iff enter).mp henter).2
    rw [he] at this
    exact_mod_cast this
  have hesmall : e < 2 ^ 52 := by
    have := ((lt_iff _ _).mp hsmall).2.2
    rw [he, value_two_pow] at this
    exact_mod_cast this
  have hdiff : IsNumber (x - now) := by
    refine (isNumber_sub_iff x now).mpr ⟨hxn, ((zero_le_iff now).mp hnow).1, ?_⟩
    rw [hn, ← EReal.coe_neg]
    exact ⟨fun h => EReal.coe_ne_bot _ h.2, fun h => EReal.coe_ne_top _ h.2⟩
  refine (lt_iff _ _).mpr ⟨((zero_le_iff enter).mp henter).1, hdiff, ?_⟩
  rw [value_sub hdiff, hn, he]
  by_cases htop : value x = ⊤
  · rw [htop, EReal.top_sub_coe]
    exact EReal.coe_lt_top e
  · have hx0 : 0 ≤ value x := by
      have := ((zero_le_iff _).mp (zero_le_add (zero_le_add hnow henter) hhalf)).2
      exact this.trans hlt.le
    obtain ⟨r, -, hr⟩ := exists_coe_of_nonneg hx0 htop
    rw [hr, hsum] at hlt
    rw [hr, ← EReal.coe_sub, nearest_coe]
    have hover : e < overflow := hesmall.trans_le (by
      unfold overflow
      rw [← zpow_natCast]
      exact zpow_le_zpow_right₀ one_le_two (by norm_num))
    by_contra hle
    have := le_of_clip_le he0 hover (not_lt.mp hle)
    have := lt_round_sub he0 hesmall (representable_of_value hr) (by exact_mod_cast hlt)
    linarith

/-- A difference that is larger than a float stays so when it is taken from more. -/
theorem lt_sub_of_lt_sub {s s' t w : Float} (hs : s ≤ s') (h : w < s - t) : w < s' - t := by
  obtain ⟨-, hsn', hv⟩ := (le_iff s s').mp hs
  obtain ⟨hw, hd, hlt⟩ := (lt_iff _ _).mp h
  obtain ⟨-, ht, hc⟩ := (isNumber_sub_iff s t).mp hd
  rw [value_sub hd] at hlt
  have hmono : value s - value t ≤ value s' - value t := EReal.sub_le_sub hv le_rfl
  have hn : IsNumber (s' - t) := by
    refine (isNumber_sub_iff s' t).mpr ⟨hsn', ht, ?_, ?_⟩
    · rintro ⟨-, h2⟩
      rw [sub_eq_add_neg, h2, EReal.add_bot] at hlt
      exact not_lt_bot hlt
    · rintro ⟨h1, h2⟩
      exact hc.2 ⟨le_bot_iff.mp (h1 ▸ hv), h2⟩
  exact (lt_iff _ _).mpr ⟨hw, hn, by rw [value_sub hn]; exact hlt.trans_le (nearest_mono hmono)⟩

end RhythmChart.Binary64
