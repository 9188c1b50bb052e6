import RhythmChart.Number.Binary64
import RhythmChart.Proofs.Binary64.Arithmetic

/-! # The laws of times

What a program that adds, subtracts and compares times may rely on.

Main statements.

* `lt_sub_of_le` and `sub_le_of_le`: a bound on a difference survives a step of one term the right
  way;
* `add_le_of_lt_sub`: a bound on a difference bounds a sum;
* `le_add_of_nonneg` and `add_le_add_of_isNumber`: sums keep the order. -/

namespace RhythmChart.Binary64

/-! ### Zero and floors -/

theorem isNumber_zero : IsNumber 0.0 := by rfl

theorem value_zero : value 0.0 = 0 := by rfl

theorem zero_le_iff (x : Float) : 0.0 ≤ x ↔ IsNumber x ∧ 0 ≤ value x := by
  rw [le_iff, value_zero, and_iff_right isNumber_zero]

theorem nearest_value (x : Float) : nearest (value x) = value x := (canonical_toModel x).nearest_eq

theorem le_self {x : Float} (h : IsNumber x) : x ≤ x := (le_iff x x).mpr ⟨h, h, le_rfl⟩

theorem le_of_le_of_le {x y z : Float} (h : x ≤ y) (h' : y ≤ z) : x ≤ z := by
  obtain ⟨hx, -, hv⟩ := (le_iff x y).mp h
  obtain ⟨-, hz, hv'⟩ := (le_iff y z).mp h'
  exact (le_iff x z).mpr ⟨hx, hz, hv.trans hv'⟩

/-- Of two numbers one is not above the other. -/
theorem le_of_not_lt {x y : Float} (hx : IsNumber x) (hy : IsNumber y) (h : ¬ x < y) : y ≤ x :=
  (le_iff y x).mpr ⟨hy, hx, not_lt.mp fun hlt => h ((lt_iff x y).mpr ⟨hx, hy, hlt⟩)⟩

/-- A number that is not at most another is above it. -/
theorem lt_of_not_le {x y : Float} (hx : IsNumber x) (hy : IsNumber y) (h : ¬ x ≤ y) : y < x :=
  (lt_iff y x).mpr ⟨hy, hx, not_le.mp fun hle => h ((le_iff x y).mpr ⟨hx, hy, hle⟩)⟩

theorem le_of_lt {x y : Float} (h : x < y) : x ≤ y := by
  obtain ⟨hx, hy, hlt⟩ := (lt_iff x y).mp h
  exact (le_iff x y).mpr ⟨hx, hy, hlt.le⟩

theorem lt_of_lt_of_le {x y z : Float} (h : x < y) (h' : y ≤ z) : x < z := by
  obtain ⟨hx, -, hlt⟩ := (lt_iff x y).mp h
  obtain ⟨-, hz, hle⟩ := (le_iff y z).mp h'
  exact (lt_iff x z).mpr ⟨hx, hz, hlt.trans_le hle⟩

theorem lt_of_le_of_lt {x y z : Float} (h : x ≤ y) (h' : y < z) : x < z := by
  obtain ⟨hx, -, hle⟩ := (le_iff x y).mp h
  obtain ⟨-, hz, hlt⟩ := (lt_iff y z).mp h'
  exact (lt_iff x z).mpr ⟨hx, hz, hle.trans_lt hlt⟩

theorem not_bot_of_zero_le {x : Float} (h : 0.0 ≤ x) : value x ≠ ⊥ :=
  ne_bot_of_gt (EReal.bot_lt_zero.trans_le ((zero_le_iff x).mp h).2)

/-- A finite float is a number. -/
theorem isNumber_of_isFinite {x : Float} (h : x.isFinite = true) : IsNumber x := by
  have hn : ∀ u : Float.Model.UnpackedFloat, u.isFinite = true → u.isNaN = false := by
    intro u hu
    cases u <;> first | rfl | cases hu
  exact hn x.toModel.unpack h

/-- The value of a finite float is a real number. -/
theorem exists_coe_of_isFinite {x : Float} (h : x.isFinite = true) : ∃ r : ℝ, value x = r := by
  have hn : ∀ u : Float.Model.UnpackedFloat, u.isFinite = true →
      ∃ r : ℝ, unpackedValue u = r := by
    intro u hu
    cases u with
    | notANumber => cases hu
    | infinity s => cases hu
    | zero s => exact ⟨0, rfl⟩
    | finite s m e => exact ⟨_, rfl⟩
  exact hn x.toModel.unpack h

theorem not_bot_of_isFinite {x : Float} (h : x.isFinite = true) : value x ≠ ⊥ := by
  obtain ⟨r, hr⟩ := exists_coe_of_isFinite h
  rw [hr]
  exact EReal.coe_ne_bot r

theorem le_raise {floor x : Float} (h : IsNumber floor) : floor ≤ Number.raise floor x := by
  unfold Number.raise
  split_ifs with hlt
  · obtain ⟨hf, hx, hv⟩ := (lt_iff floor x).mp hlt
    exact (le_iff floor x).mpr ⟨hf, hx, hv.le⟩
  · exact le_self h

/-- A number is not above what it raises a floor to. -/
theorem le_raise_self {floor x : Float} (h : IsNumber floor) (hx : IsNumber x) :
    x ≤ Number.raise floor x := by
  unfold Number.raise
  split_ifs with hlt
  · exact le_self hx
  · exact le_of_not_lt h hx hlt

/-! ### Differences -/

/-- The difference of a finite float and a number is a number. -/
theorem isNumber_sub_of_isFinite {x y : Float} (hx : x.isFinite = true) (hy : IsNumber y) :
    IsNumber (x - y) := by
  obtain ⟨r, hr⟩ := exists_coe_of_isFinite hx
  refine (isNumber_sub_iff x y).mpr ⟨isNumber_of_isFinite hx, hy, ?_⟩
  rw [hr]
  exact ⟨fun h => EReal.coe_ne_top r h.1, fun h => EReal.coe_ne_bot r h.1⟩

/-- The opposite of a difference is the difference the other way round. -/
theorem value_sub_comm {x y : Float} (h : IsNumber (x - y)) :
    IsNumber (y - x) ∧ value (y - x) = -value (x - y) := by
  obtain ⟨hx, hy, hc⟩ := (isNumber_sub_iff x y).mp h
  have htop : ¬ (value x = ⊤ ∧ value y = ⊤) := fun ⟨h1, h2⟩ => hc.1 ⟨h1, by rw [h2]; rfl⟩
  have hbot : ¬ (value x = ⊥ ∧ value y = ⊥) := fun ⟨h1, h2⟩ => hc.2 ⟨h1, by rw [h2]; rfl⟩
  have hn : IsNumber (y - x) := by
    refine (isNumber_sub_iff y x).mpr ⟨hy, hx, fun ⟨h1, h2⟩ => ?_, fun ⟨h1, h2⟩ => ?_⟩
    · exact htop ⟨EReal.neg_eq_bot_iff.mp h2, h1⟩
    · exact hbot ⟨EReal.neg_eq_top_iff.mp h2, h1⟩
  refine ⟨hn, ?_⟩
  rw [value_sub h, value_sub hn, ← nearest_neg,
    EReal.neg_sub (not_and_or.mp hbot) (not_and_or.mp htop), add_comm, ← sub_eq_add_neg]

/-- A difference that is larger than a float stays so when less is subtracted. -/
theorem lt_sub_of_le {s s' t w : Float} (hs : s ≤ s') (h : w < t - s') : w < t - s := by
  obtain ⟨hsn, -, hv⟩ := (le_iff s s').mp hs
  obtain ⟨hw, hd, hlt⟩ := (lt_iff _ _).mp h
  obtain ⟨ht, hsn', hc⟩ := (isNumber_sub_iff t s').mp hd
  rw [value_sub hd] at hlt
  have hmono : value t - value s' ≤ value t - value s := EReal.sub_le_sub le_rfl hv
  have hn : IsNumber (t - s) := by
    refine (isNumber_sub_iff t s).mpr ⟨ht, hsn, ?_, ?_⟩
    · rintro ⟨h1, h2⟩
      rw [EReal.neg_eq_bot_iff] at h2
      have h3 : value s' = ⊤ := top_le_iff.mp (h2 ▸ hv)
      exact hc.1 ⟨h1, by rw [h3]; rfl⟩
    · rintro ⟨h1, -⟩
      rw [h1, EReal.bot_sub] at hlt
      exact not_lt_bot hlt
  exact (lt_iff _ _).mpr ⟨hw, hn, by rw [value_sub hn]; exact hlt.trans_le (nearest_mono hmono)⟩

/-- A difference that is not larger than a float stays so when it is taken from less. -/
theorem sub_le_of_le {s s' t w : Float} (hbot : value s ≠ ⊥) (hs : s ≤ s') (h : s' - t ≤ w) :
    s - t ≤ w := by
  obtain ⟨hsn, -, hv⟩ := (le_iff s s').mp hs
  obtain ⟨hd, hw, hle⟩ := (le_iff _ _).mp h
  obtain ⟨hsn', ht, hc⟩ := (isNumber_sub_iff s' t).mp hd
  rw [value_sub hd] at hle
  have hmono : value s - value t ≤ value s' - value t := EReal.sub_le_sub hv le_rfl
  have hn : IsNumber (s - t) := by
    refine (isNumber_sub_iff s t).mpr ⟨hsn, ht, ?_, fun h => hbot h.1⟩
    rintro ⟨h1, h2⟩
    exact hc.1 ⟨top_le_iff.mp (h1 ▸ hv), h2⟩
  exact (le_iff _ _).mpr ⟨hn, hw, by rw [value_sub hn]; exact (nearest_mono hmono).trans hle⟩

/-- What has a difference larger than some float is not the least float. -/
theorem not_bot_of_lt_sub {s t w : Float} (h : w < t - s) : value t ≠ ⊥ := by
  obtain ⟨-, hd, hlt⟩ := (lt_iff _ _).mp h
  rw [value_sub hd] at hlt
  intro hbot
  rw [hbot, EReal.bot_sub] at hlt
  exact not_lt_bot hlt

theorem not_lt_of_le {x y : Float} (h : x ≤ y) : ¬ y < x := fun hlt =>
  absurd ((le_iff x y).mp h).2.2 (not_le.mpr ((lt_iff y x).mp hlt).2.2)

/-- A bound on a difference bounds a sum. -/
theorem add_le_of_lt_sub {g r s : Float} (h : g < s - r) : r + g ≤ s := by
  obtain ⟨hg, hd, hlt⟩ := (lt_iff _ _).mp h
  obtain ⟨hs, hr, hc⟩ := (isNumber_sub_iff s r).mp hd
  rw [value_sub hd] at hlt
  have hn : IsNumber (r + g) := by
    refine (isNumber_add_iff r g).mpr ⟨hr, hg, ?_, ?_⟩
    · rintro ⟨h1, h2⟩
      rw [h1, sub_eq_add_neg, EReal.neg_top, EReal.add_bot, h2] at hlt
      exact not_lt_bot hlt
    · rintro ⟨-, h2⟩
      rw [h2] at hlt
      exact not_top_lt hlt
  refine (le_iff _ _).mpr ⟨hn, hs, ?_⟩
  have hsum : value r + value g ≤ value s := by
    by_contra hnot
    have hle : value s - value r ≤ value g := by
      apply EReal.sub_le_of_le_add
      rw [add_comm]
      exact (not_le.mp hnot).le
    have hnear := nearest_mono hle
    rw [nearest_value] at hnear
    exact absurd hlt (not_lt.mpr hnear)
  rw [value_add hn, ← nearest_value s]
  exact nearest_mono hsum

/-! ### Sums -/

theorem isNumber_add {x y : Float} (hx : IsNumber x) (hy : IsNumber y) (hxb : value x ≠ ⊥)
    (hyb : value y ≠ ⊥) : IsNumber (x + y) :=
  (isNumber_add_iff x y).mpr ⟨hx, hy, fun h => hyb h.2, fun h => hxb h.1⟩

/-- A sum with what is not negative is not below its first term, as long as it is a number. -/
theorem le_add_of_isNumber {x y : Float} (hn : IsNumber (x + y)) (hy : 0.0 ≤ y) : x ≤ x + y := by
  obtain ⟨-, hyv⟩ := (zero_le_iff y).mp hy
  refine (le_iff _ _).mpr ⟨((isNumber_add_iff x y).mp hn).1, hn, ?_⟩
  rw [value_add hn]
  conv_lhs => rw [← nearest_value x]
  exact nearest_mono (le_add_of_nonneg_right hyv)

/-- Adding what is not negative does not go down. -/
theorem le_add_of_nonneg {x y : Float} (hx : IsNumber x) (hxb : value x ≠ ⊥) (hy : 0.0 ≤ y) :
    x ≤ x + y :=
  le_add_of_isNumber (isNumber_add hx ((zero_le_iff y).mp hy).1 hxb (not_bot_of_zero_le hy)) hy

/-- Sums keep the order of their second terms that are not negative, as long as they are numbers. -/
theorem add_le_add_of_isNumber {x y y' : Float} (hn : IsNumber (x + y')) (hy : 0.0 ≤ y)
    (hle : y ≤ y') : x + y ≤ x + y' := by
  obtain ⟨hx, -, -, hinf⟩ := (isNumber_add_iff x y').mp hn
  obtain ⟨hyn, -, hv⟩ := (le_iff y y').mp hle
  have hn' : IsNumber (x + y) :=
    (isNumber_add_iff x y).mpr ⟨hx, hyn, fun h => not_bot_of_zero_le hy h.2,
      fun h => hinf ⟨h.1, top_le_iff.mp (h.2 ▸ hv)⟩⟩
  refine (le_iff _ _).mpr ⟨hn', hn, ?_⟩
  rw [value_add hn, value_add hn']
  exact nearest_mono (add_le_add le_rfl hv)

end RhythmChart.Binary64
