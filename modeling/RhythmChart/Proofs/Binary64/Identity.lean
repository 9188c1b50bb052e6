import RhythmChart.Proofs.Binary64.Bits
import RhythmChart.Proofs.Binary64.Margin

/-! # Floats of one value

A float that is a number is known by its value, except that there are two zeros.

Main statements.

* `eq_of_value`: floats of one value other than zero are the same;
* `add_ne_negativeZero`: a sum is not `-0` unless both terms are;
* `orderKey_le_of_le`: the total order follows the values, except at `-0`. -/

namespace RhythmChart.Binary64

open Float.Model Float.Model.UnpackedFloat

/-! ### Equal values -/

/-- A float is the packed form of what it unpacks to. -/
theorem packed_toModel (x : Float) : packed x.toModel.unpack = x := by
  obtain ⟨⟨⟨b⟩, hvalid⟩⟩ := x
  have hpack : UnpackedFloat.pack Format.binary64 (UnpackedFloat.unpack Format.binary64 b) = b := by
    rw [UnpackedFloat.pack_unpack]
    split_ifs with hnan
    · obtain ⟨hexponent, hmantissa⟩ := of_decide_eq_true hnan
      exact (hvalid.eq_packedNaN hexponent hmantissa).symm
    · rfl
  unfold packed
  simp only [Float.Model.unpack, Float.Model.pack, hpack]

/-- Canonical forms of one value other than zero are the same. -/
theorem Canonical.eq_of_value {u v : UnpackedFloat} (hu : Canonical u) (hv : Canonical v)
    (h : unpackedValue u = unpackedValue v) (hne : unpackedValue u ≠ 0) : u = v := by
  have hzero : unpackedValue .notANumber = 0 := rfl
  cases hu with
  | notANumber => exact absurd rfl hne
  | zero s => exact absurd rfl hne
  | infinity s =>
      cases hv with
      | notANumber => exact absurd h hne
      | zero s' => exact absurd h hne
      | infinity s' => cases s <;> cases s' <;> first | rfl | cases h
      | finite s' m' e' => cases s <;> cases h
  | finite s m e hm hbits he hmax hfull =>
      cases hv with
      | notANumber => exact absurd h hne
      | zero s' => exact absurd h hne
      | infinity s' => cases s' <;> cases h
      | finite s' m' e' hm' hbits' he' hmax' hfull' =>
          have hreal : finiteValue s m e = finiteValue s' m' e' := EReal.coe_injective h
          have hsign : s = s' := by
            have hpos := magnitude_pos hm e
            have hpos' := magnitude_pos hm' e'
            cases s <;> cases s' <;> first | rfl | skip
            all_goals
              rw [finiteValue_negative, finiteValue_positive] at hreal
              linarith
          have hmagnitude : (m : ℝ) * 2 ^ e = m' * 2 ^ e' := by
            rw [← abs_finiteValue s, ← abs_finiteValue s', hreal]
          have hcompare := compare_magnitude hbits hbits' he he' hfull hfull'
          rw [hmagnitude, compare_eq_iff_eq.mpr rfl, Ordering.then_eq_eq] at hcompare
          subst hsign
          exact finite_congr (compare_eq_iff_eq.mp hcompare.2) (compare_eq_iff_eq.mp hcompare.1)

/-- A number other than zero is known by its value. -/
theorem eq_of_value {x y : Float} (h : value x = value y) (hne : value x ≠ 0) : x = y := by
  rw [← packed_toModel x, ← packed_toModel y,
    (canonical_toModel x).eq_of_value (canonical_toModel y) h hne]

/-- There are two zeros. -/
theorem eq_zero_of_value {x : Float} (hx : IsNumber x) (h : value x = 0) : x = 0.0 ∨ x = -0.0 := by
  have hcanonical := canonical_toModel x
  have hx' : x.toModel.unpack.isNaN = false := hx
  rw [← packed_toModel x]
  rw [value] at h
  generalize x.toModel.unpack = u at hcanonical h hx'
  cases hcanonical with
  | notANumber => cases hx'
  | infinity s => cases s <;> cases h
  | zero s => 
      cases s
      · exact .inr (by rfl)
      · exact .inl (by rfl)
  | finite s m e hm =>
      have := magnitude_pos hm e
      rw [unpackedValue, EReal.coe_eq_zero, ← abs_eq_zero, abs_finiteValue] at h
      exact absurd h this.ne'

/-! ### Zeros of sums -/

/-- What is not zero is not rounded to zero, if it is a multiple of a least power of two. -/
theorem round_multiple_ne_zero {k e : ℤ} (hk : k ≠ 0) (he : -1074 ≤ e) :
    round (k * 2 ^ e) ≠ 0 := by
  have hpow : (0 : ℝ) < 2 ^ e := by positivity
  have hleast : Representable (2 ^ e) := ⟨1, e, by norm_num, he, by norm_num⟩
  have hpos : ∀ j : ℤ, 0 < j → (2 : ℝ) ^ e ≤ round (j * 2 ^ e) := by
    intro j hj
    have hone : (1 : ℝ) ≤ j := by exact_mod_cast hj
    exact le_round hleast (le_mul_of_one_le_left hpow.le hone)
  rcases hk.lt_or_gt with hneg | hpos'
  · have h := hpos (-k) (by omega)
    push_cast at h
    rw [neg_mul, round_neg] at h
    intro hzero
    rw [hzero] at h
    linarith
  · exact (hpow.trans_le (hpos k hpos')).ne'

theorem Canonical.add_ne_negativeZero {u v : UnpackedFloat} (hu : Canonical u) (hv : Canonical v)
    (hne : u ≠ .zero .negative) :
    (packed (UnpackedFloat.add Format.binary64 u v)).toModel.unpack ≠ .zero .negative := by
  have hkept : ∀ {w : UnpackedFloat}, Canonical w → w ≠ .zero .negative →
      (packed w).toModel.unpack ≠ .zero .negative := fun hw hwne => hw.toModel_packed.symm ▸ hwne
  cases hu with
  | notANumber => exact hkept .notANumber nofun
  | infinity s =>
      cases hv with
      | notANumber => exact hkept .notANumber nofun
      | infinity s' => cases s <;> cases s' <;> first
          | exact hkept (.infinity _) nofun
          | exact hkept .notANumber nofun
      | zero s' => exact hkept (.infinity s) nofun
      | finite s' m' e' => exact hkept (.infinity s) nofun
  | zero s =>
      cases s with
      | negative => exact absurd rfl hne
      | positive =>
          cases hv with
          | notANumber => exact hkept .notANumber nofun
          | infinity s' => exact hkept (.infinity s') nofun
          | zero s' => cases s' <;> exact hkept (.zero .positive) nofun
          | finite s' m' e' hm' hbits' he' hmax' hfull' =>
              exact hkept (.finite s' m' e' hm' hbits' he' hmax' hfull') nofun
  | finite s m e hm hbits he hmax hfull =>
      cases hv with
      | notANumber => exact hkept .notANumber nofun
      | infinity s' => exact hkept (.infinity s') nofun
      | zero s' => exact hkept (.finite s m e hm hbits he hmax hfull) nofun
      | finite s' m' e' hm' hbits' he' hmax' hfull' =>
          set k := s.apply (decreaseExponent m e (min e e')).1 +
            s'.apply (decreaseExponent m' e' (min e e')).1
          change (packed (normalize Format.binary64 k (min e e') .positive)).toModel.unpack ≠ _
          intro hzero
          -- An exact sum that is zero has no sign, and another one is not rounded to zero.
          by_cases hk : k = 0
          · rw [hk] at hzero
            exact hkept (.zero .positive) nofun hzero
          · have hvalue := (normalize_spec k (min e e') .positive).packed.2
            rw [value, hzero] at hvalue
            exact round_multiple_ne_zero hk (le_min he he') (clip_eq_coe hvalue.symm)

/-- A sum is not `-0` when its first term is not. -/
theorem add_ne_negativeZero {x : Float} (hx : x ≠ -0.0) (y : Float) : x + y ≠ -0.0 := by
  intro h
  refine (canonical_toModel x).add_ne_negativeZero (canonical_toModel y) (fun hz => hx ?_)
    (by rw [← add_eq, h]; rfl)
  rw [← packed_toModel x, hz]
  rfl

/-! ### Places in the total order -/

/-- The total order only tells apart, of floats with one value, the two zeros. -/
theorem orderKey_le_of_le {x y : Float} (h : x ≤ y) (hy : y ≠ -0.0) :
    Number.orderKey x ≤ Number.orderKey y := by
  obtain ⟨hxn, hyn, hle⟩ := (le_iff x y).mp h
  rcases hle.lt_or_eq with hlt | heq
  · exact (orderKey_lt_of_lt ((lt_iff x y).mpr ⟨hxn, hyn, hlt⟩)).le
  · by_cases hzero : value x = 0
    · obtain rfl := (eq_zero_of_value hyn (heq ▸ hzero)).resolve_right hy
      rcases eq_zero_of_value hxn hzero with rfl | rfl
      · exact le_rfl
      · decide +kernel
    · rw [eq_of_value heq hzero]

end RhythmChart.Binary64
