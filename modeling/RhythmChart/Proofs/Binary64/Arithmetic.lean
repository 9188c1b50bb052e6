import RhythmChart.Proofs.Binary64.Value

/-! # Sums and differences

A sum of floats has the value nearest to the sum of the values, unless infinities cancel out.

Main statements.

* `value_add` and `value_sub`: the value of a sum or a difference that is a number;
* `isNumber_add_iff` and `isNumber_sub_iff`: when it is one;
* `lt_sub_of_le` and its companions: what the order of two floats says of their differences from a
  third. -/

namespace RhythmChart.Binary64

open Float.Model Float.Model.UnpackedFloat

/-! ### The nearest value -/

/-- The value nearest to an extended real number. -/
noncomputable def nearest : EReal → EReal
  | ⊥ => ⊥
  | ⊤ => ⊤
  | (r : ℝ) => clip (round r)

theorem nearest_coe (r : ℝ) : nearest r = clip (round r) := rfl

theorem nearest_mono {a b : EReal} (h : a ≤ b) : nearest a ≤ nearest b := by
  induction a with
  | bot => exact bot_le
  | top =>
      rw [top_le_iff.mp h]
  | coe r =>
      induction b with
      | bot => exact absurd (le_bot_iff.mp h) (EReal.coe_ne_bot r)
      | top => exact le_top
      | coe q => exact clip_mono (round_mono (by exact_mod_cast h))

theorem nearest_neg (a : EReal) : nearest (-a) = -nearest a := by
  induction a with
  | bot => rfl
  | top => rfl
  | coe r =>
      rw [← EReal.coe_neg, nearest_coe, round_neg, clip_neg]
      rfl

theorem nearest_zero : nearest 0 = 0 := by
  have h : nearest ((0 : ℝ) : EReal) = clip (round 0) := rfl
  rw [EReal.coe_zero, round_zero, clip_of_abs_lt (by rw [abs_zero]; exact overflow_pos)] at h
  exact h

theorem representable_finiteValue {m : ℕ} {e : ℤ} (s : Sign) (hbits : m < 2 ^ 53)
    (he : -1074 ≤ e) : Representable (finiteValue s m e) := by
  refine representable_mul_zpow ?_ he
  cases s <;> simp only [Sign.apply] <;> rw [abs_le] <;> omega

theorem abs_finiteValue (s : Sign) (m : ℕ) (e : ℤ) : |finiteValue s m e| = m * 2 ^ e := by
  have hnonneg : (0 : ℝ) ≤ m * 2 ^ e := by positivity
  cases s with
  | negative => rw [finiteValue_negative, abs_neg, abs_of_nonneg hnonneg]
  | positive => rw [finiteValue_positive, abs_of_nonneg hnonneg]

/-- Values of floats are their own nearest values. -/
theorem Canonical.nearest_eq {u : UnpackedFloat} (h : Canonical u) :
    nearest (unpackedValue u) = unpackedValue u := by
  cases h with
  | notANumber => exact nearest_zero
  | infinity s => cases s <;> rfl
  | zero s => exact nearest_zero
  | finite s m e hm hbits he hmax hfull =>
      have habs : |finiteValue s m e| < overflow := by
        rw [abs_finiteValue]
        exact magnitude_lt hbits (by omega)
      rw [unpackedValue, nearest_coe, round_of_representable (representable_finiteValue s hbits he),
        clip_of_abs_lt habs]

/-! ### Results -/

/-- The float of an unpacked result. -/
def packed (u : UnpackedFloat) : Float := .ofModel (.pack u)

theorem add_eq (x y : Float) :
    x + y = packed (UnpackedFloat.add Format.binary64 x.toModel.unpack y.toModel.unpack) := rfl

theorem sub_eq (x y : Float) :
    x - y = packed (UnpackedFloat.sub Format.binary64 x.toModel.unpack y.toModel.unpack) := rfl

theorem toModel_packed (u : UnpackedFloat) :
    (packed u).toModel.unpack =
      UnpackedFloat.unpack Format.binary64 (UnpackedFloat.pack Format.binary64 u) := rfl

theorem Canonical.toModel_packed {u : UnpackedFloat} (h : Canonical u) :
    (packed u).toModel.unpack = u := h.unpack_pack

/-- A rounded result is packed to a float of the same value, or to an infinity. -/
theorem Rounded.packed {u : UnpackedFloat} {r : ℝ} (h : Rounded u r) :
    IsNumber (packed u) ∧ value (packed u) = clip r := by
  cases h with
  | zero s =>
      have hc : Canonical (.zero s) := .zero s
      refine ⟨congrArg UnpackedFloat.isNaN hc.toModel_packed, ?_⟩
      rw [value, hc.toModel_packed, clip_of_abs_lt (by rw [abs_zero]; exact overflow_pos)]
      rfl
  | finite s m e hm hbits he hfull =>
      by_cases hmax : e ≤ 971
      · have hc : Canonical (.finite s m e hm) := .finite s m e hm hbits he hmax hfull
        have habs : |finiteValue s m e| < overflow := by
          rw [abs_finiteValue]
          exact magnitude_lt hbits (by omega)
        refine ⟨congrArg UnpackedFloat.isNaN hc.toModel_packed, ?_⟩
        rw [value, hc.toModel_packed, clip_of_abs_lt habs]
        rfl
      · have hinf : (Binary64.packed (.finite s m e hm)).toModel.unpack = .infinity s := by
          rw [Binary64.toModel_packed, pack_finite, if_pos (by omega), unpack_packedInfinity]
        have hle : overflow ≤ (m : ℝ) * 2 ^ e := le_magnitude (hfull.resolve_right (by omega)) (by omega)
        refine ⟨congrArg UnpackedFloat.isNaN hinf, ?_⟩
        rw [value, hinf]
        cases s with
        | negative => rw [finiteValue_negative, clip_of_le_neg (by linarith)]; rfl
        | positive => rw [finiteValue_positive, clip_of_le hle]; rfl

theorem Canonical.packed_spec {u : UnpackedFloat} (h : Canonical u) (hn : u.isNaN = false) :
    IsNumber (Binary64.packed u) ∧ value (Binary64.packed u) = unpackedValue u := by
  have hu := h.toModel_packed
  exact ⟨(congrArg UnpackedFloat.isNaN hu).trans hn, congrArg unpackedValue hu⟩

/-! ### Sums -/

/-- Two values are not opposite infinities. -/
def Compatible (a b : EReal) : Prop := ¬ (a = ⊤ ∧ b = ⊥) ∧ ¬ (a = ⊥ ∧ b = ⊤)

/-- The significands are added at the smaller exponent. -/
theorem finiteValue_add (s s' : Sign) (m m' : ℕ) (e e' : ℤ) :
    ((s.apply (decreaseExponent m e (min e e')).1 + s'.apply (decreaseExponent m' e' (min e e')).1 :
      ℤ) : ℝ) * 2 ^ min e e' = finiteValue s m e + finiteValue s' m' e' := by
  have hscale : ∀ (s : Sign) (m : ℕ) (e t : ℤ), t ≤ e →
      ((s.apply (decreaseExponent m e t).1 : ℤ) : ℝ) * 2 ^ t = finiteValue s m e := by
    intro s m e t ht
    have hpow : (2 : ℝ) ^ (e - t).toNat * 2 ^ t = 2 ^ e := by
      rw [← zpow_natCast, ← zpow_add₀ two_ne_zero]
      congr 1
      omega
    rw [decreaseExponent, Nat.shiftLeft_eq]
    cases s <;> simp only [finiteValue, Sign.apply] <;> push_cast <;> rw [← hpow] <;> ring
  push_cast
  rw [add_mul, hscale s m e _ (min_le_left e e'), hscale s' m' e' _ (min_le_right e e')]

theorem nearest_infinity_add (s : Sign) (r : ℝ) :
    nearest (unpackedValue (.infinity s) + r) = unpackedValue (.infinity s) := by
  cases s with
  | negative => rw [unpackedValue, EReal.bot_add]; rfl
  | positive => rw [unpackedValue, EReal.top_add_coe]; rfl

/-- A canonical result is packed to a float of the value that is expected of it. -/
theorem Canonical.packed_eq {u : UnpackedFloat} (h : Canonical u) (hn : u.isNaN = false) {a : EReal}
    (ha : nearest a = unpackedValue u) :
    IsNumber (Binary64.packed u) ∧ value (Binary64.packed u) = nearest a :=
  ha ▸ h.packed_spec hn

theorem Canonical.add_spec {u v : UnpackedFloat} (hu : Canonical u) (hv : Canonical v)
    (hun : u.isNaN = false) (hvn : v.isNaN = false)
    (h : Compatible (unpackedValue u) (unpackedValue v)) :
    IsNumber (Binary64.packed (UnpackedFloat.add Format.binary64 u v)) ∧
      value (Binary64.packed (UnpackedFloat.add Format.binary64 u v)) =
        nearest (unpackedValue u + unpackedValue v) := by
  have hzero : ∀ s, unpackedValue (.zero s) = 0 := fun s => rfl
  cases hu with
  | notANumber => cases hun
  | infinity s =>
      have hs : Canonical (.infinity s) := .infinity s
      cases hv with
      | notANumber => cases hvn
      | infinity s' =>
          cases s <;> cases s'
          · exact hs.packed_eq rfl rfl
          · exact absurd ⟨rfl, rfl⟩ h.2
          · exact absurd ⟨rfl, rfl⟩ h.1
          · exact hs.packed_eq rfl rfl
      | zero s' => exact hs.packed_eq rfl (nearest_infinity_add s 0)
      | finite s' m' e' => exact hs.packed_eq rfl (nearest_infinity_add s _)
  | zero s =>
      cases hv with
      | notANumber => cases hvn
      | infinity s' =>
          have hs' : Canonical (.infinity s') := .infinity s'
          refine hs'.packed_eq rfl ?_
          rw [add_comm]
          exact nearest_infinity_add s' 0
      | zero s' =>
          rw [hzero, hzero, add_zero]
          cases s <;> cases s' <;> exact (Canonical.zero _).packed_eq rfl nearest_zero
      | finite s' m' e' hm' hbits' he' hmax' hfull' =>
          have hv : Canonical (.finite s' m' e' hm') := .finite s' m' e' hm' hbits' he' hmax' hfull'
          rw [hzero, zero_add]
          exact hv.packed_eq rfl hv.nearest_eq
  | finite s m e hm hbits he hmax hfull =>
      have hu : Canonical (.finite s m e hm) := .finite s m e hm hbits he hmax hfull
      cases hv with
      | notANumber => cases hvn
      | infinity s' =>
          have hs' : Canonical (.infinity s') := .infinity s'
          refine hs'.packed_eq rfl ?_
          rw [add_comm]
          exact nearest_infinity_add s' _
      | zero s' =>
          rw [hzero, add_zero]
          exact hu.packed_eq rfl hu.nearest_eq
      | finite s' m' e' hm' hbits' he' hmax' hfull' =>
          have hr := normalize_spec (s.apply (decreaseExponent m e (min e e')).1 +
            s'.apply (decreaseExponent m' e' (min e e')).1) (min e e') .positive
          rw [finiteValue_add] at hr
          rw [unpackedValue, unpackedValue, ← EReal.coe_add, nearest_coe]
          exact hr.packed

theorem add_eq_notANumber {u v : UnpackedFloat}
    (h : u.isNaN = true ∨ v.isNaN = true ∨ ¬ Compatible (unpackedValue u) (unpackedValue v)) :
    UnpackedFloat.add Format.binary64 u v = .notANumber := by
  rcases h with h | h | h
  · cases u <;> first | rfl | cases h
  · cases v <;> first | (cases u <;> rfl) | cases h
  · rw [Compatible, not_and_or, not_not, not_not] at h
    cases u with
    | notANumber => rfl
    | infinity s =>
        cases v with
        | notANumber => rfl
        | infinity s' =>
            cases s <;> cases s' <;> first | rfl | simp [unpackedValue] at h
        | zero s' => simp [unpackedValue] at h
        | finite s' m' e' => simp [unpackedValue] at h
    | zero s => simp [unpackedValue] at h
    | finite s m e => simp [unpackedValue] at h

theorem Canonical.isNumber_packed_add_iff {u v : UnpackedFloat} (hu : Canonical u)
    (hv : Canonical v) : IsNumber (Binary64.packed (UnpackedFloat.add Format.binary64 u v)) ↔
      u.isNaN = false ∧ v.isNaN = false ∧ Compatible (unpackedValue u) (unpackedValue v) := by
  constructor
  · intro hn
    by_contra hnot
    have hadd : UnpackedFloat.add Format.binary64 u v = .notANumber := by
      apply add_eq_notANumber
      rw [← Bool.not_eq_false, ← Bool.not_eq_false]
      tauto
    rw [hadd] at hn
    exact Bool.noConfusion hn
  · rintro ⟨hun, hvn, h⟩
    exact (hu.add_spec hv hun hvn h).1

/-- A sum is a number exactly when the summands are, and are not opposite infinities. -/
theorem isNumber_add_iff (x y : Float) :
    IsNumber (x + y) ↔ IsNumber x ∧ IsNumber y ∧ Compatible (value x) (value y) :=
  (canonical_toModel x).isNumber_packed_add_iff (canonical_toModel y)

theorem value_add {x y : Float} (h : IsNumber (x + y)) :
    value (x + y) = nearest (value x + value y) := by
  obtain ⟨hx, hy, hc⟩ := (isNumber_add_iff x y).mp h
  exact ((canonical_toModel x).add_spec (canonical_toModel y) hx hy hc).2

/-! ### Differences -/

theorem unpackedValue_neg (u : UnpackedFloat) : unpackedValue u.neg = -unpackedValue u := by
  cases u with
  | notANumber => exact neg_zero.symm
  | infinity s => cases s <;> rfl
  | zero s => exact neg_zero.symm
  | finite s m e hm =>
      have hsign : ∀ s, finiteValue (-s) m e = -finiteValue s m e := by
        intro s
        cases s with
        | negative => rw [finiteValue_negative, neg_neg, ← finiteValue_positive]; rfl
        | positive => rw [finiteValue_positive, ← finiteValue_negative]; rfl
      rw [UnpackedFloat.neg, unpackedValue, unpackedValue, hsign, EReal.coe_neg]

theorem Canonical.neg {u : UnpackedFloat} (h : Canonical u) : Canonical u.neg := by
  cases h with
  | notANumber => exact .notANumber
  | infinity s => exact .infinity _
  | zero s => exact .zero _
  | finite s m e hm hbits he hmax hfull => exact .finite _ m e hm hbits he hmax hfull

theorem isNaN_neg (u : UnpackedFloat) : u.neg.isNaN = u.isNaN := by cases u <;> rfl

theorem value_neg (x : Float) : value (-x) = -value x := by
  have h := (canonical_toModel x).neg.toModel_packed
  exact (congrArg unpackedValue h).trans (unpackedValue_neg _)

/-- A difference is a sum with the opposite. -/
theorem unpacked_sub_eq_add (u v : UnpackedFloat) :
    UnpackedFloat.sub Format.binary64 u v = UnpackedFloat.add Format.binary64 u v.neg := by
  cases u with
  | notANumber => rfl
  | infinity s => cases v <;> rfl
  | zero s => cases v <;> rfl
  | finite s m e hm =>
      cases v with
      | notANumber => rfl
      | infinity s' => rfl
      | zero s' => rfl
      | finite s' m' e' hm' =>
          have hsign : ∀ n : ℤ, -s'.apply n = (-s').apply n := by
            intro n
            cases s' with
            | negative => exact neg_neg n
            | positive => rfl
          simp only [UnpackedFloat.sub, UnpackedFloat.add, UnpackedFloat.neg, sub_eq_add_neg, hsign]

/-- A difference is a number exactly when its terms are, and are not the same infinity. -/
theorem isNumber_sub_iff (x y : Float) :
    IsNumber (x - y) ↔ IsNumber x ∧ IsNumber y ∧ Compatible (value x) (-value y) := by
  have h := (canonical_toModel x).isNumber_packed_add_iff (canonical_toModel y).neg
  rwa [← unpacked_sub_eq_add, isNaN_neg, unpackedValue_neg] at h

theorem value_sub {x y : Float} (h : IsNumber (x - y)) :
    value (x - y) = nearest (value x - value y) := by
  obtain ⟨hx, hy, hc⟩ := (isNumber_sub_iff x y).mp h
  have hy' : y.toModel.unpack.neg.isNaN = false := (isNaN_neg _).trans hy
  have hspec := (canonical_toModel x).add_spec (canonical_toModel y).neg hx hy'
    (by rwa [unpackedValue_neg])
  rw [sub_eq, unpacked_sub_eq_add, hspec.2, unpackedValue_neg, ← sub_eq_add_neg]
  rfl

/-! ### Magnitudes -/

theorem Canonical.abs {u : UnpackedFloat} (h : Canonical u) : Canonical u.abs := by
  cases h with
  | notANumber => exact .notANumber
  | infinity s => exact .infinity _
  | zero s => exact .zero _
  | finite s m e hm hbits he hmax hfull => exact .finite _ m e hm hbits he hmax hfull

theorem unpackedValue_abs (u : UnpackedFloat) :
    unpackedValue u.abs = max (unpackedValue u) (-unpackedValue u) := by
  cases u with
  | notANumber => simp [UnpackedFloat.abs, unpackedValue]
  | infinity s => cases s <;> simp [UnpackedFloat.abs, unpackedValue]
  | zero s => simp [UnpackedFloat.abs, unpackedValue]
  | finite s m e hm =>
      have hmax := EReal.coe_strictMono.monotone.map_max
        (a := finiteValue s m e) (b := -finiteValue s m e)
      rw [UnpackedFloat.abs, unpackedValue, unpackedValue, ← EReal.coe_neg, ← hmax,
        ← abs_eq_max_neg, abs_finiteValue, finiteValue_positive]

theorem isNumber_abs_iff (x : Float) : IsNumber x.abs ↔ IsNumber x := by
  have h := (canonical_toModel x).abs.toModel_packed
  have hn : x.toModel.unpack.abs.isNaN = x.toModel.unpack.isNaN := by
    cases x.toModel.unpack <;> rfl
  exact Iff.of_eq (congrArg (· = false) ((congrArg UnpackedFloat.isNaN h).trans hn))

theorem value_abs (x : Float) : value x.abs = max (value x) (-value x) := by
  have h := (canonical_toModel x).abs.toModel_packed
  exact (congrArg unpackedValue h).trans (unpackedValue_abs _)

end RhythmChart.Binary64
