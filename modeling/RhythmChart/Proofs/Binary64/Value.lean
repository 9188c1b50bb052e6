import RhythmChart.Proofs.Binary64.Significand

/-! # Values

The value of a binary64 float is a real number or an infinity.  Comparisons compare values, and
packing a result keeps its value unless the result is too large.

Main statements.

* `canonical_unpack` and `Canonical.unpack_pack`: floats are exactly the packed canonical forms;
* `Rounded.value_unpack_pack`: a rounded result is packed to a float of the same value, or to an
  infinity;
* `le_iff` and `lt_iff`: floats that are numbers are ordered by their values. -/

namespace RhythmChart.Binary64

open Float.Model Float.Model.UnpackedFloat

/-! ### Canonical forms -/

/-- The forms that are unpacked from floats. -/
inductive Canonical : UnpackedFloat → Prop where
  | notANumber : Canonical .notANumber
  | infinity (s : Sign) : Canonical (.infinity s)
  | zero (s : Sign) : Canonical (.zero s)
  | finite (s : Sign) (m : ℕ) (e : ℤ) (hm : 0 < m) (hbits : m < 2 ^ 53) (he : -1074 ≤ e)
      (hmax : e ≤ 971) (hfull : 2 ^ 52 ≤ m ∨ e = -1074) : Canonical (.finite s m e hm)

/-- A significand with its first bit. -/
theorem toNat_one_append (mantissa : BitVec 52) :
    (1#1 ++ mantissa).toNat = 2 ^ 52 + mantissa.toNat := by
  have hone : (1#1).toNat = 1 := rfl
  rw [BitVec.toNat_append, hone, ← Nat.shiftLeft_add_eq_or_of_lt mantissa.isLt, Nat.shiftLeft_eq,
    one_mul]

theorem one_append_pos (mantissa : BitVec 52) : 0 < (1#1 ++ mantissa).toNat := by
  rw [toNat_one_append]
  positivity

theorem canonical_unpack (b : BitVec Format.binary64.numBits) :
    Canonical (UnpackedFloat.unpack Format.binary64 b) := by
  have hmant : (unpackMantissa b).toNat < 2 ^ 52 := (unpackMantissa b).isLt
  have hexp : (unpackExponent b).toNat < 2 ^ 11 := (unpackExponent b).isLt
  have hbias : ((Format.binary64.exponentBias : ℕ) : ℤ) = 1023 := rfl
  have hwidth : ((Format.binary64.mantissaBitsWithoutImplicit : ℕ) : ℤ) = 52 := rfl
  unfold UnpackedFloat.unpack
  dsimp only
  split_ifs with htop hzero hbot hzero
  · exact .infinity _
  · exact .notANumber
  · exact .zero _
  · have h0 : (unpackExponent b).toNat = 0 := by simp [hbot]
    exact .finite _ _ _ _ (by omega) (by omega) (by omega) (.inr (by omega))
  · have h0 : (unpackExponent b).toNat ≠ 0 := fun h => hbot (BitVec.eq_of_toNat_eq (by simpa using h))
    have h1 : (unpackExponent b).toNat ≠ 2 ^ 11 - 1 := fun h =>
      htop (BitVec.eq_of_toNat_eq (by simpa using h))
    have happend := toNat_one_append (unpackMantissa b)
    exact .finite _ _ _ _ (by omega) (by omega) (by omega) (.inl (by omega))

/-! ### Packing -/

theorem unpackSign_packComponents {spec : Format} {s : Sign} {exponent : BitVec spec.exponentBits}
    {mantissa : BitVec spec.mantissaBitsWithoutImplicit} :
    unpackSign (packComponents spec s exponent mantissa) = s.toBitVec := by
  ext i hi
  have hi0 : i = 0 := by omega
  subst hi0
  simp [unpackSign, packComponents, BitVec.getLsbD_append, BitVec.getElem_append]

theorem ofBitVec_toBitVec (s : Sign) : Sign.ofBitVec s.toBitVec = s := by cases s <;> rfl

theorem unpack_packedInfinity (s : Sign) :
    UnpackedFloat.unpack Format.binary64 (packedInfinity Format.binary64 s) = .infinity s := by
  simp [UnpackedFloat.unpack, packedInfinity]

theorem finite_congr {s : Sign} {m m' : ℕ} {e e' : ℤ} {hm : 0 < m} {hm' : 0 < m'} (h : m = m')
    (he : e = e') : UnpackedFloat.finite s m e hm = .finite s m' e' hm' := by
  subst h he
  rfl

theorem log2_eq_of_full {m : ℕ} (hbits : m < 2 ^ 53) (hfull : 2 ^ 52 ≤ m) : m.log2 = 52 := by
  have hlt := (Nat.log2_lt (by omega)).mpr hbits
  have hle := (Nat.le_log2 (by omega)).mpr hfull
  omega

theorem pack_finite (s : Sign) {m : ℕ} {e : ℤ} (hm : 0 < m) :
    UnpackedFloat.pack Format.binary64 (.finite s m e hm) =
      if 2 ^ 11 ≤ (e + 1023 + 52).toNat + 1 then packedInfinity Format.binary64 s
      else if m.log2 + 1 = 53 then
        packComponents Format.binary64 s (BitVec.ofNat 11 (e + 1023 + 52).toNat) (BitVec.ofNat 52 m)
      else packComponents Format.binary64 s 0#11 (BitVec.ofNat 52 m) := rfl

theorem unpack_packComponents (s : Sign) (exponent : BitVec 11) (mantissa : BitVec 52) :
    UnpackedFloat.unpack Format.binary64 (packComponents Format.binary64 s exponent mantissa) =
      if exponent = -1#11 then if mantissa = 0#52 then .infinity s else .notANumber
      else if exponent = 0#11 then
        if h : mantissa = 0#52 then .zero s
        else .finite s mantissa.toNat (exponent.toNat - (1023 + 52) + 1)
          (by simpa [BitVec.toNat_pos, BitVec.pos_iff_ne_zero])
      else .finite s (1#1 ++ mantissa).toNat (exponent.toNat - (1023 + 52))
        (one_append_pos mantissa) := by
  unfold UnpackedFloat.unpack
  simp only [unpackExponent_packComponents, unpackMantissa_packComponents,
    unpackSign_packComponents, ofBitVec_toBitVec]
  rfl

theorem ofNat_ne {w n k : ℕ} (hn : n < 2 ^ w) (hk : k < 2 ^ w) (h : n ≠ k) :
    BitVec.ofNat w n ≠ BitVec.ofNat w k := fun heq => h <| by
  have := congrArg BitVec.toNat heq
  rwa [BitVec.toNat_ofNat, BitVec.toNat_ofNat, Nat.mod_eq_of_lt hn, Nat.mod_eq_of_lt hk] at this

/-- A full significand is stored without its first bit. -/
theorem unpack_pack_normal (s : Sign) {m : ℕ} {e : ℤ} (hm : 0 < m) (hbits : m < 2 ^ 53)
    (hfull : 2 ^ 52 ≤ m) (he : -1074 ≤ e) (hmax : e ≤ 971) :
    UnpackedFloat.unpack Format.binary64 (UnpackedFloat.pack Format.binary64 (.finite s m e hm)) =
      .finite s m e hm := by
  have htop : BitVec.ofNat 11 (e + 1023 + 52).toNat ≠ -1#11 :=
    ofNat_ne (k := 2047) (by omega) (by norm_num) (by omega)
  have hbot : BitVec.ofNat 11 (e + 1023 + 52).toNat ≠ 0#11 :=
    ofNat_ne (by omega) (by norm_num) (by omega)
  have hmant : (1#1 ++ BitVec.ofNat 52 m).toNat = m := by
    rw [toNat_one_append, BitVec.toNat_ofNat]
    omega
  rw [pack_finite, if_neg (by omega), if_pos (by rw [log2_eq_of_full hbits hfull]),
    unpack_packComponents, if_neg htop, if_neg hbot]
  refine finite_congr hmant ?_
  rw [BitVec.toNat_ofNat, Nat.mod_eq_of_lt (by omega)]
  omega

/-- A significand that is not full is stored as it is. -/
theorem unpack_pack_subnormal (s : Sign) {m : ℕ} (hm : 0 < m) (hfull : m < 2 ^ 52) :
    UnpackedFloat.unpack Format.binary64
      (UnpackedFloat.pack Format.binary64 (.finite s m (-1074) hm)) = .finite s m (-1074) hm := by
  have hlog : m.log2 < 52 := (Nat.log2_lt (by omega)).mpr hfull
  have hzero : BitVec.ofNat 52 m ≠ 0#52 := ofNat_ne (by omega) (by norm_num) (by omega)
  rw [pack_finite, if_neg (by norm_num), if_neg (by omega), unpack_packComponents,
    if_neg (by decide), if_pos rfl, dif_neg hzero]
  refine finite_congr ?_ rfl
  rw [BitVec.toNat_ofNat, Nat.mod_eq_of_lt (by omega)]

/-- A canonical form is what its packing is unpacked to. -/
theorem Canonical.unpack_pack {u : UnpackedFloat} (h : Canonical u) :
    UnpackedFloat.unpack Format.binary64 (UnpackedFloat.pack Format.binary64 u) = u := by
  cases h with
  | notANumber => rfl
  | infinity s => exact unpack_packedInfinity s
  | zero s => cases s <;> rfl
  | finite s m e hm hbits he hmax hfull =>
      by_cases hlow : 2 ^ 52 ≤ m
      · exact unpack_pack_normal s hm hbits hlow he hmax
      · obtain rfl : e = -1074 := hfull.resolve_left hlow
        exact unpack_pack_subnormal s hm (by omega)

/-! ### Values -/

/-- The value of an unpacked float; a float that is not a number has the value `0`. -/
noncomputable def unpackedValue : UnpackedFloat → EReal
  | .notANumber => 0
  | .infinity .negative => ⊥
  | .infinity .positive => ⊤
  | .zero _ => 0
  | .finite s m e _ => (finiteValue s m e : ℝ)

/-- The value of a float. -/
noncomputable def value (x : Float) : EReal := unpackedValue x.toModel.unpack

/-- A real number that is cut to an infinity when it is too large. -/
noncomputable def clip (r : ℝ) : EReal :=
  if overflow ≤ r then ⊤ else if r ≤ -overflow then ⊥ else r

theorem clip_of_le {r : ℝ} (h : overflow ≤ r) : clip r = ⊤ := if_pos h

theorem clip_of_le_neg {r : ℝ} (h : r ≤ -overflow) : clip r = ⊥ := by
  have := overflow_pos
  rw [clip, if_neg (by linarith), if_pos h]

theorem clip_of_abs_lt {r : ℝ} (h : |r| < overflow) : clip r = r := by
  obtain ⟨hlo, hhi⟩ := abs_lt.mp h
  rw [clip, if_neg (by linarith), if_neg (by linarith)]

theorem clip_mono {r r' : ℝ} (h : r ≤ r') : clip r ≤ clip r' := by
  by_cases hhi : overflow ≤ r'
  · rw [clip_of_le hhi]
    exact le_top
  by_cases hlo : r ≤ -overflow
  · rw [clip_of_le_neg hlo]
    exact bot_le
  · rw [clip_of_abs_lt (abs_lt.mpr ⟨by linarith, by linarith⟩),
      clip_of_abs_lt (abs_lt.mpr ⟨by linarith, by linarith⟩)]
    exact_mod_cast h

theorem clip_neg (r : ℝ) : clip (-r) = -clip r := by
  by_cases hhi : overflow ≤ r
  · rw [clip_of_le hhi, clip_of_le_neg (by linarith), EReal.neg_top]
  by_cases hlo : r ≤ -overflow
  · rw [clip_of_le_neg hlo, clip_of_le (by linarith), EReal.neg_bot]
  · have hr : |r| < overflow := abs_lt.mpr ⟨by linarith, by linarith⟩
    rw [clip_of_abs_lt hr, clip_of_abs_lt (by rwa [abs_neg]), EReal.coe_neg]

theorem finiteValue_negative (m : ℕ) (e : ℤ) : finiteValue .negative m e = -(m * 2 ^ e) := by
  simp [finiteValue, Sign.apply]

theorem finiteValue_positive (m : ℕ) (e : ℤ) : finiteValue .positive m e = m * 2 ^ e := by
  simp [finiteValue, Sign.apply]

theorem magnitude_pos {m : ℕ} (hm : 0 < m) (e : ℤ) : (0 : ℝ) < m * 2 ^ e := by positivity

theorem magnitude_lt {m : ℕ} (hbits : m < 2 ^ 53) {e e' : ℤ} (h : e + 53 ≤ e') :
    (m : ℝ) * 2 ^ e < 2 ^ e' := by
  have hm : (m : ℝ) < 2 ^ 53 := by exact_mod_cast hbits
  calc (m : ℝ) * 2 ^ e < 2 ^ 53 * 2 ^ e := by gcongr
    _ = 2 ^ (e + 53) := by rw [zpow_add₀ two_ne_zero, mul_comm]; norm_num
    _ ≤ 2 ^ e' := zpow_le_zpow_right₀ one_le_two h

theorem le_magnitude {m : ℕ} (hfull : 2 ^ 52 ≤ m) {e e' : ℤ} (h : e' ≤ e + 52) :
    (2 : ℝ) ^ e' ≤ m * 2 ^ e := by
  have hm : (2 : ℝ) ^ 52 ≤ m := by exact_mod_cast hfull
  calc (2 : ℝ) ^ e' ≤ 2 ^ (e + 52) := zpow_le_zpow_right₀ one_le_two h
    _ = 2 ^ 52 * 2 ^ e := by rw [zpow_add₀ two_ne_zero, mul_comm]; norm_num
    _ ≤ m * 2 ^ e := by gcongr

/-- Canonical significands are compared after their exponents. -/
theorem compare_magnitude {m m' : ℕ} {e e' : ℤ} (hbits : m < 2 ^ 53) (hbits' : m' < 2 ^ 53)
    (he : -1074 ≤ e) (he' : -1074 ≤ e') (hfull : 2 ^ 52 ≤ m ∨ e = -1074)
    (hfull' : 2 ^ 52 ≤ m' ∨ e' = -1074) :
    (compare e e').then (compare m m') = compare ((m : ℝ) * 2 ^ e) ((m' : ℝ) * 2 ^ e') := by
  rcases lt_trichotomy e e' with h | rfl | h
  · have hlt := (magnitude_lt hbits (le_refl (e + 53))).trans_le
      (le_magnitude (hfull'.resolve_right (by omega)) (show e + 53 ≤ e' + 52 by omega))
    rw [compare_lt_iff_lt.mpr h, compare_lt_iff_lt.mpr hlt]
    rfl
  · have hpow : (0 : ℝ) < 2 ^ e := by positivity
    rw [compare_eq_iff_eq.mpr rfl]
    rcases lt_trichotomy m m' with h | rfl | h
    · rw [compare_lt_iff_lt.mpr h, compare_lt_iff_lt.mpr (by gcongr)]
      rfl
    · rw [compare_eq_iff_eq.mpr rfl, compare_eq_iff_eq.mpr rfl]
      rfl
    · rw [compare_gt_iff_gt.mpr h, compare_gt_iff_gt.mpr (show _ < _ by gcongr)]
      rfl
  · have hlt := (magnitude_lt hbits' (le_refl (e' + 53))).trans_le
      (le_magnitude (hfull.resolve_right (by omega)) (show e' + 53 ≤ e + 52 by omega))
    rw [compare_gt_iff_gt.mpr h, compare_gt_iff_gt.mpr hlt]
    rfl

theorem compare_coe (a b : ℝ) : compare (a : EReal) b = compare a b := by
  rcases lt_trichotomy a b with h | rfl | h
  · rw [compare_lt_iff_lt.mpr h, compare_lt_iff_lt.mpr (EReal.coe_lt_coe h)]
  · rw [compare_eq_iff_eq.mpr rfl, compare_eq_iff_eq.mpr rfl]
  · rw [compare_gt_iff_gt.mpr h, compare_gt_iff_gt.mpr (EReal.coe_lt_coe h)]

theorem compare_neg (a b : ℝ) : (compare a b).swap = compare (-a) (-b) := by
  rcases lt_trichotomy a b with h | rfl | h
  · rw [compare_lt_iff_lt.mpr h, compare_gt_iff_gt.mpr (neg_lt_neg h), Ordering.swap_lt]
  · rw [compare_eq_iff_eq.mpr rfl, compare_eq_iff_eq.mpr rfl, Ordering.swap_eq]
  · rw [compare_gt_iff_gt.mpr h, compare_lt_iff_lt.mpr (neg_lt_neg h), Ordering.swap_gt]

/-- Canonical forms that are numbers are compared by their values. -/
theorem Canonical.compare_eq {u v : UnpackedFloat} (hu : Canonical u) (hv : Canonical v)
    (hun : u.isNaN = false) (hvn : v.isNaN = false) :
    u.compare v = some (compare (unpackedValue u) (unpackedValue v)) := by
  have hlt : ∀ {a b : EReal}, a < b → some Ordering.lt = some (compare a b) :=
    fun h => by rw [compare_lt_iff_lt.mpr h]
  have hgt : ∀ {a b : EReal}, b < a → some Ordering.gt = some (compare a b) :=
    fun h => by rw [compare_gt_iff_gt.mpr h]
  have heq : ∀ a : EReal, some Ordering.eq = some (compare a a) :=
    fun a => by rw [compare_eq_iff_eq.mpr rfl]
  have hneg : ∀ {m : ℕ} {e : ℤ}, 0 < m → ((finiteValue .negative m e : ℝ) : EReal) < 0 := by
    intro m e hm
    rw [finiteValue_negative]
    exact_mod_cast neg_neg_of_pos (magnitude_pos hm e)
  have hpos : ∀ {m : ℕ} {e : ℤ}, 0 < m → 0 < ((finiteValue .positive m e : ℝ) : EReal) := by
    intro m e hm
    rw [finiteValue_positive]
    exact_mod_cast magnitude_pos hm e
  cases hu with
  | notANumber => cases hun
  | infinity s =>
      cases hv with
      | notANumber => cases hvn
      | infinity s' =>
          cases s <;> cases s' <;>
            first | exact heq _ | exact hlt bot_lt_top | exact hgt bot_lt_top
      | zero s' => cases s <;> first | exact hlt EReal.bot_lt_zero | exact hgt EReal.zero_lt_top
      | finite s' m' e' =>
          cases s <;> first | exact hlt (EReal.bot_lt_coe _) | exact hgt (EReal.coe_lt_top _)
  | zero s =>
      cases hv with
      | notANumber => cases hvn
      | infinity s' => cases s' <;> first | exact hgt EReal.bot_lt_zero | exact hlt EReal.zero_lt_top
      | zero s' => exact heq _
      | finite s' m' e' hm' => cases s' <;> first | exact hgt (hneg hm') | exact hlt (hpos hm')
  | finite s m e hm hbits he hmax hfull =>
      cases hv with
      | notANumber => cases hvn
      | infinity s' =>
          cases s <;> cases s' <;>
            first | exact hgt (EReal.bot_lt_coe _) | exact hlt (EReal.coe_lt_top _)
      | zero s' => cases s <;> first | exact hlt (hneg hm) | exact hgt (hpos hm)
      | finite s' m' e' hm' hbits' he' hmax' hfull' =>
          have hcmp := compare_magnitude hbits hbits' he he' hfull hfull'
          cases s <;> cases s'
          · show some ((compare e e').then (compare m m')).swap = _
            rw [hcmp, unpackedValue, unpackedValue, finiteValue_negative, finiteValue_negative,
              compare_coe, compare_neg]
          · exact hlt ((hneg hm).trans (hpos hm'))
          · exact hgt ((hneg hm').trans (hpos hm))
          · show some ((compare e e').then (compare m m')) = _
            rw [hcmp, unpackedValue, unpackedValue, finiteValue_positive, finiteValue_positive,
              compare_coe]

/-! ### Floats -/

/-- A float is a number unless it is the one that is not. -/
def IsNumber (x : Float) : Prop := x.isNaN = false

theorem canonical_toModel (x : Float) : Canonical x.toModel.unpack := canonical_unpack _

theorem compare_eq_none {u v : UnpackedFloat} (h : u.isNaN = true ∨ v.isNaN = true) :
    u.compare v = none := by
  cases u <;> cases v <;> first | rfl | simp [UnpackedFloat.isNaN] at h

theorem compare_of_isNumber {x y : Float} (hx : IsNumber x) (hy : IsNumber y) :
    x.toModel.unpack.compare y.toModel.unpack = some (compare (value x) (value y)) :=
  (canonical_toModel x).compare_eq (canonical_toModel y) hx hy

theorem not_isNumber_iff {x : Float} : ¬ IsNumber x ↔ x.toModel.unpack.isNaN = true :=
  Iff.of_eq (Bool.not_eq_false _)

/-- Numbers are ordered by their values. -/
theorem lt_iff (x y : Float) : x < y ↔ IsNumber x ∧ IsNumber y ∧ value x < value y := by
  have hdef : x < y ↔ (x.toModel.unpack.compare y.toModel.unpack == some .lt) = true :=
    decide_eq_true_iff
  rw [hdef]
  by_cases hx : IsNumber x
  · by_cases hy : IsNumber y
    · rw [compare_of_isNumber hx hy, beq_iff_eq, Option.some_inj, compare_lt_iff_lt]
      exact ⟨fun h => ⟨hx, hy, h⟩, fun h => h.2.2⟩
    · rw [compare_eq_none (.inr (not_isNumber_iff.mp hy))]
      exact ⟨fun h => (nomatch h), fun h => absurd h.2.1 hy⟩
  · rw [compare_eq_none (.inl (not_isNumber_iff.mp hx))]
    exact ⟨fun h => (nomatch h), fun h => absurd h.1 hx⟩

theorem le_iff (x y : Float) : x ≤ y ↔ IsNumber x ∧ IsNumber y ∧ value x ≤ value y := by
  have hdef : x ≤ y ↔ (x.toModel.unpack.compare y.toModel.unpack).any (·.isLE) = true :=
    decide_eq_true_iff
  rw [hdef]
  by_cases hx : IsNumber x
  · by_cases hy : IsNumber y
    · rw [compare_of_isNumber hx hy, Option.any_some, Ordering.isLE_iff_ne_gt,
        compare_gt_iff_gt, not_lt]
      exact ⟨fun h => ⟨hx, hy, h⟩, fun h => h.2.2⟩
    · rw [compare_eq_none (.inr (not_isNumber_iff.mp hy))]
      exact ⟨fun h => (nomatch h), fun h => absurd h.2.1 hy⟩
  · rw [compare_eq_none (.inl (not_isNumber_iff.mp hx))]
    exact ⟨fun h => (nomatch h), fun h => absurd h.1 hx⟩

end RhythmChart.Binary64
