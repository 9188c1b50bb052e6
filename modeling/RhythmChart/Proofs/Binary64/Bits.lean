import RhythmChart.Proofs.Binary64.Order

/-! # The order of bit patterns

The total order of binary64 compares bit patterns.  On numbers it agrees with the order of their values.

Main statements.

* `patternValue_mono`: bit patterns without a sign are in the order of their values;
* `value_eq_keyValue`: the value of a number rises with its place in the total order;
* `le_of_orderKey_le` and `orderKey_lt_of_lt`: so that the two orders agree. -/

namespace RhythmChart.Binary64

open Float.Model Float.Model.UnpackedFloat

/-! ### Fields -/

variable (b : BitVec Format.binary64.numBits)

theorem toNat_unpackMantissa : (unpackMantissa b).toNat = b.toNat % 2 ^ 52 := by
  simp [unpackMantissa, BitVec.extractLsb]

theorem toNat_unpackExponent : (unpackExponent b).toNat = b.toNat / 2 ^ 52 % 2 ^ 11 := by
  simp [unpackExponent, BitVec.extractLsb, Nat.shiftRight_eq_div_pow]

theorem toNat_unpackSign : (unpackSign b).toNat = b.toNat / 2 ^ 63 % 2 := by
  simp [unpackSign, BitVec.extractLsb, Nat.shiftRight_eq_div_pow]

/-! ### Values -/

/-- The significand of a bit pattern without its sign. -/
def patternSignificand (n : ℕ) : ℕ :=
  if n / 2 ^ 52 = 0 then n % 2 ^ 52 else 2 ^ 52 + n % 2 ^ 52

/-- The exponent of a bit pattern without its sign. -/
def patternExponent (n : ℕ) : ℤ := max (n / 2 ^ 52 : ℕ) 1 - 1075

/-- The value of a bit pattern without its sign, if it is not that of a failed result. -/
noncomputable def patternValue (n : ℕ) : EReal :=
  if n / 2 ^ 52 < 2047 then
    (finiteValue .positive (patternSignificand n) (patternExponent n) : ℝ)
  else ⊤

theorem patternSignificand_lt (n : ℕ) : patternSignificand n < 2 ^ 53 := by
  unfold patternSignificand
  split_ifs <;> omega

theorem le_patternExponent (n : ℕ) : -1074 ≤ patternExponent n := by
  unfold patternExponent
  omega

/-- A significand has its first bit, unless the exponent is the least one. -/
theorem patternSignificand_full (n : ℕ) :
    2 ^ 52 ≤ patternSignificand n ∨ patternExponent n = -1074 := by
  unfold patternSignificand patternExponent
  split_ifs <;> omega

/-- Bit patterns without a sign are in the order of their values. -/
theorem patternValue_mono {n n' : ℕ} (h : n ≤ n') : patternValue n ≤ patternValue n' := by
  unfold patternValue
  split_ifs with hn hn'
  · rw [EReal.coe_le_coe_iff, finiteValue_positive, finiteValue_positive]
    -- The exponents decide, or the significands do.
    have hcompare := compare_magnitude (patternSignificand_lt n) (patternSignificand_lt n')
      (le_patternExponent n) (le_patternExponent n') (patternSignificand_full n)
      (patternSignificand_full n')
    by_contra hlt
    rw [compare_gt_iff_gt.mpr (not_le.mp hlt)] at hcompare
    have hle : patternExponent n ≤ patternExponent n' := by
      unfold patternExponent
      omega
    rcases hle.lt_or_eq with hlt | heq
    · rw [compare_lt_iff_lt.mpr hlt] at hcompare
      cases hcompare
    · rw [compare_eq_iff_eq.mpr heq] at hcompare
      have hsig : patternSignificand n ≤ patternSignificand n' := by
        unfold patternExponent at heq
        unfold patternSignificand
        split_ifs <;> omega
      exact absurd (compare_gt_iff_gt.mp hcompare) (not_lt.mpr hsig)
  · exact le_top
  · omega
  · exact le_rfl

/-- A number without a sign bit has the value of its bit pattern. -/
theorem unpackedValue_unpack {b : BitVec Format.binary64.numBits}
    (hn : (UnpackedFloat.unpack Format.binary64 b).isNaN = false) (hlt : b.toNat < 2 ^ 63) :
    unpackedValue (UnpackedFloat.unpack Format.binary64 b) = patternValue b.toNat := by
  have hmantissa := toNat_unpackMantissa b
  have hexponent := toNat_unpackExponent b
  rw [Nat.mod_eq_of_lt (by omega)] at hexponent
  have hsign : Sign.ofBitVec (unpackSign b) = .positive := by
    have hzero : unpackSign b = 0#1 := BitVec.eq_of_toNat_eq (by
      rw [toNat_unpackSign, BitVec.toNat_ofNat]
      omega)
    rw [hzero]
    rfl
  have htop : unpackExponent b = -1#11 ↔ b.toNat / 2 ^ 52 = 2047 := by
    rw [← hexponent, ← BitVec.toNat_inj]
    rfl
  have hbot : unpackExponent b = 0#11 ↔ b.toNat / 2 ^ 52 = 0 := by
    rw [← hexponent, ← BitVec.toNat_inj]
    rfl
  have hempty : unpackMantissa b = 0#52 ↔ b.toNat % 2 ^ 52 = 0 := by
    rw [← hmantissa, ← BitVec.toNat_inj]
    rfl
  have hbias : ((Format.binary64.exponentBias : ℕ) : ℤ) = 1023 := rfl
  unfold UnpackedFloat.unpack at hn ⊢
  dsimp only at hn ⊢
  rw [hsign] at hn ⊢
  by_cases h1 : unpackExponent b = -1#11
  · rw [if_pos h1] at hn ⊢
    by_cases h2 : unpackMantissa b = 0#52
    · rw [if_pos h2, patternValue, if_neg (by rw [htop.mp h1]; decide)]
      rfl
    · rw [if_neg h2] at hn
      cases hn
  · have hlow : b.toNat / 2 ^ 52 < 2047 := by
      have := htop.not.mp h1
      omega
    rw [if_neg h1, patternValue, if_pos hlow, finiteValue_positive, patternSignificand,
      patternExponent]
    by_cases h2 : unpackExponent b = 0#11
    · have hzero := hbot.mp h2
      rw [if_pos h2, if_pos hzero]
      split_ifs with h3
      · rw [hempty.mp h3, Nat.cast_zero, zero_mul]
        rfl
      · rw [unpackedValue, finiteValue_positive, hmantissa, hexponent, hzero]
        rfl
    · have hpos := hbot.not.mp h2
      rw [if_neg h2, if_neg hpos, unpackedValue, finiteValue_positive, toNat_one_append, hmantissa,
        hexponent, hbias, Nat.max_eq_left (by omega)]
      rfl

/-- A sign bit negates what the other bits say. -/
theorem unpack_of_signed {b b' : BitVec Format.binary64.numBits}
    (h : b.toNat = 2 ^ 63 + b'.toNat) :
    UnpackedFloat.unpack Format.binary64 b = (UnpackedFloat.unpack Format.binary64 b').neg := by
  have hlt : b.toNat < 2 ^ 64 := b.isLt
  have hmantissa : unpackMantissa b = unpackMantissa b' := BitVec.eq_of_toNat_eq (by
    rw [toNat_unpackMantissa, toNat_unpackMantissa]
    omega)
  have hexponent : unpackExponent b = unpackExponent b' := BitVec.eq_of_toNat_eq (by
    rw [toNat_unpackExponent, toNat_unpackExponent]
    omega)
  have hsign : unpackSign b = 1#1 := BitVec.eq_of_toNat_eq (by
    rw [toNat_unpackSign, BitVec.toNat_ofNat]
    omega)
  have hsign' : unpackSign b' = 0#1 := BitVec.eq_of_toNat_eq (by
    rw [toNat_unpackSign, BitVec.toNat_ofNat]
    omega)
  have hneg : Sign.ofBitVec (1#1) = -Sign.ofBitVec (0#1) := rfl
  unfold UnpackedFloat.unpack
  dsimp only
  simp only [hmantissa, hexponent, hsign, hsign', hneg]
  split_ifs <;> rfl

/-! ### The total order -/

/-- The value at a place of the total order. -/
noncomputable def keyValue (k : ℤ) : EReal :=
  if k < 0 then -patternValue (-k - 1).toNat else patternValue k.toNat

theorem patternValue_nonneg (n : ℕ) : 0 ≤ patternValue n := by
  unfold patternValue
  split_ifs
  · rw [finiteValue_positive]
    exact_mod_cast (by positivity : (0 : ℝ) ≤ patternSignificand n * 2 ^ patternExponent n)
  · exact le_top

theorem keyValue_mono {k k' : ℤ} (h : k ≤ k') : keyValue k ≤ keyValue k' := by
  unfold keyValue
  split_ifs with hneg hneg' hneg'
  · exact EReal.neg_le_neg_iff.mpr (patternValue_mono (by omega))
  · have hle : -patternValue (-k - 1).toNat ≤ 0 :=
      EReal.neg_le.mp (by rw [neg_zero]; exact patternValue_nonneg _)
    exact hle.trans (patternValue_nonneg _)
  · omega
  · exact patternValue_mono (by omega)

/-- A number has the value at its place in the total order. -/
theorem value_eq_keyValue {x : Float} (hx : IsNumber x) : value x = keyValue (Number.orderKey x) := by
  have hbits : x.toBits.toNat = x.toModel.toBits.toBitVec.toNat := rfl
  have hlt : x.toModel.toBits.toBitVec.toNat < 2 ^ 64 := x.toModel.toBits.toBitVec.isLt
  change (UnpackedFloat.unpack Format.binary64 x.toModel.toBits.toBitVec).isNaN = false at hx
  change unpackedValue (UnpackedFloat.unpack Format.binary64 x.toModel.toBits.toBitVec) = _
  unfold Number.orderKey Number.isNegative Number.magnitudeBits Number.signBit keyValue
  simp only [decide_eq_true_eq]
  rw [hbits]
  generalize x.toModel.toBits.toBitVec = b at hx hlt
  by_cases hneg : 2 ^ 63 ≤ b.toNat
  · obtain ⟨b', hb'⟩ : ∃ b' : BitVec Format.binary64.numBits, b.toNat = 2 ^ 63 + b'.toNat := by
      have hlow : (BitVec.ofNat 64 (b.toNat - 2 ^ 63)).toNat = b.toNat - 2 ^ 63 := by
        rw [BitVec.toNat_ofNat, Nat.mod_eq_of_lt (by omega)]
      exact ⟨BitVec.ofNat 64 (b.toNat - 2 ^ 63), by change _ = _ + BitVec.toNat (w := 64) _; omega⟩
    have hplace : (-(-((b.toNat % 9223372036854775808 : ℕ) : ℤ) - 1) - 1).toNat = b'.toNat := by
      omega
    rw [unpack_of_signed hb'] at hx ⊢
    rw [isNaN_neg] at hx
    rw [unpackedValue_neg, unpackedValue_unpack hx (by omega), if_pos (by omega), if_pos (by omega),
      hplace]
  · have hplace : ((b.toNat % 9223372036854775808 : ℕ) : ℤ).toNat = b.toNat := by omega
    rw [unpackedValue_unpack hx (by omega), if_neg (by omega), if_neg (by omega), hplace]

/-- Numbers come in the total order as their values do. -/
theorem le_of_orderKey_le {x y : Float} (hx : IsNumber x) (hy : IsNumber y)
    (h : Number.orderKey x ≤ Number.orderKey y) : x ≤ y := by
  refine (le_iff x y).mpr ⟨hx, hy, ?_⟩
  rw [value_eq_keyValue hx, value_eq_keyValue hy]
  exact keyValue_mono h

theorem orderKey_lt_of_lt {x y : Float} (h : x < y) : Number.orderKey x < Number.orderKey y := by
  obtain ⟨hx, hy, -⟩ := (lt_iff x y).mp h
  by_contra hle
  exact not_lt_of_le (le_of_orderKey_le hy hx (not_lt.mp hle)) h

/-- Of two floats that are not negative, the one that comes first in the total order is not larger. -/
theorem le_of_totalLe {x y : Float} (hx : 0.0 ≤ x) (hy : 0.0 ≤ y)
    (h : Number.totalLe x y = true) : x ≤ y :=
  le_of_orderKey_le ((zero_le_iff x).mp hx).1 ((zero_le_iff y).mp hy).1 (of_decide_eq_true h)

end RhythmChart.Binary64
