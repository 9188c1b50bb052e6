import RhythmChart.Number.Shortest
import RhythmChart.Proofs.Binary64.Decimals

/-! # Numerals that read back

The numeral that `shortest` finds for a float is read to that float.

Main statements.

* `round_of_contains`: what lies in the rounding interval of a float is rounded to its value;
* `multiple?_contains` and `exists_multiple?`: the search only finds members of the interval, and it
  finds one before it gives up;
* `value_shortest`: the numeral that is found has the value of the float. -/

namespace RhythmChart.Binary64

open Number

/-! ### Rounding intervals -/

/-- What is near to an integer is rounded to it, on the border when it is even. -/
theorem halfEven_eq {q : ℝ} {m : ℤ}
    (h : |q - m| < 1 / 2 ∨ |q - m| = 1 / 2 ∧ m % 2 = 0) : halfEven q = m := by
  rcases h with h | ⟨h, heven⟩
  · have hhalf := abs_halfEven_sub_le_half q
    have hdist : |((halfEven q - m : ℤ) : ℝ)| < 1 := by
      have hsum := abs_add_le ((halfEven q : ℝ) - q) (q - m)
      rw [sub_add_sub_cancel] at hsum
      push_cast
      linarith
    have hzero : halfEven q - m = 0 := by
      rw [← Int.cast_abs] at hdist
      exact Int.abs_lt_one_iff.mp (by exact_mod_cast hdist)
    omega
  · rcases eq_or_eq_neg_of_abs_eq h with h | h
    · have hfloor : ⌊q⌋ = m := Int.floor_eq_iff.mpr ⟨by linarith, by linarith⟩
      have hfract : Int.fract q = 1 / 2 := by rw [Int.fract, hfloor]; exact h
      rw [halfEven, hfract, if_neg (lt_irrefl _), if_pos rfl, hfloor]
      omega
    · have hfloor : ⌊q⌋ = m - 1 := by
        refine Int.floor_eq_iff.mpr ⟨?_, ?_⟩ <;> push_cast <;> linarith
      have hfract : Int.fract q = 1 / 2 := by
        rw [Int.fract, hfloor]
        push_cast
        linarith
      rw [halfEven, hfract, if_neg (lt_irrefl _), if_pos rfl, hfloor]
      omega

/-- A positive number that has the place `e` is rounded to what its significand is rounded to. -/
theorem round_eq_of_place {y : ℝ} (hy : 0 < y) {e m : ℤ} (hplace : place y = e)
    (h : halfEven (y / 2 ^ e) = m) : round y = m * 2 ^ e := by
  rw [round, if_neg hy.le.not_gt, roundMagnitude, hplace, h]

/-- The place of a number whose significand is full, or whose exponent is the least one. -/
theorem place_eq {y : ℝ} (hy : 0 < y) {e : ℤ} (hlt : y / 2 ^ e < 2 ^ 53) (he : -1074 ≤ e)
    (hfull : 2 ^ 52 ≤ y / 2 ^ e ∨ e = -1074) : place y = e := by
  have hpow : (0 : ℝ) < 2 ^ e := by positivity
  have hhigh : Int.log 2 y < e + 53 := by
    refine (Int.lt_zpow_iff_log_lt (R := ℝ) (b := 2) one_lt_two hy).mp ?_
    rw [Nat.cast_ofNat, add_comm, zpow_add₀ two_ne_zero, ← div_lt_iff₀ hpow]
    exact_mod_cast hlt
  unfold place
  rcases hfull with hfull | rfl
  · have hlow : e + 52 ≤ Int.log 2 y := by
      refine (Int.zpow_le_iff_le_log (R := ℝ) (b := 2) one_lt_two hy).mp ?_
      rw [Nat.cast_ofNat, add_comm, zpow_add₀ two_ne_zero, ← le_div_iff₀ hpow]
      exact_mod_cast hfull
    omega
  · omega

/-- The real numbers of an interval. -/
def Contains (r : Interval) (y : ℝ) : Prop :=
  if r.closed then finiteValue .positive r.low r.unit ≤ y ∧ y ≤ finiteValue .positive r.high r.unit
  else finiteValue .positive r.low r.unit < y ∧ y < finiteValue .positive r.high r.unit

theorem contains_iff (r : Interval) (y : ℝ) :
    Contains r y ↔ if r.closed then (r.low : ℝ) * 2 ^ r.unit ≤ y ∧ y ≤ r.high * 2 ^ r.unit
      else (r.low : ℝ) * 2 ^ r.unit < y ∧ y < r.high * 2 ^ r.unit := by
  simp only [Contains, finiteValue, Float.Model.UnpackedFloat.Sign.apply, Int.cast_natCast]

/-- The interval in units of the last digit of the float. -/
theorem Contains.scaled {r : Interval} {y : ℝ} (h : Contains r y) {e : ℤ} (he : r.unit = e - 2) :
    (r.low : ℝ) / 4 ≤ y / 2 ^ e ∧ y / 2 ^ e ≤ r.high / 4 ∧
      (r.closed = true ∨ (r.low : ℝ) / 4 < y / 2 ^ e ∧ y / 2 ^ e < r.high / 4) := by
  have hunit : ∀ x : ℝ, x * 2 ^ r.unit = x / 4 * 2 ^ e := by
    intro x
    rw [he, zpow_sub₀ two_ne_zero]
    norm_num
    ring
  have hpow : (0 : ℝ) < 2 ^ e := by positivity
  simp only [contains_iff, hunit, ← le_div_iff₀ hpow, ← div_le_iff₀ hpow, ← lt_div_iff₀ hpow,
    ← div_lt_iff₀ hpow] at h
  split_ifs at h with hclosed
  · exact ⟨h.1, h.2, .inl hclosed⟩
  · exact ⟨h.1.le, h.2.le, .inr h⟩

/-- The fields of the rounding interval of a bit pattern. -/
theorem ofBits_eq (n : ℕ) :
    Interval.ofBits n =
      { value := 4 * patternSignificand n
        low := 4 * patternSignificand n - if n % 2 ^ 52 = 0 ∧ 1 < n / 2 ^ 52 then 1 else 2
        high := 4 * patternSignificand n + 2
        unit := patternExponent n - 2
        closed := patternSignificand n % 2 = 0 } := by
  have hsignificand : (if n / leadingBit = 0 then n % leadingBit else n % leadingBit + leadingBit) =
      patternSignificand n := by
    unfold patternSignificand
    rw [add_comm]
    rfl
  have hexponent : (if n / leadingBit = 0 then -1074 else ((n / leadingBit : ℕ) : ℤ) - 1075) =
      patternExponent n := by
    unfold patternExponent leadingBit
    split_ifs <;> omega
  unfold Interval.ofBits
  dsimp only
  rw [hsignificand, hexponent]
  rfl

theorem patternSignificand_pos {n : ℕ} (h : 0 < n) : 0 < patternSignificand n := by
  unfold patternSignificand
  split_ifs <;> omega

/-- The interval of a bit pattern reaches half a unit to both sides of the significand, and only a
quarter below the first full one. -/
theorem contains_ofBits {n : ℕ} (hn : 0 < n) {y : ℝ} (h : Contains (Interval.ofBits n) y) :
    |y / 2 ^ patternExponent n - patternSignificand n| ≤ 1 / 2 ∧
      (|y / 2 ^ patternExponent n - patternSignificand n| < 1 / 2 ∨ patternSignificand n % 2 = 0) ∧
      (patternSignificand n = 2 ^ 52 → patternExponent n ≠ -1074 →
        (2 : ℝ) ^ 52 - 1 / 4 ≤ y / 2 ^ patternExponent n) := by
  have hpos := patternSignificand_pos hn
  have hgap : patternSignificand n = 2 ^ 52 → patternExponent n ≠ -1074 →
      n % 2 ^ 52 = 0 ∧ 1 < n / 2 ^ 52 := by
    unfold patternSignificand patternExponent
    split_ifs <;> omega
  rw [ofBits_eq] at h
  obtain ⟨hlow, hhigh, hstrict⟩ := h.scaled rfl
  dsimp only at hlow hhigh hstrict
  generalize patternSignificand n = m at *
  generalize y / 2 ^ patternExponent n = q at *
  -- In quarters, the lower end is not farther than two from the significand.
  obtain ⟨gap, hgapLe, hgapEq, hlowEq⟩ : ∃ gap : ℝ, gap ≤ 2 ∧
      (m = 2 ^ 52 → patternExponent n ≠ -1074 → gap = 1) ∧
      ((4 * m - if n % 2 ^ 52 = 0 ∧ 1 < n / 2 ^ 52 then 1 else 2 : ℕ) : ℝ) = 4 * m - gap := by
    split_ifs with hone
    · refine ⟨1, by norm_num, fun _ _ => rfl, ?_⟩
      rw [Nat.cast_sub (by omega)]
      push_cast
      rfl
    · refine ⟨2, le_rfl, fun hm he => absurd (hgap hm he) hone, ?_⟩
      rw [Nat.cast_sub (by omega)]
      push_cast
      rfl
  rw [hlowEq] at hlow hstrict
  push_cast at hhigh hstrict
  refine ⟨abs_le.mpr ⟨by linarith, by linarith⟩, ?_, fun hm he => ?_⟩
  · rcases hstrict with heven | ⟨hlt, hgt⟩
    · exact .inr (of_decide_eq_true heven)
    · exact .inl (abs_lt.mpr ⟨by linarith, by linarith⟩)
  · rw [hgapEq hm he, hm] at hlow
    push_cast at hlow
    linarith

/-- What lies in the rounding interval of a float is rounded to its value. -/
theorem round_of_contains {n : ℕ} (hn : 0 < n) {y : ℝ} (hy : 0 < y)
    (h : Contains (Interval.ofBits n) y) :
    round y = patternSignificand n * 2 ^ patternExponent n := by
  obtain ⟨hnear, hstrict, hquarter⟩ := contains_ofBits hn h
  have hlt := patternSignificand_lt n
  have hfull := patternSignificand_full n
  have he := le_patternExponent n
  generalize patternSignificand n = m at *
  generalize patternExponent n = e at *
  obtain ⟨hlow, hhigh⟩ := abs_le.mp hnear
  have hm : (m : ℝ) ≤ 2 ^ 53 - 1 := by
    have : m + 1 ≤ 2 ^ 53 := hlt
    have : (m : ℝ) + 1 ≤ 2 ^ 53 := by exact_mod_cast this
    linarith
  by_cases hplace : 2 ^ 52 ≤ y / 2 ^ e ∨ e = -1074
  · -- The number is written with the exponent of the float.
    refine round_eq_of_place hy (place_eq hy (by linarith) he hplace) (halfEven_eq ?_)
    rcases hstrict with hstrict | heven
    · exact .inl (by exact_mod_cast hstrict)
    · rcases hnear.lt_or_eq with hnear | hnear
      · exact .inl (by exact_mod_cast hnear)
      · exact .inr ⟨by exact_mod_cast hnear, by omega⟩
  · -- The float is a power of two, and the number is written with a smaller exponent.
    obtain ⟨hless, hleast⟩ := not_or.mp hplace
    have hmEq : m = 2 ^ 52 := by
      have : (m : ℝ) < 2 ^ 52 + 1 := by linarith [not_le.mp hless]
      have : m < 2 ^ 52 + 1 := by exact_mod_cast this
      have := hfull.resolve_right hleast
      omega
    have hquarter := hquarter hmEq hleast
    have hdouble : y / 2 ^ (e - 1) = 2 * (y / 2 ^ e) := by
      rw [zpow_sub₀ two_ne_zero, zpow_one]
      field_simp
    have hsmaller : place y = e - 1 := by
      refine place_eq hy ?_ (by omega) (.inl ?_)
      · rw [hdouble]
        linarith [not_le.mp hless]
      · rw [hdouble]
        linarith
    have hround : halfEven (y / 2 ^ (e - 1)) = 2 ^ 53 := by
      have hcast : ((2 ^ 53 : ℤ) : ℝ) = 2 ^ 53 := by norm_cast
      refine halfEven_eq ?_
      rw [hdouble, hcast]
      have hle : |2 * (y / 2 ^ e) - 2 ^ 53| ≤ 1 / 2 :=
        abs_le.mpr ⟨by linarith, by linarith [not_le.mp hless]⟩
      exact hle.lt_or_eq.imp_right fun h => ⟨h, by norm_num⟩
    rw [round_eq_of_place hy hsmaller hround, hmEq, zpow_sub₀ two_ne_zero, zpow_one]
    push_cast
    ring

/-! ### The search -/

/-- Powers of two and ten are brought to a common denominator. -/
theorem exists_denominator (u k : ℤ) :
    ∃ c : ℝ, 0 < c ∧ ((2 ^ u.toNat * 10 ^ (-k).toNat : ℕ) : ℝ) = c * 2 ^ u ∧
      ((10 ^ k.toNat * 2 ^ (-u).toNat : ℕ) : ℝ) = c * 10 ^ k := by
  have hparts : ∀ (b : ℝ) (i : ℤ), b ≠ 0 → b ^ i.toNat = b ^ i * b ^ (-i).toNat := by
    intro b i hb
    rw [← zpow_natCast, ← zpow_natCast, ← zpow_add₀ hb]
    congr 1
    omega
  refine ⟨2 ^ (-u).toNat * 10 ^ (-k).toNat, by positivity, ?_, ?_⟩
  · push_cast
    rw [hparts 2 u two_ne_zero]
    ring
  · push_cast
    rw [hparts 10 k (by norm_num)]
    ring

/-- Whether a multiple of a power of ten lies in an interval, as the search decides it. -/
def inside (r : Interval) (scale step d : ℕ) : Bool :=
  if r.closed then decide (r.low * scale ≤ d * step ∧ d * step ≤ r.high * scale)
  else decide (r.low * scale < d * step ∧ d * step < r.high * scale)

theorem contains_of_inside {r : Interval} {k : ℤ} {d : ℕ}
    (h : inside r (2 ^ r.unit.toNat * 10 ^ (-k).toNat) (10 ^ k.toNat * 2 ^ (-r.unit).toNat) d = true) :
    Contains r (d * 10 ^ k) := by
  obtain ⟨c, hc, hscale, hstep⟩ := exists_denominator r.unit k
  generalize 2 ^ r.unit.toNat * 10 ^ (-k).toNat = scale at *
  generalize 10 ^ k.toNat * 2 ^ (-r.unit).toNat = step at *
  have hle : ∀ a b : ℕ, a * scale ≤ b * step ↔ (a : ℝ) * 2 ^ r.unit ≤ b * 10 ^ k := fun a b => by
    rw [← @Nat.cast_le ℝ, Nat.cast_mul, Nat.cast_mul, hscale, hstep, mul_left_comm,
      mul_left_comm (b : ℝ), mul_le_mul_iff_right₀ hc]
  have hge : ∀ a b : ℕ, b * step ≤ a * scale ↔ (b : ℝ) * 10 ^ k ≤ a * 2 ^ r.unit := fun a b => by
    rw [← @Nat.cast_le ℝ, Nat.cast_mul, Nat.cast_mul, hscale, hstep, mul_left_comm,
      mul_left_comm (a : ℝ), mul_le_mul_iff_right₀ hc]
  unfold inside at h
  rw [contains_iff]
  split_ifs at h ⊢
  · exact (of_decide_eq_true h).imp (hle _ _).mp (hge _ _).mp
  · refine (of_decide_eq_true h).imp (fun h => ?_) fun h => ?_
    · exact not_le.mp fun hn => absurd ((hge _ _).mpr hn) (not_le.mpr h)
    · exact not_le.mp fun hn => absurd ((hle _ _).mpr hn) (not_le.mpr h)

/-- The search looks at the two neighbours of the value, the nearer one first. -/
theorem multiple?_eq (r : Interval) (k : ℤ) :
    let scale := 2 ^ r.unit.toNat * 10 ^ (-k).toNat
    let step := 10 ^ k.toNat * 2 ^ (-r.unit).toNat
    let above := r.value * scale / step + 1
    ∃ nearer farther, (nearer = above ∨ farther = above) ∧ r.multiple? k =
      if nearer ≠ 0 ∧ inside r scale step nearer = true then some nearer
      else if farther ≠ 0 ∧ inside r scale step farther = true then some farther
      else none := by
  intro scale step above
  let below := r.value * scale / step
  let nearer := if 2 * (r.value * scale % step) < step then below else above
  let farther := if nearer = below then above else below
  have hpair : nearer = above ∨ farther = above := by
    by_cases h : nearer = below
    · exact .inr (if_pos h)
    · refine .inl (if_neg fun hnear => h ?_)
      exact if_pos hnear
  exact ⟨nearer, farther, hpair, rfl⟩

/-- The search only finds members of the interval. -/
theorem multiple?_contains {r : Interval} {k : ℤ} {d : ℕ} (h : r.multiple? k = some d) :
    0 < d ∧ Contains r (d * 10 ^ k) := by
  obtain ⟨nearer, farther, -, heq⟩ := multiple?_eq r k
  rw [heq] at h
  split_ifs at h with hnearer hfarther
  · cases h
    exact ⟨Nat.pos_of_ne_zero hnearer.1, contains_of_inside hnearer.2⟩
  · cases h
    exact ⟨Nat.pos_of_ne_zero hfarther.1, contains_of_inside hfarther.2⟩

/-- When the power of ten is less than two units, the neighbour above the value is inside. -/
theorem exists_multiple? {r : Interval} (hlow : r.low ≤ r.value) (hhigh : r.value + 2 ≤ r.high)
    {k : ℤ} (hk : (10 : ℝ) ^ k < 2 ^ (r.unit + 1)) : ∃ d, r.multiple? k = some d := by
  obtain ⟨c, hc, hscale, hstep⟩ := exists_denominator r.unit k
  obtain ⟨nearer, farther, habove, heq⟩ := multiple?_eq r k
  rw [heq]
  have hscalePos : 0 < 2 ^ r.unit.toNat * 10 ^ (-k).toNat := by positivity
  have hstepPos : 0 < 10 ^ k.toNat * 2 ^ (-r.unit).toNat := by positivity
  generalize 2 ^ r.unit.toNat * 10 ^ (-k).toNat = scale at *
  generalize 10 ^ k.toNat * 2 ^ (-r.unit).toNat = step at *
  have hfine : step < 2 * scale := by
    have hreal : (step : ℝ) < 2 * scale := by
      rw [hstep, hscale, mul_left_comm, mul_lt_mul_iff_right₀ hc, ← zpow_one_add₀ two_ne_zero, add_comm]
      exact hk
    exact_mod_cast hreal
  have hdivided := Nat.div_add_mod (r.value * scale) step
  have hrest : r.value * scale % step < step := Nat.mod_lt _ hstepPos
  generalize r.value * scale / step = below at *
  have hinside : inside r scale step (below + 1) = true := by
    have hlow' : r.low * scale ≤ r.value * scale := Nat.mul_le_mul_right _ hlow
    have hhigh' : (r.value + 2) * scale ≤ r.high * scale := Nat.mul_le_mul_right _ hhigh
    have hexpand : (below + 1) * step = step * below + step := by ring
    have hexpand' : (r.value + 2) * scale = r.value * scale + 2 * scale := by ring
    unfold inside
    split_ifs <;> exact decide_eq_true ⟨by omega, by omega⟩
  have hfound : ∀ d, d = below + 1 → d ≠ 0 ∧ inside r scale step d = true := by
    rintro d rfl
    exact ⟨Nat.succ_ne_zero below, hinside⟩
  split_ifs with hnearer hfarther
  · exact ⟨nearer, rfl⟩
  · exact ⟨farther, rfl⟩
  · exact absurd habove (not_or.mpr ⟨fun h => hnearer (hfound _ h), fun h => hfarther (hfound _ h)⟩)

/-- The search goes on until it finds a multiple. -/
theorem exists_search {r : Interval} {steps : ℕ} {k : ℤ} {j : ℕ} (hj : j ≤ steps)
    (h : ∃ d, r.multiple? (k - j) = some d) :
    ∃ i d, r.multiple? i = some d ∧ r.search steps k = ⟨d, i⟩ := by
  induction steps generalizing k j with
  | zero =>
      obtain ⟨d, hd⟩ := h
      obtain rfl : j = 0 := Nat.le_zero.mp hj
      rw [Nat.cast_zero, sub_zero] at hd
      exact ⟨k, d, hd, by rw [Interval.search, hd]; rfl⟩
  | succ steps ih =>
      unfold Interval.search
      cases hhere : r.multiple? k with
      | some d => exact ⟨k, d, hhere, rfl⟩
      | none =>
          cases j with
          | zero =>
              obtain ⟨d, hd⟩ := h
              rw [Nat.cast_zero, sub_zero, hhere] at hd
              cases hd
          | succ j =>
              refine ih (Nat.le_of_succ_le_succ hj) ?_
              rwa [show k - 1 - (j : ℤ) = k - ((j + 1 : ℕ) : ℤ) by push_cast; ring]

/-- Powers of ten and two are compared by their exponents. -/
theorem ten_zpow_lt {k u : ℤ} (h : 93 * k < 28 * u) (h' : 94 * k < 28 * u) :
    (10 : ℝ) ^ k < 2 ^ u := by
  have hpow : ∀ (b : ℝ) (i : ℤ), (b ^ i) ^ 28 = b ^ (28 * i) := fun b i => by
    rw [← zpow_natCast, ← zpow_mul, mul_comm]
    rfl
  have hgroup : ∀ (b : ℝ) (j : ℕ) (i : ℤ), b ^ (j * i : ℤ) = (b ^ j) ^ i := fun b j i => by
    rw [zpow_mul, zpow_natCast]
  refine lt_of_pow_lt_pow_left₀ 28 (by positivity) ?_
  rw [hpow, hpow, show (28 : ℤ) * k = ((28 : ℕ) : ℤ) * k by rfl, hgroup 10]
  rcases le_total 0 k with hk | hk
  · obtain ⟨n, rfl⟩ := Int.eq_ofNat_of_zero_le hk
    calc ((10 : ℝ) ^ 28) ^ (n : ℤ) ≤ ((2 : ℝ) ^ 94) ^ (n : ℤ) := by
          rw [zpow_natCast, zpow_natCast]
          gcongr
          norm_num
      _ = 2 ^ (((94 : ℕ) : ℤ) * n) := (hgroup 2 94 n).symm
      _ < 2 ^ (28 * u) := zpow_lt_zpow_right₀ one_lt_two (by push_cast; omega)
  · obtain ⟨n, rfl⟩ := Int.exists_eq_neg_ofNat hk
    calc ((10 : ℝ) ^ 28) ^ (-(n : ℤ)) ≤ ((2 : ℝ) ^ 93) ^ (-(n : ℤ)) := by
          rw [zpow_neg, zpow_neg, zpow_natCast, zpow_natCast]
          gcongr
          exact two_pow_le_ten_pow
      _ = 2 ^ (((93 : ℕ) : ℤ) * -n) := (hgroup 2 93 (-n)).symm
      _ < 2 ^ (28 * u) := zpow_lt_zpow_right₀ one_lt_two (by push_cast; omega)

/-- The numeral that is found for a positive finite float lies in its rounding interval. -/
theorem contains_shortest {n : ℕ} (hn : 0 < n) (hfinite : n / 2 ^ 52 < 2047) :
    0 < (shortest n).mantissa ∧
      Contains (Interval.ofBits n) ((shortest n).mantissa * 10 ^ (shortest n).exponent) := by
  have hpos := patternSignificand_pos hn
  have hlt := patternSignificand_lt n
  have hlow := le_patternExponent n
  have hhigh : patternExponent n ≤ 971 := by
    unfold patternExponent
    omega
  have hfields := ofBits_eq n
  have hvalue : (Interval.ofBits n).value = 4 * patternSignificand n := by rw [hfields]
  have hunit : (Interval.ofBits n).unit = patternExponent n - 2 := by rw [hfields]
  have hlog : (Interval.ofBits n).value.log2 < 55 := by
    rw [hvalue]
    exact (Nat.log2_lt (by omega)).mpr (by omega)
  -- The search begins at most twenty-four places above a power of ten that is small enough.
  have hfound : ∃ d, (Interval.ofBits n).multiple?
      ((((Interval.ofBits n).value.log2 : ℤ) + 1 + (Interval.ofBits n).unit) * 30103 / 100000 + 1 -
        (24 : ℕ)) = some d := by
    refine exists_multiple? ?_ ?_ (ten_zpow_lt ?_ ?_)
    · rw [hfields]
      exact Nat.sub_le _ _
    · rw [hfields]
    · omega
    · omega
  obtain ⟨i, d, hd, hsearch⟩ := exists_search le_rfl hfound
  have hshortest : shortest n = ⟨d, i⟩ := hsearch
  rw [hshortest]
  exact multiple?_contains hd

/-- The numeral that is found for a positive finite float has its value. -/
theorem value_shortest {n : ℕ} (hn : 0 < n) (hfinite : n / 2 ^ 52 < 2047) :
    nearest (((shortest n).mantissa * 10 ^ (shortest n).exponent : ℝ) : EReal) = patternValue n := by
  obtain ⟨hpos, hcontains⟩ := contains_shortest hn hfinite
  have hmantissa : (0 : ℝ) < (shortest n).mantissa := by exact_mod_cast hpos
  have hexponent : patternExponent n + 53 ≤ 1024 := by
    unfold patternExponent
    omega
  have hbound : |(patternSignificand n : ℝ) * 2 ^ patternExponent n| < overflow := by
    rw [abs_of_nonneg (by positivity)]
    exact magnitude_lt (patternSignificand_lt n) hexponent
  rw [nearest_coe, round_of_contains hn (by positivity) hcontains, clip_of_abs_lt hbound,
    patternValue, if_pos hfinite, finiteValue_positive]

end RhythmChart.Binary64
