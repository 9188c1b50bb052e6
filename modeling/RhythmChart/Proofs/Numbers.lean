import RhythmChart.Proofs.Binary64.Identity
import RhythmChart.Proofs.Binary64.Shortest

/-! # Numbers that are written and read

What is written of a number reads back as that number.

Main statements.

* `natural?_naturalText`, `count?_naturalText` and `int64?_integerText`: integers read back;
* `numeral?_plainText`: the text of a numeral is read to a numeral of the same value;
* `float?_positional`: a finite float reads back, also a negative zero. -/

namespace RhythmChart.Number

/-! ### Digits -/

theorem digitsValue_eq (s : List Char) : digitsValue s = Nat.ofDigitChars 10 s 0 := rfl

theorem digitsValue_naturalText (n : Nat) : digitsValue (naturalText n) = n :=
  Nat.ofDigitChars_ten_toDigits

theorem isDigit_naturalText {n : Nat} : ∀ c ∈ naturalText n, c.isDigit = true := fun _ hc =>
  Nat.isDigit_of_mem_toDigits (by decide) (by decide) hc

theorem naturalText_ne_nil (n : Nat) : naturalText n ≠ [] := Nat.toDigits_ne_nil

/-- A text of digits begins with a digit. -/
theorem exists_digit_cons {s : List Char} (hne : s ≠ []) (h : ∀ c ∈ s, c.isDigit = true) :
    ∃ c rest, s = c :: rest ∧ c.isDigit = true := by
  cases s with
  | nil => exact absurd rfl hne
  | cons c rest => exact ⟨c, rest, rfl, h c List.mem_cons_self⟩

/-- A digit is neither a sign nor a letter. -/
theorem ne_of_isDigit {c d : Char} (hc : c.isDigit = true) (hd : d.isDigit = false) : c ≠ d := by
  rintro rfl
  exact Bool.noConfusion (hc.symm.trans hd)

theorem natural?_digits {s : List Char} (hne : s ≠ []) (h : ∀ c ∈ s, c.isDigit = true) :
    natural? s = some (digitsValue s) := by
  rw [natural?, if_pos]
  rw [Bool.and_eq_true, Bool.not_eq_true', List.isEmpty_eq_false_iff, List.all_eq_true]
  exact ⟨hne, h⟩

theorem natural?_naturalText (n : Nat) : natural? (naturalText n) = some n := by
  rw [natural?_digits (naturalText_ne_nil n) isDigit_naturalText, digitsValue_naturalText]

/-! ### Integers -/

theorem count?_naturalText {n : Nat} (h : n ≤ maxCount) : count? (naturalText n) = some n := by
  obtain ⟨c, rest, htext, hc⟩ := exists_digit_cons (naturalText_ne_nil n) isDigit_naturalText
  have hread := natural?_naturalText n
  rw [htext] at hread ⊢
  unfold count? unsigned?
  dsimp only
  split
  next rest' heq => exact absurd (List.cons.inj heq).1 (ne_of_isDigit hc rfl)
  next =>
    rw [hread]
    exact Option.filter_eq_some_iff.mpr ⟨rfl, decide_eq_true h⟩

theorem signed?_minus {s : List Char} {n : Nat} (h : natural? s = some n) {min max : Int}
    (hmin : min ≤ -(n : Int)) (hmax : -(n : Int) ≤ max) : signed? min max ('-' :: s) = some (-(n : Int)) := by
  simp [signed?, h, hmin, hmax]

theorem signed?_naturalText {n : Nat} {min max : Int} (hmin : min ≤ n) (hmax : n ≤ max) :
    signed? min max (naturalText n) = some (n : Int) := by
  obtain ⟨c, rest, htext, hc⟩ := exists_digit_cons (naturalText_ne_nil n) isDigit_naturalText
  have hread := natural?_naturalText n
  rw [htext] at hread ⊢
  unfold signed?
  dsimp only
  split
  next rest' heq => exact absurd (List.cons.inj heq).1 (ne_of_isDigit hc rfl)
  next rest' heq => exact absurd (List.cons.inj heq).1 (ne_of_isDigit hc rfl)
  next =>
    rw [hread]
    exact Option.filter_eq_some_iff.mpr ⟨rfl, decide_eq_true ⟨hmin, hmax⟩⟩

/-- An integer of 32 bits reads back, also with more bits. -/
theorem int64?_integerText {i : Int} (hmin : -2147483648 ≤ i) (hmax : i ≤ 2147483647) :
    int64? (integerText i) = some i := by
  unfold integerText int64?
  split_ifs with hneg
  · rw [signed?_minus (natural?_naturalText i.natAbs) (by omega) (by omega)]
    exact congrArg some (by omega)
  · rw [signed?_naturalText (by omega) (by omega)]
    exact congrArg some (by omega)

/-- A minus sign and digits are read to an integer that is not positive, zero included. -/
theorem int32?_minus {i : Int} (hmin : -2147483648 ≤ i) (hmax : i ≤ 0) :
    int32? ('-' :: naturalText i.natAbs) = some i := by
  unfold int32?
  rw [signed?_minus (natural?_naturalText i.natAbs) (by omega) (by omega)]
  exact congrArg some (by omega)

/-! ### Numerals -/

theorem numeral?_digits {s : List Char} (hne : s ≠ []) (h : ∀ c ∈ s, c.isDigit = true) :
    numeral? s = some ⟨digitsValue s, 0⟩ := by
  have htake : s.takeWhile Char.isDigit = s := by simpa using h
  have hdrop : s.dropWhile Char.isDigit = [] := by simpa using h
  unfold numeral?
  rw [htake, hdrop]
  dsimp only
  rw [List.append_nil, natural?_digits hne h]
  rfl

theorem numeral?_point {a b : List Char} (hne : a ≠ []) (ha : ∀ c ∈ a, c.isDigit = true)
    (hb : ∀ c ∈ b, c.isDigit = true) :
    numeral? (a ++ '.' :: b) = some ⟨digitsValue (a ++ b), -b.length⟩ := by
  have htake : (a ++ '.' :: b).takeWhile Char.isDigit = a := by
    rw [List.takeWhile_append_of_pos ha]
    simp [show Char.isDigit '.' = false from rfl]
  have hdrop : (a ++ '.' :: b).dropWhile Char.isDigit = '.' :: b := by
    rw [List.dropWhile_append_of_pos ha]
    simp [show Char.isDigit '.' = false from rfl]
  have htake' : b.takeWhile Char.isDigit = b := by simpa using hb
  have hdrop' : b.dropWhile Char.isDigit = [] := by simpa using hb
  have hdigits : ∀ c ∈ a ++ b, c.isDigit = true := fun c hc =>
    (List.mem_append.mp hc).elim (ha c) (hb c)
  unfold numeral?
  simp only [htake, hdrop, htake', hdrop', natural?_digits (by simp [hne]) hdigits]
  simp [exponentPart?]

/-- The value of a numeral. -/
noncomputable def Numeral.real (n : Numeral) : ℝ := n.mantissa * 10 ^ n.exponent

/-- The text of a numeral is read to a numeral of the same value. -/
theorem numeral?_plainText (n : Numeral) :
    ∃ n', numeral? n.plainText = some n' ∧ n'.real = n.real := by
  obtain ⟨m, e⟩ := n
  have hdigits : ∀ c ∈ naturalText m, c.isDigit = true := isDigit_naturalText
  have hne := naturalText_ne_nil m
  have hzeros : ∀ k, ∀ c ∈ List.replicate k '0', c.isDigit = true := by
    intro k c hc
    rw [List.eq_of_mem_replicate hc]
    rfl
  unfold Numeral.plainText
  dsimp only
  split_ifs with he hlong
  · refine ⟨_, numeral?_digits (by simp [hne]) ?_, ?_⟩
    · exact fun c hc => (List.mem_append.mp hc).elim (hdigits c) (hzeros _ c)
    · have hvalue : digitsValue (naturalText m ++ List.replicate e.toNat '0') = 10 ^ e.toNat * m := by
        rw [digitsValue_eq, Nat.ofDigitChars_append, Nat.ofDigitChars_replicate_zero,
          ← digitsValue_eq, digitsValue_naturalText]
      have hpow : (10 : ℝ) ^ e = 10 ^ e.toNat := by
        rw [← zpow_natCast, Int.toNat_of_nonneg he]
      rw [Numeral.real, Numeral.real, hvalue, hpow]
      push_cast
      rw [zpow_zero, mul_one, mul_comm]
  · -- The point stands inside of the digits.
    have hplaces : ((naturalText m).drop ((naturalText m).length - e.natAbs)).length = e.natAbs := by
      rw [List.length_drop]
      omega
    have hbefore : (naturalText m).take ((naturalText m).length - e.natAbs) ≠ [] := by
      rw [← List.length_pos_iff, List.length_take]
      omega
    refine ⟨_, numeral?_point hbefore (fun c hc => hdigits c (List.mem_of_mem_take hc))
      (fun c hc => hdigits c (List.mem_of_mem_drop hc)), ?_⟩
    rw [List.take_append_drop, digitsValue_naturalText, hplaces, Numeral.real, Numeral.real,
      show -((e.natAbs : Nat) : Int) = e by omega]
  · -- Zeros stand between the point and the digits.
    refine ⟨_, numeral?_point (a := ['0']) (by simp) (by simp) ?_, ?_⟩
    · exact fun c hc => (List.mem_append.mp hc).elim (hzeros _ c) (hdigits c)
    · have hzero : ∀ k, Nat.ofDigitChars 10 (['0'] ++ List.replicate k '0') 0 = 0 := fun k => by
        rw [Nat.ofDigitChars_append, Nat.ofDigitChars_replicate_zero]
        rfl
      have hvalue : digitsValue (['0'] ++ (List.replicate (e.natAbs - (naturalText m).length) '0' ++
          naturalText m)) = m := by
        rw [digitsValue_eq, ← List.append_assoc, Nat.ofDigitChars_append, hzero, ← digitsValue_eq,
          digitsValue_naturalText]
      have hplaces : -((List.replicate (e.natAbs - (naturalText m).length) '0' ++
          naturalText m).length : Int) = e := by
        rw [List.length_append, List.length_replicate]
        omega
      rw [hvalue, hplaces]

/-! ### Floats -/

/-- A digit is no capital letter. -/
theorem isUpper_of_isDigit {c : Char} (h : c.isDigit = true) : c.isUpper = false := by
  rw [Char.isDigit, Bool.and_eq_true, decide_eq_true_eq, decide_eq_true_eq] at h
  exact decide_eq_false fun hupper => absurd (UInt32.le_trans hupper.1 h.2) (by decide)

theorem toLower_of_isDigit {c : Char} (h : c.isDigit = true) : c.toLower = c :=
  Char.toLower_eq_of_not_isUpper (by rw [isUpper_of_isDigit h]; exact Bool.false_ne_true)

/-- A digit is no letter, so a text that begins with one is no word. -/
theorem sameLetters_of_digit {c d : Char} {s t : List Char} (hc : c.isDigit = true)
    (hd : d.toLower.isDigit = false) : Text.sameLetters (c :: s) (d :: t) = false := by
  refine beq_eq_false_iff_ne.mpr fun h => ?_
  have hhead : c.toLower = d.toLower := (List.cons.inj h).1
  exact ne_of_isDigit hc hd (toLower_of_isDigit hc ▸ hhead)

/-- A text that begins with a digit is read as a numeral. -/
theorem magnitude?_of_digit {c : Char} {s : List Char} (hc : c.isDigit = true) :
    magnitude? (c :: s) = (numeral? (c :: s)).map Numeral.value := by
  have hword : ∀ d t, d.toLower.isDigit = false → ¬ Text.sameLetters (c :: s) (d :: t) = true := by
    intro d t hd
    rw [sameLetters_of_digit hc hd]
    exact Bool.false_ne_true
  unfold magnitude?
  rw [if_neg, if_neg]
  · exact hword 'n' ['a', 'n'] rfl
  · rw [Bool.or_eq_true, not_or]
    exact ⟨hword 'i' ['n', 'f'] rfl, hword 'i' "nfinity".toList rfl⟩

/-- A text that begins with a digit has no sign. -/
theorem float?_of_digit {c : Char} {s : List Char} (hc : c.isDigit = true) :
    float? (c :: s) = magnitude? (c :: s) := by
  unfold float?
  split
  next rest' heq => exact absurd (List.cons.inj heq).1 (ne_of_isDigit hc rfl)
  next rest' heq => exact absurd (List.cons.inj heq).1 (ne_of_isDigit hc rfl)
  next => rfl

/-- The text of a numeral begins with a digit. -/
theorem plainText_cons (n : Numeral) : ∃ c s, n.plainText = c :: s ∧ c.isDigit = true := by
  obtain ⟨m, e⟩ := n
  have hdigits : ∀ c ∈ naturalText m, c.isDigit = true := isDigit_naturalText
  have hne := naturalText_ne_nil m
  have hbegins : ∀ a b : List Char, a ≠ [] → (∀ c ∈ a, c.isDigit = true) →
      ∃ c s, a ++ b = c :: s ∧ c.isDigit = true := by
    intro a b ha hdigit
    obtain ⟨c, rest, rfl, hc⟩ := exists_digit_cons ha hdigit
    exact ⟨c, rest ++ b, rfl, hc⟩
  unfold Numeral.plainText
  dsimp only
  split_ifs with he hlong
  · exact hbegins _ _ hne hdigits
  · refine hbegins _ _ ?_ fun c hc => hdigits c (List.mem_of_mem_take hc)
    rw [← List.length_pos_iff, List.length_take]
    omega
  · exact ⟨'0', _, rfl, rfl⟩

/-- The text of a numeral reads back as the float nearest to it. -/
theorem magnitude?_plainText (n : Numeral) :
    ∃ x, magnitude? n.plainText = some x ∧ Binary64.value x = Binary64.nearest (n.real : EReal) := by
  obtain ⟨c, s, htext, hc⟩ := plainText_cons n
  obtain ⟨n', hread, hreal⟩ := numeral?_plainText n
  refine ⟨n'.value, ?_, ?_⟩
  · rw [htext, magnitude?_of_digit hc, ← htext, hread]
    rfl
  · rw [(Binary64.value_numeral n').2, ← hreal]
    rfl

open Binary64

theorem isInf_of_isFinite {x : Float} (h : x.isFinite = true) : x.isInf = false := by
  have hforms : ∀ u : Float.Model.UnpackedFloat, u.isFinite = true → u.isInf = false := by
    intro u hu
    cases u <;> first | rfl | cases hu
  exact hforms x.toModel.unpack h

/-- The value of a number is that of its bits, with its sign. -/
theorem value_eq_patternValue {x : Float} (h : IsNumber x) :
    value x = if isNegative x then -patternValue (magnitudeBits x) else patternValue (magnitudeBits x) := by
  rw [value_eq_keyValue h, orderKey]
  cases isNegative x with
  | false => rw [if_neg Bool.false_ne_true, if_neg Bool.false_ne_true, keyValue, if_neg (by omega),
      Int.toNat_natCast]
  | true =>
      rw [if_pos rfl, if_pos rfl, keyValue, if_pos (by omega)]
      congr 2
      omega

/-- The bits of a finite float other than zero, without its sign. -/
theorem magnitudeBits_of_ne_zero {x : Float} (hne : value x ≠ 0) (hfinite : x.isFinite = true) :
    0 < magnitudeBits x ∧ magnitudeBits x / 2 ^ 52 < 2047 := by
  have hvalue := value_eq_patternValue (isNumber_of_isFinite hfinite)
  obtain ⟨r, hr⟩ := exists_coe_of_isFinite hfinite
  constructor
  · by_contra hzero
    have hpattern : patternValue (magnitudeBits x) = 0 := by
      rw [show magnitudeBits x = 0 by omega, patternValue, if_pos (by decide), finiteValue_positive]
      simp [patternSignificand]
    rw [hpattern, neg_zero, ite_self] at hvalue
    exact hne hvalue
  · by_contra hlarge
    rw [patternValue, if_neg hlarge, hr] at hvalue
    split_ifs at hvalue
    · exact EReal.coe_ne_bot r hvalue
    · exact EReal.coe_ne_top r hvalue

/-- A finite float reads back. -/
theorem float?_positional {x : Float} (hfinite : x.isFinite = true) :
    float? (positional x) = some x := by
  have hnumber := isNumber_of_isFinite hfinite
  by_cases hzero : value x = 0
  · rcases eq_zero_of_value hnumber hzero with rfl | rfl
    · decide +kernel
    · decide +kernel
  · obtain ⟨hbits, hlarge⟩ := magnitudeBits_of_ne_zero hzero hfinite
    have hvalue := value_eq_patternValue hnumber
    obtain ⟨y, hread, hy⟩ := magnitude?_plainText (shortest (magnitudeBits x))
    have hy : value y = patternValue (magnitudeBits x) := hy.trans (value_shortest hbits hlarge)
    have htext : positional x = signed x (shortest (magnitudeBits x)).plainText := by
      unfold positional
      rw [hnumber, isInf_of_isFinite hfinite]
      simp [hbits.ne']
    rw [htext, signed]
    cases hsign : isNegative x with
    | false =>
        rw [hsign, if_neg Bool.false_ne_true] at hvalue
        obtain ⟨c, s, hplain, hc⟩ := plainText_cons (shortest (magnitudeBits x))
        have heq : y = x := eq_of_value (hy.trans hvalue.symm) (by rwa [hy, ← hvalue])
        rw [if_neg Bool.false_ne_true, hplain, float?_of_digit hc, ← hplain, hread, heq]
    | true =>
        rw [hsign, if_pos rfl] at hvalue
        have hneg : value (-y) = value x := by rw [value_neg, hy, hvalue]
        have heq : -y = x := eq_of_value hneg (hneg ▸ hzero)
        rw [if_pos rfl]
        exact (congrArg (Option.map fun z => -z) hread).trans (congrArg some heq)

/-! ### Characters -/

/-- The characters that numbers are written with. -/
def isNumberChar (c : Char) : Bool := c.isDigit || c == '.' || c == '-'

theorem isNumberChar_of_isDigit {c : Char} (h : c.isDigit = true) : isNumberChar c = true := by
  rw [isNumberChar, h]
  rfl

theorem isNumberChar_naturalText {n : Nat} : ∀ c ∈ naturalText n, isNumberChar c = true := fun c hc =>
  isNumberChar_of_isDigit (isDigit_naturalText c hc)

theorem isNumberChar_integerText {i : Int} : ∀ c ∈ integerText i, isNumberChar c = true := by
  unfold integerText
  split_ifs
  · exact List.forall_mem_cons.mpr ⟨rfl, isNumberChar_naturalText⟩
  · exact isNumberChar_naturalText

theorem integerText_ne_nil (i : Int) : integerText i ≠ [] := by
  unfold integerText
  split_ifs
  · exact List.cons_ne_nil _ _
  · exact naturalText_ne_nil _

theorem isNumberChar_plainText (n : Numeral) : ∀ c ∈ n.plainText, isNumberChar c = true := by
  have hdigits : ∀ c ∈ naturalText n.mantissa, isNumberChar c = true := isNumberChar_naturalText
  have hzeros : ∀ k, ∀ c ∈ List.replicate k '0', isNumberChar c = true := by
    intro k c hc
    rw [List.eq_of_mem_replicate hc]
    rfl
  unfold Numeral.plainText
  dsimp only
  split_ifs
  · exact List.forall_mem_append.mpr ⟨hdigits, hzeros _⟩
  · refine List.forall_mem_append.mpr ⟨fun c hc => hdigits c (List.mem_of_mem_take hc), ?_⟩
    exact List.forall_mem_cons.mpr ⟨rfl, fun c hc => hdigits c (List.mem_of_mem_drop hc)⟩
  · refine List.forall_mem_cons.mpr ⟨rfl, List.forall_mem_cons.mpr ⟨rfl, ?_⟩⟩
    exact List.forall_mem_append.mpr ⟨hzeros _, hdigits⟩

/-- A finite float is written with the characters of numbers. -/
theorem isNumberChar_positional {x : Float} (h : x.isFinite = true) :
    positional x ≠ [] ∧ ∀ c ∈ positional x, isNumberChar c = true := by
  have hsigned : ∀ body : List Char, body ≠ [] → (∀ c ∈ body, isNumberChar c = true) →
      signed x body ≠ [] ∧ ∀ c ∈ signed x body, isNumberChar c = true := by
    intro body hne hbody
    unfold signed
    split_ifs
    · exact ⟨List.cons_ne_nil _ _, List.forall_mem_cons.mpr ⟨rfl, hbody⟩⟩
    · exact ⟨hne, hbody⟩
  have hnumber : x.isNaN = false := isNumber_of_isFinite h
  unfold positional
  rw [hnumber, isInf_of_isFinite h, if_neg Bool.false_ne_true, if_neg Bool.false_ne_true]
  split_ifs
  · exact hsigned _ (List.cons_ne_nil _ _) (List.forall_mem_singleton.mpr rfl)
  · obtain ⟨c, s, htext, -⟩ := plainText_cons (shortest (magnitudeBits x))
    exact hsigned _ (htext ▸ List.cons_ne_nil c s) (isNumberChar_plainText _)

end RhythmChart.Number
