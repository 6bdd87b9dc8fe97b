import ElispBridge.Proofs.Binary64.Ratio
import ElispBridge.Proofs.Datum.Evaluation
/-!
What the text of a float says. It is read as one atom that is a number and no integer; the decimal that it
writes is the number itself or rounds to it, with no place to spare, and is read back as the same pattern; and
so the text tells all numbers apart.
-/

namespace ElispBridge

/-- Whether an atom is an integer: digits, perhaps with a sign before them and a point behind them. -/
def Object.isInteger (s : List Char) : Bool :=
  let digits := (unsigned s).takeWhile Char.isDigit
  let rest := (unsigned s).dropWhile Char.isDigit
  !digits.isEmpty && (rest.isEmpty || rest == ['.'])

namespace Binary64

open Object (unsigned unsigned_signText)

/-- The number with the digits `whole` before its point and `fraction` behind it. -/
def decimal (whole fraction : List Char) : ℚ :=
  Nat.ofDigitChars 10 (whole ++ fraction) 0 / 10 ^ fraction.length

theorem decimal_nonneg (whole fraction : List Char) : 0 ≤ decimal whole fraction := by
  unfold decimal
  positivity

theorem decimal_eq_mul (whole fraction : List Char) : decimal whole fraction =
    (Nat.ofDigitChars 10 (whole ++ fraction) 0 : Nat) * 10 ^ (-(fraction.length : ℤ)) := by
  rw [zpow_neg, zpow_natCast, ← div_eq_mul_inv]
  rfl

theorem decimal_toDigits (n : Nat) : decimal (Nat.toDigits 10 n) ['0'] = n := by
  have digits : Nat.ofDigitChars 10 (Nat.toDigits 10 n ++ ['0']) 0 = 10 * n := by
    rw [Nat.ofDigitChars_append, Nat.ofDigitChars_ten_toDigits]
    exact Nat.ofDigitChars_replicate_zero (n := 1)
  rw [decimal, digits]
  push_cast
  rw [List.length_singleton, pow_one, mul_div_cancel_left₀ _ (by norm_num)]

theorem fixedPoint_decimal (digits : Nat) {places : Nat} (h : 1 ≤ places) :
    ∃ whole fraction, IsDigits whole ∧ IsDigits fraction ∧ fixedPoint digits places = whole ++ '.' :: fraction ∧
      fraction.length = places ∧ decimal whole fraction = digits / 10 ^ places := by
  have short : (Nat.toDigits 10 (digits % tenTo places)).length ≤ places :=
    (Nat.length_toDigits_le_iff (by decide) h).mpr (Nat.mod_lt _ (tenTo_pos places))
  have length : (List.replicate (places - (Nat.toDigits 10 (digits % tenTo places)).length) '0' ++
      Nat.toDigits 10 (digits % tenTo places)).length = places := by
    rw [List.length_append, List.length_replicate, Nat.sub_add_cancel short]
  refine ⟨_, _, isDigits_toDigits _, isDigits_padded _ _, rfl, length, ?_⟩
  have written : Nat.ofDigitChars 10 (Nat.toDigits 10 (digits / tenTo places) ++
      (List.replicate (places - (Nat.toDigits 10 (digits % tenTo places)).length) '0' ++
        Nat.toDigits 10 (digits % tenTo places))) 0 = digits := by
    rw [Nat.ofDigitChars_append, Nat.ofDigitChars_append, Nat.ofDigitChars_ten_toDigits,
      Nat.ofDigitChars_replicate_zero, Nat.ofDigitChars_eq_ofDigitChars_zero, Nat.ofDigitChars_ten_toDigits,
      ← Nat.mul_assoc, ← Nat.pow_add, Nat.add_sub_cancel' short]
    exact Nat.div_add_mod digits (tenTo places)
  rw [decimal, written, length]

theorem magnitude_whole_or_fractional (k : Nat) : Fractional k ∨ ∃ n : Nat, magnitude k = n := by
  rcases whole : integer? (mantissa k) (exponent k) with _ | n
  · exact .inl ⟨(integer?_none whole).1, (integer?_none whole).2⟩
  · exact .inr ⟨n, integer?_some whole⟩

theorem Fractional.not_whole {k : Nat} (h : Fractional k) (n : Nat) : magnitude k ≠ n := by
  intro whole
  have self := within_self k
  rw [whole] at self
  exact h.not_within_natCast n self

theorem magnitudeText_decimal (k : Nat) :
    ∃ whole fraction, IsDigits whole ∧ IsDigits fraction ∧
      magnitudeText (mantissa k) (exponent k) = whole ++ '.' :: fraction ∧
      Within (decimal whole fraction) k ∧
      ((∃ n : Nat, magnitude k = n) → decimal whole fraction = magnitude k) ∧
      (Fractional k → ∀ n places : Nat, Within (n / 10 ^ places) k → fraction.length ≤ places) := by
  unfold magnitudeText
  split
  · rename_i n whole
    have value : magnitude k = n := integer?_some whole
    refine ⟨_, ['0'], isDigits_toDigits n, isDigits_padded 0 0, rfl, ?_, ?_, ?_⟩
    · rw [decimal_toDigits, ← value]
      exact within_self k
    · intro _
      rw [decimal_toDigits, value]
    · intro fractional
      exact absurd value (fractional.not_whole n)
  · rename_i none
    have fractional : Fractional k := ⟨(integer?_none none).1, (integer?_none none).2⟩
    rcases ends : shortest (mantissa k) (exponent k) with ⟨digits, places⟩
    rcases fractional.shortest_spec ends with ⟨within, some, fewest⟩
    rcases fixedPoint_decimal digits some with ⟨whole, fraction, before, after, text, length, value⟩
    refine ⟨whole, fraction, before, after, text, ?_, ?_, ?_⟩
    · rwa [value]
    · rintro ⟨n, whole⟩
      exact absurd whole (fractional.not_whole n)
    · intro _
      rwa [length]

theorem signText_inj {negative positive : Bool} {a b : List Char} (ha : IsDigits a) (hb : IsDigits b)
    {s t : List Char} (h : signText negative ++ (a ++ s) = signText positive ++ (b ++ t)) :
    negative = positive ∧ a ++ s = b ++ t := by
  have minus {digits : List Char} (hd : IsDigits digits) {rest more : List Char} :
      digits ++ rest ≠ '-' :: more := by
    intro same
    cases digits with
    | nil => exact hd.ne_nil rfl
    | cons d digits =>
      have digit := hd.digit d List.mem_cons_self
      rw [(List.cons.inj same).1] at digit
      cases digit
  cases negative <;> cases positive
  · exact ⟨rfl, h⟩
  · exact absurd h (minus ha)
  · exact absurd h.symm (minus hb)
  · exact ⟨rfl, (List.cons.inj h).2⟩

theorem point_inj {a b s t : List Char} (ha : IsDigits a) (hb : IsDigits b)
    (h : a ++ '.' :: s = b ++ '.' :: t) : a = b ∧ s = t := by
  have whole := congrArg (List.takeWhile Char.isDigit) h
  rw [ha.takeWhile_point, hb.takeWhile_point] at whole
  subst whole
  exact ⟨rfl, (List.cons.inj (List.append_cancel_left h)).2⟩

theorem text_finite {x : Binary64} (h : x.field < infinityField) :
    x.text = signText x.isNegative ++ magnitudeText (mantissa x.field) (exponent x.field) := by
  rw [text, value_of_finite h]

theorem text_infinite {x : Binary64} (h : x.field = infinityField) :
    x.text = signText x.isNegative ++ (['1'] ++ '.' :: "0e+INF".toList) := by
  rw [text, value_of_infinite h]
  rfl

theorem field_le_of_ne_nan {x : Binary64} (h : x.value ≠ .nan) : x.field ≤ infinityField := by
  by_contra above
  exact h (value_of_nan (Nat.lt_of_not_le above))

/-- The sign, the digits before the point and what follows the point. Of an infinity that is no run of
digits. -/
theorem text_parts {x : Binary64} (h : x.value ≠ .nan) : ∃ whole rest, IsDigits whole ∧
    x.text = signText x.isNegative ++ (whole ++ '.' :: rest) ∧
      (x.field = infinityField ∧ ¬ IsDigits rest ∨
        x.field < infinityField ∧ IsDigits rest ∧ Within (decimal whole rest) x.field) := by
  rcases (field_le_of_ne_nan h).lt_or_eq with finite | infinite
  · rcases magnitudeText_decimal x.field with ⟨whole, fraction, before, after, text, within, -⟩
    exact ⟨whole, fraction, before, by rw [text_finite finite, text], .inr ⟨finite, after, within⟩⟩
  · refine ⟨['1'], _, isDigits_toDigits 1, text_infinite infinite, .inl ⟨infinite, fun digits => ?_⟩⟩
    have letter := digits.digit 'e' (by decide)
    cases letter

theorem text_injective {x y : Binary64} (hx : x.value ≠ .nan) (hy : y.value ≠ .nan) (same : x.text = y.text) :
    x = y := by
  rcases text_parts hx with ⟨whole, rest, digits, text, field⟩
  rcases text_parts hy with ⟨whole', rest', digits', text', field'⟩
  rw [text, text'] at same
  rcases signText_inj digits digits' same with ⟨sign, unsigned⟩
  rcases point_inj digits digits' unsigned with ⟨rfl, rfl⟩
  apply eq_of_field sign
  rcases field with ⟨infinite, letters⟩ | ⟨finite, decimals, within⟩ <;>
    rcases field' with ⟨infinite', letters'⟩ | ⟨finite', decimals', within'⟩
  · rw [infinite, infinite']
  · exact absurd decimals' letters
  · exact absurd decimals letters'
  · exact within.unique within'

theorem isInteger_floatToken {s : List Char} (h : FloatToken s) : Object.isInteger s = false := by
  cases h with
  | @decimal negative whole fraction hw hf =>
    have more : ('.' :: fraction == ['.']) = false := by
      rw [beq_eq_false_iff_ne]
      exact fun alone => hf.ne_nil (List.cons.inj alone).2
    simp only [Object.isInteger, unsigned_signText negative hw, hw.takeWhile_point, hw.dropWhile_point, more,
      List.isEmpty_cons, Bool.or_false, Bool.and_false]
  | @infinite negative => cases negative <;> decide
  | nan => decide

theorem read_text (x : Binary64) : Datum.read? x.text = some (.atom (String.ofList x.text), []) := by
  have reads := (reads_literal (.float x)).read? Datum.ends_nil
  rwa [List.append_nil] at reads

theorem signed_whole_iff (negative : Bool) {q : ℚ} (h : 0 ≤ q) :
    (∃ n : ℤ, signed negative q = n) ↔ ∃ n : Nat, q = n := by
  constructor
  · rintro ⟨n, whole⟩
    refine ⟨n.natAbs, ?_⟩
    rw [← abs_of_nonneg h, ← abs_signed negative, whole, Nat.cast_natAbs, Int.cast_abs]
  · rintro ⟨n, rfl⟩
    cases negative
    · exact ⟨n, rfl⟩
    · exact ⟨-n, by push_cast; rfl⟩

/-- Texts of floats are numbers, never integers, and lose nothing. -/
theorem text_lossless (x : Binary64) :
    FloatToken x.text ∧ Datum.read? x.text = some (.atom (String.ofList x.text), []) ∧
    Object.isNumber x.text = true ∧ Object.isInteger x.text = false ∧
    (∀ v, x.number? = some v → ∃ whole fraction, IsDigits whole ∧ IsDigits fraction ∧
      x.text = signText x.isNegative ++ (whole ++ '.' :: fraction) ∧
      RoundsTo (signed x.isNegative (decimal whole fraction)) x ∧
      ofDecimal x.isNegative (Nat.ofDigitChars 10 (whole ++ fraction) 0) (-fraction.length) = x ∧
      ((∃ n : ℤ, v = n) → signed x.isNegative (decimal whole fraction) = v) ∧
      ((∀ n : ℤ, v ≠ n) → ∀ n places : Nat, RoundsTo (signed x.isNegative (n / 10 ^ places)) x →
        fraction.length ≤ places)) ∧
    ∀ y : Binary64, x.value ≠ .nan → y.value ≠ .nan → x ≠ y → x.text ≠ y.text := by
  have token := floatToken_text x
  refine ⟨token, read_text x, Object.isNumber_floatToken token, isInteger_floatToken token, ?_, ?_⟩
  · intro v number
    obtain ⟨finite, rfl⟩ := number?_eq_some_iff.mp number
    rcases magnitudeText_decimal x.field with ⟨whole, fraction, before, after, text, within, exact_if, fewest⟩
    have rounds {q : ℚ} (nonneg : 0 ≤ q) := roundsTo_iff_within nonneg finite
    have nearest := (rounds (decimal_nonneg whole fraction)).mpr within
    refine ⟨whole, fraction, before, after, by rw [text_finite finite, text], nearest, ?_, ?_, ?_⟩
    · rw [decimal_eq_mul] at nearest
      exact (roundsTo_iff_ofDecimal.mp nearest).2
    · rw [signed_whole_iff _ (magnitude_nonneg _)]
      exact fun whole => congrArg _ (exact_if whole)
    · intro broken n places
      have fractional : Fractional x.field := (magnitude_whole_or_fractional x.field).resolve_right fun whole =>
        absurd ((signed_whole_iff x.isNegative (magnitude_nonneg _)).mpr whole) (not_exists.mpr broken)
      rw [rounds (by positivity)]
      exact fewest fractional n places
  · intro y hx hy other same
    exact other (text_injective hx hy same)

/-- The double next to a tenth, and the two zeros. -/
theorem text_lossless_tenth :
    (⟨0x3fb999999999999a⟩ : Binary64).text = "0.1".toList ∧ RoundsTo (1 / 10) ⟨0x3fb999999999999a⟩ ∧
    (∀ n places : Nat, RoundsTo (n / 10 ^ places) ⟨0x3fb999999999999a⟩ → 1 ≤ places) ∧
    (⟨0⟩ : Binary64).text ≠ (⟨0x8000000000000000⟩ : Binary64).text := by
  have text : (⟨0x3fb999999999999a⟩ : Binary64).text = signText false ++ (['0'] ++ '.' :: ['1']) := by
    decide +kernel
  have positive : (⟨0x3fb999999999999a⟩ : Binary64).isNegative = false := by decide
  have value : (⟨0x3fb999999999999a⟩ : Binary64).value = .finite false 7205759403792794 (-56) := by decide
  have number : (⟨0x3fb999999999999a⟩ : Binary64).number? = some (7205759403792794 / 2 ^ 56) := by
    rw [number?, value]
    norm_num [signed]
  have broken (n : ℤ) : (7205759403792794 / 2 ^ 56 : ℚ) ≠ n := by
    rw [ne_eq, div_eq_iff (by norm_num)]
    intro whole
    have integers : (7205759403792794 : ℤ) = n * 2 ^ 56 := by exact_mod_cast whole
    omega
  rcases text_lossless ⟨0x3fb999999999999a⟩ with ⟨-, -, -, -, finite, -⟩
  rcases finite _ number with ⟨whole, fraction, before, after, shape, rounds, -, -, fewest⟩
  rw [positive] at shape rounds fewest
  rw [text] at shape
  have zero : IsDigits ['0'] := isDigits_toDigits 0
  rcases point_inj zero before (signText_inj zero before shape).2 with ⟨rfl, rfl⟩
  refine ⟨text, ?_, fewest broken, ?_⟩
  · have digits : Nat.ofDigitChars 10 (['0'] ++ ['1']) 0 = 1 := rfl
    have tenth : signed false (decimal ['0'] ['1']) = 1 / 10 := by
      rw [signed_false, decimal, digits]
      norm_num
    rwa [tenth] at rounds
  · rcases text_lossless ⟨0⟩ with ⟨-, -, -, -, -, apart⟩
    exact apart _ (by decide) (by decide) (by decide)

end Binary64

end ElispBridge
