import ElispBridge.Proofs.Binary64.Shortest
/-!
The number made of a ratio is the one that the ratio rounds to. The exponent is chosen so that the quotient
has 53 bits, or fewer at the least exponent; then rounding the quotient to an integer is rounding to the
nearest number, also where it carries into the next exponent.
-/

namespace ElispBridge.Binary64

/-- The nearest integer, and of two that are as near the even one. -/
theorem roundDiv_reaches (num : Nat) {den : Nat} (h : 0 < den) :
    Reaches (roundDiv num den) (2 * roundDiv num den - 1) (2 * (num / den : ℚ)) ∧
    Reaches (roundDiv num den) (2 * (num / den : ℚ)) (2 * roundDiv num den + 1) := by
  have unit : (0 : ℚ) < den := by exact_mod_cast h
  have split : (num / den : ℚ) = (num / den : Nat) + (num % den : Nat) / den := by
    rw [eq_comm, ← eq_sub_iff_add_eq', div_eq_iff unit.ne', sub_mul, div_mul_cancel₀ _ unit.ne',
      eq_sub_iff_add_eq']
    exact_mod_cast Nat.div_add_mod' num den
  have least : (0 : ℚ) ≤ (num % den : Nat) / den := by positivity
  have most : ((num % den : Nat) / den : ℚ) < 1 := by
    rw [div_lt_one unit]
    exact_mod_cast Nat.mod_lt num h
  rw [split]
  unfold roundDiv
  dsimp only
  split_ifs with down up
  · have below : 2 * ((num % den : Nat) / den : ℚ) < 1 := by
      rw [← mul_div_assoc, div_lt_one unit]
      exact_mod_cast down
    exact ⟨.of_lt (by linarith), .of_lt (by linarith)⟩
  · have above : 1 < 2 * ((num % den : Nat) / den : ℚ) := by
      rw [← mul_div_assoc, one_lt_div unit]
      exact_mod_cast up
    push_cast
    exact ⟨.of_lt (by linarith), .of_lt (by linarith)⟩
  · have half : 2 * ((num % den : Nat) / den : ℚ) = 1 := by
      have twice : 2 * (num % den) = den := by omega
      rw [← mul_div_assoc, div_eq_one_iff_eq unit.ne']
      exact_mod_cast twice
    rcases Nat.mod_two_eq_zero_or_one (num / den) with even | odd
    · rw [even, Nat.add_zero]
      exact ⟨.of_lt (by linarith), .inr ⟨by linarith, even⟩⟩
    · rw [odd]
      push_cast
      exact ⟨.inr ⟨by linarith, by omega⟩, .of_lt (by linarith)⟩

/-- Exponent and mantissa in the place where a pattern has them. A mantissa is below the first of its exponent
only if the exponent is the least, and one that is just past the last carries. -/
theorem magnitude_fields {e : Int} {m : Nat} (least : minExponent ≤ e) (most : m ≤ twoTo 53)
    (full : e = minExponent ∨ twoTo 52 ≤ m) :
    magnitude ((e - minExponent).toNat * twoTo 52 + m) = m * 2 ^ e := by
  rw [twoTo_53] at most
  rw [twoTo_52] at full
  rcases Nat.lt_or_eq_of_le most with inner | last
  · have mantissa_eq : mantissa ((e - minExponent).toNat * twoTo 52 + m) = m := by
      unfold mantissa
      simp only [twoTo_52]
      split <;> omega
    have exponent_eq : exponent ((e - minExponent).toNat * twoTo 52 + m) = e := by
      unfold exponent
      rw [twoTo_52]
      omega
    rw [magnitude, spacing, mantissa_eq, exponent_eq]
  · have mantissa_eq : mantissa ((e - minExponent).toNat * twoTo 52 + m) = 2 ^ 52 := by
      unfold mantissa
      simp only [twoTo_52]
      split <;> omega
    have exponent_eq : exponent ((e - minExponent).toNat * twoTo 52 + m) = e + 1 := by
      unfold exponent
      rw [twoTo_52]
      omega
    rw [magnitude, spacing, mantissa_eq, exponent_eq, last, zpow_add_one₀ two_ne_zero]
    push_cast
    ring

theorem inUnits_spec (num : Nat) {den : Nat} (h : 0 < den) (e : Int) :
    0 < (inUnits num den e).2 ∧ ((inUnits num den e).1 / (inUnits num den e).2 : ℚ) = num / den / 2 ^ e := by
  unfold inUnits
  split_ifs with large
  · refine ⟨Nat.mul_pos h (twoTo_pos _), ?_⟩
    rw [Nat.cast_mul, twoTo_toNat large, div_div]
  · refine ⟨h, ?_⟩
    rw [Nat.cast_mul, twoTo_toNat (by omega), zpow_neg, ← div_eq_mul_inv, div_right_comm]

theorem two_pow_mul (k : Nat) (e : Int) : (2 ^ k * 2 ^ e : ℚ) = 2 ^ (e + k) := by
  rw [zpow_add₀ two_ne_zero, zpow_natCast, mul_comm]

section Exponent

variable {num den : Nat} (h : 0 < den)

include h

theorem ratio_lt : (num / den : ℚ) < 2 ^ ((Nat.log2 num : ℤ) + 1 - Nat.log2 den) := by
  have unit : (0 : ℚ) < den := by exact_mod_cast h
  have below : (num : ℚ) < 2 ^ (Nat.log2 num + 1) := by exact_mod_cast Nat.lt_log2_self
  have above : (2 : ℚ) ^ Nat.log2 den ≤ den := by exact_mod_cast Nat.log2_self_le h.ne'
  rw [zpow_sub₀ two_ne_zero, div_lt_div_iff₀ unit (by positivity), zpow_natCast, zpow_add_one₀ two_ne_zero,
    zpow_natCast, ← pow_succ]
  exact mul_lt_mul below above (by positivity) (by positivity)

theorem le_ratio (some : num ≠ 0) : 2 ^ ((Nat.log2 num : ℤ) - (Nat.log2 den + 1)) ≤ (num / den : ℚ) := by
  have unit : (0 : ℚ) < den := by exact_mod_cast h
  have above : (2 : ℚ) ^ Nat.log2 num ≤ num := by exact_mod_cast Nat.log2_self_le some
  have below : (den : ℚ) ≤ 2 ^ (Nat.log2 den + 1) := by exact_mod_cast Nat.lt_log2_self.le
  rw [zpow_sub₀ two_ne_zero, div_le_div_iff₀ (by positivity) unit, zpow_natCast, zpow_add_one₀ two_ne_zero,
    zpow_natCast, ← pow_succ]
  exact mul_le_mul above below unit.le (by positivity)

theorem exponentGuess_spec : minExponent ≤ exponentGuess num den ∧
    (num / den : ℚ) < 2 ^ 54 * 2 ^ exponentGuess num den ∧
    (exponentGuess num den = minExponent ∨ 2 ^ 52 * 2 ^ exponentGuess num den ≤ (num / den : ℚ)) := by
  unfold exponentGuess
  split_ifs with zero
  · refine ⟨le_rfl, ?_, .inl rfl⟩
    rw [zero, Nat.cast_zero, zero_div]
    positivity
  · refine ⟨le_max_left _ _, ?_, ?_⟩
    · rw [two_pow_mul]
      refine (ratio_lt h).trans_le (zpow_le_zpow_right₀ one_le_two ?_)
      omega
    · rcases max_choice minExponent ((Nat.log2 num : ℤ) - Nat.log2 den - 53) with least | bits
      · exact .inl least
      · rw [two_pow_mul]
        refine .inr (le_trans (zpow_le_zpow_right₀ one_le_two ?_) (le_ratio h zero))
        omega

theorem inUnits_lt_iff (e : Int) :
    (inUnits num den e).1 / (inUnits num den e).2 < twoTo 53 ↔ (num / den : ℚ) < 2 ^ 53 * 2 ^ e := by
  rcases inUnits_spec num h e with ⟨pos, value⟩
  have unit : (0 : ℚ) < (inUnits num den e).2 := by exact_mod_cast pos
  rw [Nat.div_lt_iff_lt_mul pos, ← @Nat.cast_lt ℚ, Nat.cast_mul, ← div_lt_iff₀ unit, value,
    div_lt_iff₀ (by positivity), twoTo_cast]

/-- The exponent for a ratio: its quotient is below the end of the mantissas, and not below the first one
unless the exponent is the least. -/
theorem exponentFor_spec : minExponent ≤ exponentFor num den ∧
    (num / den : ℚ) < 2 ^ 53 * 2 ^ exponentFor num den ∧
    (exponentFor num den = minExponent ∨ 2 ^ 52 * 2 ^ exponentFor num den ≤ (num / den : ℚ)) := by
  rcases exponentGuess_spec h with ⟨least, most, full⟩
  unfold exponentFor
  dsimp only
  split_ifs with inside
  · exact ⟨least, (inUnits_lt_iff h _).mp inside, full⟩
  · rw [inUnits_lt_iff h, not_lt] at inside
    rw [zpow_add_one₀ two_ne_zero]
    exact ⟨by omega, by linarith, .inr (by linarith)⟩

end Exponent

/-- The nearest integer to a quotient, put next to the exponent, is the field that the quotient rounds to. -/
theorem within_fields {q : ℚ} {e : Int} {m : Nat} (nonneg : 0 ≤ q) (least : minExponent ≤ e)
    (most : q < 2 ^ 53 * 2 ^ e) (full : e = minExponent ∨ 2 ^ 52 * 2 ^ e ≤ q)
    (low : Reaches m ((2 * m - 1) * 2 ^ e) (2 * q)) (high : Reaches m (2 * q) ((2 * m + 1) * 2 ^ e)) :
    Within q ((e - minExponent).toNat * twoTo 52 + m) := by
  have unit : (0 : ℚ) < 2 ^ e := by positivity
  have last : m ≤ twoTo 53 := by
    have scaled : ((2 * m - 1) * 2 ^ e : ℚ) < 2 ^ 54 * 2 ^ e := by linarith [low.le]
    have below : (2 * m : ℚ) < 2 ^ 54 + 1 := sub_lt_iff_lt_add.mp (lt_of_mul_lt_mul_right scaled unit.le)
    have integers : 2 * m < 2 ^ 54 + 1 := by exact_mod_cast below
    rw [twoTo_53]
    omega
  have first : e = minExponent ∨ twoTo 52 ≤ m := by
    refine full.imp_right fun above => ?_
    have scaled : (2 ^ 53 * 2 ^ e : ℚ) ≤ (2 * m + 1) * 2 ^ e := by linarith [high.le]
    have integers : 2 ^ 53 ≤ 2 * m + 1 := by exact_mod_cast le_of_mul_le_mul_right scaled unit
    rw [twoTo_52]
    omega
  have parity (a b : ℚ) : Reaches m a b → Reaches ((e - minExponent).toNat * twoTo 52 + m) a b := by
    have same : ((e - minExponent).toNat * twoTo 52 + m) % 2 = m % 2 := by
      rw [twoTo_52]
      omega
    rw [Reaches, Reaches, same]
    exact id
  have here := magnitude_fields least last first
  constructor
  · rcases m with _ | m
    · have empty : (e - minExponent).toNat * twoTo 52 + 0 = 0 := by
        rw [twoTo_52] at first ⊢
        omega
      rw [empty]
      exact reaches_zero nonneg
    rw [← Nat.add_assoc, Nat.add_sub_cancel]
    rw [← Nat.add_assoc] at here parity
    rcases em (e = minExponent ∨ twoTo 52 ≤ m) with inner | start
    · have before := magnitude_fields least (Nat.le_of_succ_le last) inner
      rw [here, before]
      apply parity
      have sum : (m * 2 ^ e + (m + 1 : Nat) * 2 ^ e : ℚ) = (2 * (m + 1 : Nat) - 1) * 2 ^ e := by
        push_cast
        ring
      rwa [sum]
    · -- half a unit below the first mantissa is out of reach
      have step := magnitude_strictMono (Nat.lt_succ_self ((e - minExponent).toNat * twoTo 52 + m))
      have start_eq : m + 1 = 2 ^ 52 := by
        rw [twoTo_52] at start first
        omega
      have top : ((m + 1 : Nat) : ℚ) = 2 ^ 52 := by exact_mod_cast start_eq
      have above := full.resolve_left fun same => start (.inl same)
      rw [Nat.succ_eq_add_one, here, top] at step
      rw [here, top]
      exact .of_lt (by linarith)
  · rcases last.lt_or_eq with inner | carried
    · have next := magnitude_fields least inner (first.imp_right fun above => above.trans (Nat.le_succ m))
      rw [Nat.succ_eq_add_one, ← Nat.add_assoc] at next
      rw [here, next]
      apply parity
      have sum : (m * 2 ^ e + (m + 1 : Nat) * 2 ^ e : ℚ) = (2 * m + 1) * 2 ^ e := by
        push_cast
        ring
      rwa [sum]
    · have step := magnitude_strictMono (Nat.lt_succ_self ((e - minExponent).toNat * twoTo 52 + m))
      have top : (m : ℚ) = 2 ^ 53 := by exact_mod_cast carried
      rw [here, top] at step
      rw [here, top]
      exact .of_lt (by linarith)

/-- The field of a ratio, before it is looked at whether a finite number has it. -/
def ratioField (num den : Nat) : Nat :=
  (exponentFor num den - minExponent).toNat * twoTo 52 +
    roundDiv (inUnits num den (exponentFor num den)).1 (inUnits num den (exponentFor num den)).2

theorem within_ratioField {num den : Nat} (h : 0 < den) : Within (num / den) (ratioField num den) := by
  rcases exponentFor_spec h with ⟨least, most, full⟩
  rcases inUnits_spec num h (exponentFor num den) with ⟨pos, value⟩
  rcases roundDiv_reaches (inUnits num den (exponentFor num den)).1 pos with ⟨low, high⟩
  have unit : (0 : ℚ) < 2 ^ exponentFor num den := by positivity
  have scaled : (2 * (num / den) : ℚ) =
      2 * (num / den / 2 ^ exponentFor num den) * 2 ^ exponentFor num den := by
    rw [mul_assoc, div_mul_cancel₀ _ unit.ne']
  rw [value, ← Reaches.mul_right_iff unit, ← scaled] at low high
  exact within_fields (by positivity) least most full low high

theorem ofRatio_eq (negative : Bool) (num den : Nat) : ofRatio negative num den =
    if infinityField ≤ ratioField num den then infinity negative else ofFields negative (ratioField num den) :=
  rfl

theorem ofRatio_eq_ofFields (negative : Bool) {num den k : Nat} (h : 0 < den) (within : Within (num / den) k)
    (finite : k < infinityField) : ofRatio negative num den = ofFields negative k := by
  rw [ofRatio_eq, (within_ratioField h).unique within, if_neg (Nat.not_le.mpr finite)]

theorem ofRatio_eq_infinity (negative : Bool) {num den : Nat} (h : 0 < den)
    (large : overflow ≤ (num / den : ℚ)) : ofRatio negative num den = infinity negative := by
  rw [ofRatio_eq, if_pos]
  by_contra finite
  exact absurd ((within_ratioField h).lt_overflow (Nat.lt_of_not_le finite)) (not_lt.mpr large)

theorem ofFields_field (x : Binary64) : ofFields x.isNegative x.field = x :=
  eq_of_field (isNegative_ofFields _ x.field_lt) (field_ofFields _ x.field_lt)

theorem RoundsTo.finite {q : ℚ} {x : Binary64} (h : RoundsTo q x) : x.field < infinityField := by
  rcases h with ⟨_, _, _, value, -⟩
  by_contra large
  rcases (Nat.le_of_not_lt large).lt_or_eq with nan | infinite
  · cases value.symm.trans (value_of_nan nan)
  · cases value.symm.trans (value_of_infinite infinite.symm)

/-- A ratio with a sign becomes the number that it rounds to. -/
theorem roundsTo_iff_ofRatio {x : Binary64} {num den : Nat} (h : 0 < den) :
    RoundsTo (signed x.isNegative (num / den)) x ↔
      x.field < infinityField ∧ ofRatio x.isNegative num den = x := by
  have nonneg : (0 : ℚ) ≤ num / den := by positivity
  constructor
  · intro rounds
    have within := (roundsTo_iff_within nonneg rounds.finite).mp rounds
    exact ⟨rounds.finite, by rw [ofRatio_eq_ofFields _ h within rounds.finite, ofFields_field]⟩
  · rintro ⟨finite, made⟩
    rw [roundsTo_iff_within nonneg finite]
    have within := @within_ratioField num den h
    rcases Nat.lt_or_ge (ratioField num den) infinityField with small | large
    · rw [ofRatio_eq, if_neg (Nat.not_le.mpr small)] at made
      have field_eq := field_ofFields x.isNegative (small.trans (by decide))
      rw [made] at field_eq
      rwa [field_eq]
    · rw [ofRatio_eq, if_pos large] at made
      have field_eq : (infinity x.isNegative).field = infinityField := field_ofFields x.isNegative (by decide)
      rw [made] at field_eq
      exact absurd field_eq finite.ne

theorem decimal_ratio (digits : Nat) (exponent : Int) :
    ((digits * tenTo exponent.toNat : Nat) / (tenTo (-exponent).toNat : Nat) : ℚ) = digits * 10 ^ exponent := by
  rw [Nat.cast_mul, tenTo_cast, tenTo_cast, mul_div_assoc, ← zpow_natCast, ← zpow_natCast,
    ← zpow_sub₀ (by norm_num)]
  congr 2
  omega

theorem within_zero {q : ℚ} (nonneg : 0 ≤ q) (small : 2 * q < 2 ^ (-1074 : ℤ)) : Within q 0 := by
  have first : magnitude 0 + magnitude (0 + 1) = 2 ^ (-1074 : ℤ) := by
    rw [magnitude_succ, magnitude_zero, zero_add, zero_add]
    rfl
  exact ⟨reaches_zero nonneg, .of_lt (by rwa [first])⟩

/-- Ten is more than eight: enough to compare powers of ten with powers of two. -/
theorem two_pow_le_ten_pow (n : Nat) : (2 : ℚ) ^ (3 * n) ≤ 10 ^ n := by
  rw [pow_mul]
  exact pow_le_pow_left₀ (by norm_num) (by norm_num) n

theorem decimal_tiny {digits : Nat} {exponent : Int} (h : exponent + Nat.log2 digits < -400) :
    2 * (digits * 10 ^ exponent : ℚ) < 2 ^ (-1074 : ℤ) := by
  obtain ⟨n, rfl⟩ : ∃ n : Nat, exponent = -n := ⟨(-exponent).toNat, by omega⟩
  have below : (digits : ℚ) < 2 ^ (Nat.log2 digits + 1) := by exact_mod_cast Nat.lt_log2_self
  have unit : ((10 : ℚ) ^ n)⁻¹ ≤ (2 ^ (3 * n))⁻¹ := inv_anti₀ (by positivity) (two_pow_le_ten_pow n)
  calc (2 * (digits * 10 ^ (-(n : ℤ))) : ℚ) = 2 * (digits * (10 ^ n)⁻¹) := by rw [zpow_neg, zpow_natCast]
    _ < 2 * (2 ^ (Nat.log2 digits + 1) * (2 ^ (3 * n))⁻¹) :=
      mul_lt_mul_of_pos_left (mul_lt_mul below unit (by positivity) (by positivity)) two_pos
    _ = 2 ^ ((Nat.log2 digits : ℤ) + 2 - (3 * n : Nat)) := by
      rw [zpow_sub₀ two_ne_zero, zpow_add₀ two_ne_zero, zpow_natCast, zpow_natCast, div_eq_mul_inv]
      ring
    _ ≤ 2 ^ (-1074 : ℤ) := zpow_le_zpow_right₀ one_le_two (by omega)

theorem decimal_huge {digits : Nat} {exponent : Int} (some : digits ≠ 0) (h : 400 < exponent) :
    overflow ≤ (digits * 10 ^ exponent : ℚ) := by
  obtain ⟨n, rfl⟩ := Int.eq_ofNat_of_zero_le (by omega : 0 ≤ exponent)
  have one : (1 : ℚ) ≤ digits := by exact_mod_cast Nat.one_le_iff_ne_zero.mpr some
  calc overflow ≤ 2 ^ 1024 := sub_le_self _ (by positivity)
    _ ≤ 2 ^ (3 * n) := pow_le_pow_right₀ one_le_two (by omega)
    _ ≤ 10 ^ n := two_pow_le_ten_pow n
    _ ≤ digits * 10 ^ n := le_mul_of_one_le_left (by positivity) one
    _ = digits * 10 ^ (n : ℤ) := by rw [zpow_natCast]

/-- The results that need no computing are those of the ratio. -/
theorem ofDecimal_eq (negative : Bool) (digits : Nat) (exponent : Int) : ofDecimal negative digits exponent =
    ofRatio negative (digits * tenTo exponent.toNat) (tenTo (-exponent).toNat) := by
  have den := tenTo_pos (-exponent).toNat
  have value := decimal_ratio digits exponent
  unfold ofDecimal
  split_ifs with small large whole
  · refine (ofRatio_eq_ofFields negative den ?_ (by decide)).symm
    rw [value]
    rcases small with rfl | tiny
    · rw [Nat.cast_zero, zero_mul]
      exact within_zero le_rfl (by rw [mul_zero]; positivity)
    · exact within_zero (by positivity) (decimal_tiny tiny)
  · refine (ofRatio_eq_infinity negative den ?_).symm
    rw [value]
    exact decimal_huge (not_or.mp small).1 large
  · rw [show (-exponent).toNat = 0 by omega]
    rfl
  · rw [show exponent.toNat = 0 by omega]
    exact congrArg (ofRatio negative · _) (Nat.mul_one digits).symm

/-- Decimal digits with an exponent and a sign are read as the number that they round to. -/
theorem roundsTo_iff_ofDecimal {x : Binary64} {digits : Nat} {exponent : Int} :
    RoundsTo (signed x.isNegative (digits * 10 ^ exponent)) x ↔
      x.field < infinityField ∧ ofDecimal x.isNegative digits exponent = x := by
  rw [ofDecimal_eq, ← decimal_ratio]
  exact roundsTo_iff_ofRatio (tenTo_pos _)

end ElispBridge.Binary64
