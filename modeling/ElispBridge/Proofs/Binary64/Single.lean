import ElispBridge.Proofs.Binary64.Ratio
/-!
Numbers of 32 bits as numbers of 64 bits. None of them changes: the exponents of the one kind are among those
of the other, and a mantissa that is too short for its exponent is doubled until it is not.
-/

namespace ElispBridge.Binary64

/-- What a pattern of 32 bits stands for: one sign bit, eight bits of the exponent, 23 of the fraction. -/
def value32 (bits : UInt32) : Value :=
  let negative := decide (twoTo 31 ≤ bits.toNat)
  let exponent : Nat := bits.toNat / twoTo 23 % twoTo 8
  let fraction : Nat := bits.toNat % twoTo 23
  if exponent = twoTo 8 - 1 then
    if fraction = 0 then .infinite negative else .nan
  else if exponent = 0 then .finite negative fraction (-149)
  else .finite negative (twoTo 23 + fraction) ((exponent : Int) - 150)

/-- The pattern stands for the value. A finite one has its sign and its magnitude, not its mantissa. -/
def Is (x : Binary64) : Value → Prop
  | .nan => x.value = .nan
  | .infinite negative => x.value = .infinite negative
  | .finite negative mantissa exponent =>
    x.isNegative = negative ∧ x.number? = some (signed negative (mantissa * 2 ^ exponent))

theorem Is.eq_of_finite {x y : Binary64} {negative : Bool} {m : Nat} {e : Int}
    (hx : x.Is (.finite negative m e)) (hy : y.Is (.finite negative m e)) : x = y := by
  rcases hx with ⟨signx, numberx⟩
  rcases hy with ⟨signy, numbery⟩
  rw [number?_eq_some_iff] at numberx numbery
  have same : signed x.isNegative (magnitude x.field) = signed y.isNegative (magnitude y.field) :=
    numberx.2.symm.trans numbery.2
  rw [signx, signy] at same
  exact eq_of_field (signx.trans signy.symm) (magnitude_strictMono.injective (signed_injective negative same))

/-- Patterns that stand for one value are written alike, also if each is another NaN. -/
theorem Is.text_eq {x y : Binary64} {v : Value} (hx : x.Is v) (hy : y.Is v) : x.text = y.text := by
  cases v with
  | nan | infinite =>
    unfold Is at hx hy
    rw [text, text, hx, hy]
  | finite => rw [hx.eq_of_finite hy]

theorem fields_lt {m : Nat} {e : Int} (short : m < twoTo 53) (most : e ≤ 971) :
    (e - minExponent).toNat * twoTo 52 + m < infinityField := by
  rw [twoTo_53] at short
  rw [twoTo_52, infinityField_eq, minExponent]
  omega

/-- Each mantissa of at most 53 bits is at each exponent the magnitude of a finite number. -/
theorem exists_field {m : Nat} {e : Int} (short : m < twoTo 53) (least : minExponent ≤ e) (most : e ≤ 971) :
    ∃ k < infinityField, magnitude k = m * 2 ^ e := by
  obtain ⟨n, rfl⟩ : ∃ n : Nat, e = minExponent + n := ⟨(e - minExponent).toNat, by omega⟩
  induction n generalizing m with
  | zero => exact ⟨_, fields_lt short most, magnitude_fields least short.le (.inl (add_zero _))⟩
  | succ n ih =>
    rcases Nat.lt_or_ge m (twoTo 52) with half | full
    · -- twice the mantissa at the exponent before is the same number
      have twice : 2 * m < twoTo 53 := by
        rw [twoTo_52] at half
        rw [twoTo_53]
        omega
      obtain ⟨k, finite, value⟩ := ih twice (by omega) (by omega)
      refine ⟨k, finite, ?_⟩
      rw [value, Nat.cast_succ, ← add_assoc, zpow_add_one₀ two_ne_zero]
      push_cast
      ring
    · exact ⟨_, fields_lt short most, magnitude_fields least short.le (.inr full)⟩

theorem ratio_spec (m : Nat) (e : Int) :
    0 < (ratio m e).2 ∧ ((ratio m e).1 / (ratio m e).2 : ℚ) = m * 2 ^ e := by
  unfold ratio
  split_ifs with whole
  · refine ⟨Nat.one_pos, ?_⟩
    rw [Nat.cast_one, div_one, Nat.cast_mul, twoTo_toNat whole]
  · refine ⟨twoTo_pos _, ?_⟩
    rw [twoTo_toNat (by omega), zpow_neg, div_inv_eq_mul]

theorem ofRatio_is (negative : Bool) {m : Nat} {e : Int} (short : m < twoTo 53) (least : minExponent ≤ e)
    (most : e ≤ 971) : (ofRatio negative (ratio m e).1 (ratio m e).2).Is (.finite negative m e) := by
  obtain ⟨k, finite, value⟩ := exists_field short least most
  rcases ratio_spec m e with ⟨pos, quotient⟩
  have within := within_self k
  rw [value, ← quotient] at within
  rw [ofRatio_eq_ofFields negative pos within finite, Is, ← value]
  exact ⟨isNegative_ofFields negative (finite.trans (by decide)), number?_ofFields negative finite⟩

theorem infinity_is (negative : Bool) : (infinity negative).Is (.infinite negative) := by
  have small : infinityField < twoTo 63 := by decide
  have value := value_of_infinite (field_ofFields negative small)
  rwa [isNegative_ofFields negative small] at value

theorem nan_is : nan.Is .nan :=
  value_of_nan (by
    rw [nan, field_ofFields false (by decide)]
    decide)

/-- A number of 32 bits, the infinities and NaN among them, is the same number with 64 bits. -/
theorem ofBits32_is (bits : UInt32) : (ofBits32 bits).Is (value32 bits) := by
  have fraction : bits.toNat % twoTo 23 < twoTo 23 := Nat.mod_lt _ (twoTo_pos 23)
  have exponent : bits.toNat / twoTo 23 % twoTo 8 < twoTo 8 := Nat.mod_lt _ (twoTo_pos 8)
  have units : twoTo 8 = 256 ∧ twoTo 23 + twoTo 23 ≤ twoTo 53 := by decide
  unfold ofBits32 value32
  dsimp only
  split_ifs
  · exact infinity_is _
  · exact nan_is
  · exact ofRatio_is _ (by omega) (by decide) (by decide)
  · exact ofRatio_is _ (by omega) (by rw [minExponent]; omega) (by omega)

/-- A way to give numbers of 32 bits 64 bits that changes no number. -/
structure Widening where
  double : UInt32 → Binary64
  same : ∀ bits, (double bits).Is (value32 bits)

/-- The text of a number does not depend on how it got its 64 bits. -/
theorem Widening.text_double (w : Widening) (bits : UInt32) : (w.double bits).text = (ofBits32 bits).text :=
  (w.same bits).text_eq (ofBits32_is bits)

def Widening.standard : Widening := ⟨ofBits32, ofBits32_is⟩

end ElispBridge.Binary64
