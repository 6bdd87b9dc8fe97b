import ElispBridge.Binary64.Text
import ElispBridge.Proofs.Binary64.Rounding
import Mathlib.Data.Nat.Cast.Field
import Mathlib.Tactic.FieldSimp
import Mathlib.Tactic.LinearCombination
/-!
The search for the fewest decimal places. The test that it makes is whether a decimal rounds to the number
at hand, so it stops at the first grid with such a decimal; and no grid before the first place has one,
since a whole number rounds only to itself.
-/

namespace ElispBridge.Binary64

theorem twoTo_cast (n : Nat) : (twoTo n : ℚ) = 2 ^ n := Nat.cast_pow 2 n

theorem tenTo_cast (n : Nat) : (tenTo n : ℚ) = 10 ^ n := Nat.cast_pow 10 n

theorem twoTo_toNat {e : Int} (h : 0 ≤ e) : (twoTo e.toNat : ℚ) = 2 ^ e := by
  rw [twoTo_cast, ← zpow_natCast, Int.toNat_of_nonneg h]

theorem twoTo_dvd_tenTo {m n : Nat} (h : m ≤ n) : twoTo m ∣ tenTo n :=
  (Nat.pow_dvd_pow 2 h).trans (pow_dvd_pow_of_dvd (by decide) n)

theorem integer?_some {m n : Nat} {e : Int} (h : integer? m e = some n) : (m * 2 ^ e : ℚ) = n := by
  unfold integer? ratio at h
  split_ifs at h with whole
  · simp only [Nat.mod_one, if_true, Nat.div_one, Option.some.injEq] at h
    rw [← h, Nat.cast_mul, twoTo_toNat whole]
  · simp only [Option.ite_none_right_eq_some, Option.some.injEq] at h
    obtain ⟨divides, rfl⟩ := h
    rw [Nat.cast_div (Nat.dvd_of_mod_eq_zero divides) (by exact_mod_cast (twoTo_pos _).ne'),
      twoTo_toNat (by omega), zpow_neg, div_inv_eq_mul]

theorem integer?_none {m : Nat} {e : Int} (h : integer? m e = none) : e < 0 ∧ ¬ twoTo (-e).toNat ∣ m := by
  unfold integer? ratio at h
  split_ifs at h with whole
  · simp [Nat.mod_one] at h
  · simp only [ite_eq_right_iff, reduceCtorEq, imp_false] at h
    exact ⟨by omega, fun divides => h (Nat.mod_eq_zero_of_dvd divides)⟩

theorem Reaches.natCast_iff {n a b : Nat} :
    Reaches n (a : ℚ) b ↔ if n % 2 = 0 then a ≤ b else a < b := by
  rw [Reaches, Nat.cast_lt, Nat.cast_inj]
  split <;> omega

theorem Reaches.mul_right_iff {n : Nat} {a b c : ℚ} (h : 0 < c) :
    Reaches n (a * c) (b * c) ↔ Reaches n a b := by
  rw [Reaches, Reaches, mul_lt_mul_iff_left₀ h, mul_left_inj' h.ne']

theorem Interval.contains_iff {i : Interval} {n : Nat} (closed : i.closed = (n % 2 == 0))
    (digits places : Nat) : i.contains digits places = true ↔
      Reaches n ((i.low * tenTo places : Nat) : ℚ) (digits * i.unit : Nat) ∧
      Reaches n ((digits * i.unit : Nat) : ℚ) (i.high * tenTo places : Nat) := by
  rw [Reaches.natCast_iff, Reaches.natCast_iff, Interval.contains, closed]
  by_cases parity : n % 2 = 0 <;> simp [parity]

theorem interval_low (m : Nat) (e : Int) :
    (interval m e).low = 4 * m - if m = twoTo 52 ∧ minExponent < e then 1 else 2 := rfl

theorem interval_closed (k : Nat) : (interval (mantissa k) (exponent k)).closed = (k % 2 == 0) := by
  rw [← mantissa_mod_two k]
  rfl

theorem contains_of_candidate? {i : Interval} {num den places digits : Nat}
    (h : candidate? i num den places = some digits) : i.contains digits places = true := by
  simp only [candidate?] at h
  split at h
  · rename_i below above
    split at h <;> cases h <;> assumption
  · cases h
    assumption
  · cases h
    assumption
  · cases h

theorem not_contains_of_candidate? {i : Interval} {num den places : Nat}
    (h : candidate? i num den places = none) :
    i.contains (num * tenTo places / den) places = false ∧
      i.contains (num * tenTo places / den + 1) places = false := by
  simp only [candidate?] at h
  split at h
  · cases h
  · cases h
  · cases h
  · exact ⟨by assumption, by assumption⟩

/-- The fields whose magnitude is no whole number. -/
structure Fractional (field : Nat) : Prop where
  below : exponent field < 0
  rest : ¬ twoTo (-exponent field).toNat ∣ mantissa field

namespace Fractional

variable {k : Nat} (h : Fractional k)

include h

theorem mantissa_pos : 0 < mantissa k := by
  apply Nat.pos_of_ne_zero
  intro zero
  apply h.rest
  rw [zero]
  exact Nat.dvd_zero _

theorem pos : 0 < k := by
  rcases k with _ | k
  · exact absurd h.mantissa_pos (by decide)
  · exact Nat.succ_pos k

theorem spacing_mul_twoTo : spacing k * twoTo (-exponent k).toNat = 1 := by
  have below := h.below
  rw [spacing, twoTo_toNat (by omega), ← zpow_add₀ two_ne_zero, add_neg_cancel, zpow_zero]

theorem magnitude_eq : magnitude k = mantissa k / twoTo (-exponent k).toNat := by
  have unit : (twoTo (-exponent k).toNat : ℚ) ≠ 0 := by exact_mod_cast (twoTo_pos _).ne'
  rw [eq_div_iff unit, magnitude, mul_assoc, h.spacing_mul_twoTo, mul_one]

theorem unit_eq : (interval (mantissa k) (exponent k)).unit = 4 * twoTo (-exponent k).toNat := by
  have below := h.below
  have places : (2 - exponent k).toNat = 2 + (-exponent k).toNat := by omega
  rw [interval, places, twoTo_add]
  rfl

theorem low_eq : ((interval (mantissa k) (exponent k)).low : ℚ) =
    (magnitude (k - 1) + magnitude k) * (2 * twoTo (-exponent k).toNat) := by
  have one := h.spacing_mul_twoTo
  have some := h.mantissa_pos
  obtain ⟨j, rfl⟩ := Nat.exists_eq_succ_of_ne_zero h.pos.ne'
  have step := magnitude_succ j
  rw [spacing_before] at step
  have here : magnitude (j + 1) = mantissa (j + 1) * spacing (j + 1) := rfl
  rw [Nat.succ_sub_one, eq_sub_of_add_eq step.symm, here, interval_low]
  split
  · rw [Nat.cast_sub (by omega)]
    push_cast
    linear_combination -(4 * mantissa (j + 1) - 1 : ℚ) * one
  · rw [Nat.cast_sub (by omega)]
    push_cast
    linear_combination -(4 * mantissa (j + 1) - 2 : ℚ) * one

theorem high_eq : ((interval (mantissa k) (exponent k)).high : ℚ) =
    (magnitude k + magnitude (k + 1)) * (2 * twoTo (-exponent k).toNat) := by
  have one := h.spacing_mul_twoTo
  have here : magnitude k = mantissa k * spacing k := rfl
  rw [magnitude_succ, here, interval]
  push_cast
  linear_combination -(4 * mantissa k + 2 : ℚ) * one

/-- The interval of the search is that of what rounds to the number. -/
theorem contains_iff (digits places : Nat) :
    (interval (mantissa k) (exponent k)).contains digits places = true ↔ Within (digits / 10 ^ places) k := by
  have unit : (0 : ℚ) < 2 * twoTo (-exponent k).toNat * 10 ^ places := by
    have some : (0 : ℚ) < twoTo (-exponent k).toNat := by exact_mod_cast twoTo_pos _
    positivity
  have scaled : ((digits * (4 * twoTo (-exponent k).toNat) : Nat) : ℚ) =
      2 * (digits / 10 ^ places) * (2 * twoTo (-exponent k).toNat * 10 ^ places) := by
    push_cast
    field_simp
    ring
  rw [Interval.contains_iff (interval_closed k), h.unit_eq, scaled, Nat.cast_mul, Nat.cast_mul, h.low_eq, h.high_eq,
    tenTo_cast, mul_assoc (magnitude (k - 1) + _), mul_assoc (magnitude k + _), Reaches.mul_right_iff unit,
    Reaches.mul_right_iff unit]
  exact ⟨fun ⟨low, high⟩ => ⟨low, high⟩, fun within => ⟨within.low, within.high⟩⟩

/-- A whole number that rounded to `k` would be the magnitude itself. -/
theorem not_within_natCast (n : Nat) : ¬ Within n k := by
  intro within
  have whole : (n : ℚ) = (n : ℚ) / 10 ^ 0 := by rw [pow_zero, div_one]
  rw [whole, ← h.contains_iff, Interval.contains_iff (interval_closed k), h.unit_eq, interval_low] at within
  have low := Nat.cast_le.mp within.1.le
  have high := Nat.cast_le.mp within.2.le
  have equal : n * twoTo (-exponent k).toNat = mantissa k := by
    have one : tenTo 0 = 1 := rfl
    have upper : (interval (mantissa k) (exponent k)).high = 4 * mantissa k + 2 := rfl
    have some := h.mantissa_pos
    rw [one, Nat.mul_one, Nat.mul_left_comm] at low
    rw [one, Nat.mul_one, Nat.mul_left_comm, upper] at high
    split at low <;> omega
  exact h.rest (Dvd.intro_left n equal)

theorem decimal_le_iff (digits places : Nat) : (digits / 10 ^ places : ℚ) ≤ magnitude k ↔
    digits * twoTo (-exponent k).toNat ≤ mantissa k * tenTo places := by
  have den : (0 : ℚ) < twoTo (-exponent k).toNat := by exact_mod_cast twoTo_pos _
  rw [h.magnitude_eq, div_le_div_iff₀ (by positivity) den, ← tenTo_cast, ← Nat.cast_mul, ← Nat.cast_mul,
    Nat.cast_le]

theorem le_decimal_iff (digits places : Nat) : magnitude k ≤ (digits / 10 ^ places : ℚ) ↔
    mantissa k * tenTo places ≤ digits * twoTo (-exponent k).toNat := by
  have den : (0 : ℚ) < twoTo (-exponent k).toNat := by exact_mod_cast twoTo_pos _
  rw [h.magnitude_eq, div_le_div_iff₀ den (by positivity), ← tenTo_cast, ← Nat.cast_mul, ← Nat.cast_mul,
    Nat.cast_le]

theorem within_candidate? {places digits : Nat}
    (found : candidate? (interval (mantissa k) (exponent k)) (mantissa k) (twoTo (-exponent k).toNat) places =
      some digits) : Within (digits / 10 ^ places) k :=
  (h.contains_iff digits places).mp (contains_of_candidate? found)

/-- The two candidates of a grid are the next below and the next above the number, so if neither rounds to
it, nothing on the grid does. -/
theorem not_within_of_candidate? {places : Nat}
    (missing : candidate? (interval (mantissa k) (exponent k)) (mantissa k) (twoTo (-exponent k).toNat) places =
      none) (digits : Nat) : ¬ Within (digits / 10 ^ places) k := by
  intro within
  rcases not_contains_of_candidate? missing with ⟨below, above⟩
  have floor_le := (h.decimal_le_iff _ places).mpr (Nat.div_mul_le_self _ _)
  have le_ceil := (h.le_decimal_iff _ places).mpr (Nat.lt_mul_of_div_lt (Nat.lt_succ_self _) (twoTo_pos _)).le
  generalize next : mantissa k * tenTo places / twoTo (-exponent k).toNat = floor at *
  rcases Nat.lt_or_ge floor digits with greater | less
  · have ordered : ((floor + 1 : Nat) / 10 ^ places : ℚ) ≤ digits / 10 ^ places := by gcongr; exact greater
    have found := (h.contains_iff (floor + 1) places).mpr (within.between (.inr ⟨le_ceil, ordered⟩))
    rw [found] at above
    cases above
  · have ordered : (digits / 10 ^ places : ℚ) ≤ floor / 10 ^ places := by gcongr
    have found := (h.contains_iff floor places).mpr (within.between (.inl ⟨ordered, floor_le⟩))
    rw [found] at below
    cases below

/-- What the search ends with: a decimal that rounds to the number, and no grid it has passed has one. The
last grid it may reach holds the number itself. -/
theorem searchPlaces_spec (fuel places : Nat) (enough : (-exponent k).toNat ≤ places + fuel)
    {digits found : Nat} (ends : searchPlaces (interval (mantissa k) (exponent k)) (mantissa k)
      (twoTo (-exponent k).toNat) fuel places = (digits, found)) :
    Within (digits / 10 ^ found) k ∧ places ≤ found ∧
      ∀ fewer, places ≤ fewer → fewer < found → ∀ n : Nat, ¬ Within (n / 10 ^ fewer) k := by
  induction fuel generalizing places with
  | zero =>
    cases ends
    have divides : twoTo (-exponent k).toNat ∣ mantissa k * tenTo found :=
      Dvd.dvd.mul_left (twoTo_dvd_tenTo enough) _
    have exact_eq := Nat.div_mul_cancel divides
    have value := le_antisymm ((h.decimal_le_iff _ found).mpr exact_eq.le)
      ((h.le_decimal_iff _ found).mpr exact_eq.ge)
    rw [value]
    exact ⟨within_self k, Nat.le_refl _, fun fewer least most => absurd least (by omega)⟩
  | succ fuel ih =>
    rw [searchPlaces] at ends
    split at ends
    · rename_i candidate
      cases ends
      exact ⟨h.within_candidate? candidate, Nat.le_refl _, fun fewer least most => absurd least (by omega)⟩
    · rename_i missing
      rcases ih (places + 1) (by omega) ends with ⟨within, least, passed⟩
      refine ⟨within, by omega, fun fewer from_here most => ?_⟩
      rcases Nat.eq_or_lt_of_le from_here with rfl | later
      · exact h.not_within_of_candidate? missing
      · exact passed fewer later most

theorem shortest_spec {digits found : Nat} (ends : shortest (mantissa k) (exponent k) = (digits, found)) :
    Within (digits / 10 ^ found) k ∧ 1 ≤ found ∧
      ∀ n places : Nat, Within (n / 10 ^ places) k → found ≤ places := by
  have below := h.below
  rw [shortest, ratio, if_neg (by omega)] at ends
  rcases h.searchPlaces_spec _ 1 (by omega) ends with ⟨within, least, passed⟩
  refine ⟨within, least, fun n places other => ?_⟩
  by_contra fewer
  rcases Nat.eq_zero_or_pos places with rfl | some
  · rw [pow_zero, div_one] at other
    exact h.not_within_natCast n other
  · exact passed places some (by omega) n other

end Fractional

end ElispBridge.Binary64
