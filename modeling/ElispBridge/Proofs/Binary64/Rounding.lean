import ElispBridge.Proofs.Binary64.Magnitude
import Mathlib.Algebra.Order.Ring.Abs
/-!
Rounding to the nearest number. What rounds to a pattern is an interval around its magnitude, which
reaches half way to the magnitudes of the fields before and after, and no two of these intervals meet.
-/

namespace ElispBridge.Binary64

/-- `a` comes before `b`. They may also meet if `n` is even, for a tie goes to the even number. -/
def Reaches (n : Nat) (a b : ℚ) : Prop := a < b ∨ a = b ∧ n % 2 = 0

theorem Reaches.le {n : Nat} {a b : ℚ} (h : Reaches n a b) : a ≤ b := by
  rcases h with before | ⟨meet, -⟩
  · exact before.le
  · exact meet.le

theorem Reaches.trans_le {n : Nat} {a b c : ℚ} (h : Reaches n a b) (le : b ≤ c) : Reaches n a c := by
  rcases h with before | ⟨rfl, parity⟩
  · exact .inl (before.trans_le le)
  · exact le.lt_or_eq.imp_right fun meet => ⟨meet, parity⟩

theorem Reaches.le_trans {n : Nat} {a b c : ℚ} (le : a ≤ b) (h : Reaches n b c) : Reaches n a c := by
  rcases h with before | ⟨rfl, parity⟩
  · exact .inl (le.trans_lt before)
  · exact le.lt_or_eq.imp_right fun meet => ⟨meet, parity⟩

theorem Reaches.of_lt {n : Nat} {a b : ℚ} (h : a < b) : Reaches n a b := .inl h

def signed (negative : Bool) (q : ℚ) : ℚ := if negative then -q else q

@[simp] theorem signed_true (q : ℚ) : signed true q = -q := rfl

@[simp] theorem signed_false (q : ℚ) : signed false q = q := rfl

theorem signed_injective (negative : Bool) : Function.Injective (signed negative) := by
  cases negative
  · exact fun _ _ => id
  · exact neg_injective

theorem signed_not (negative : Bool) (q : ℚ) : signed (!negative) q = signed negative (-q) := by
  cases negative
  · rfl
  · exact (neg_neg q).symm

theorem abs_signed (negative : Bool) (q : ℚ) : |signed negative q| = |q| := by
  cases negative
  · rfl
  · exact abs_neg q

theorem abs_signed_sub (negative : Bool) (a b : ℚ) : |signed negative a - signed negative b| = |a - b| := by
  cases negative
  · rfl
  · rw [signed_true, signed_true, neg_sub_neg, abs_sub_comm]

/-- The number that a pattern is, unless it is infinite or not a number. -/
def number? (x : Binary64) : Option ℚ :=
  match x.value with
  | .finite negative mantissa exponent => some (signed negative (mantissa * 2 ^ exponent))
  | _ => none

/-- Half a unit above the greatest finite number. -/
def overflow : ℚ := 2 ^ 1024 - 2 ^ 970

/-- Rounding to nearest, ties to even: no finite number is nearer to `q`, and if another one is as near, then
the mantissa is even. Nothing from `overflow` on rounds to a finite number. -/
def RoundsTo (q : ℚ) (x : Binary64) : Prop :=
  ∃ negative mantissa exponent, x.value = .finite negative mantissa exponent ∧ |q| < overflow ∧
    ∀ (y : Binary64) w, y.number? = some w → w ≠ signed negative (mantissa * 2 ^ exponent) →
      Reaches mantissa |q - signed negative (mantissa * 2 ^ exponent)| |q - w|

theorem number?_eq_some_iff {x : Binary64} {v : ℚ} :
    x.number? = some v ↔ x.field < infinityField ∧ v = signed x.isNegative (magnitude x.field) := by
  rcases Nat.lt_trichotomy x.field infinityField with finite | infinite | nan
  · rw [number?, value_of_finite finite]
    simp only [finite, true_and, Option.some.injEq]
    exact eq_comm
  · rw [number?, value_of_infinite infinite]
    simp [infinite]
  · rw [number?, value_of_nan nan]
    simp [nan.not_gt]

theorem number?_ofFields (negative : Bool) {k : Nat} (h : k < infinityField) :
    (ofFields negative k).number? = some (signed negative (magnitude k)) := by
  have small : k < twoTo 63 := h.trans (by decide)
  rw [number?_eq_some_iff, field_ofFields negative small, isNegative_ofFields negative small]
  exact ⟨h, rfl⟩

theorem exponent_infinityField : exponent infinityField = 972 := by decide

theorem magnitude_infinityField : magnitude infinityField = 2 ^ 1024 := by
  have first : (mantissa infinityField : ℚ) = 2 ^ 52 := by
    have start : mantissa infinityField = 2 ^ 52 := by decide
    exact_mod_cast start
  rw [magnitude, spacing, exponent_infinityField, first]
  exact (pow_add 2 52 972).symm

/-- Half way between the greatest finite magnitude and the one that would be the next. -/
theorem magnitude_last : magnitude (infinityField - 1) + magnitude infinityField = 2 * overflow := by
  have next : infinityField - 1 + 1 = infinityField := by decide
  have unit : spacing (infinityField - 1) = 2 * 2 ^ 970 := by
    have exponent_eq : exponent (infinityField - 1) = 971 := by decide
    rw [spacing, exponent_eq, ← pow_succ']
    rfl
  have step := magnitude_succ (infinityField - 1)
  rw [next, unit, magnitude_infinityField] at step
  rw [magnitude_infinityField, eq_sub_of_add_eq step.symm, overflow, mul_sub, two_mul (2 ^ 1024),
    sub_add_eq_add_sub]

/-- The interval of what rounds to the magnitude of a field. -/
structure Within (q : ℚ) (field : Nat) : Prop where
  low : Reaches field (magnitude (field - 1) + magnitude field) (2 * q)
  high : Reaches field (2 * q) (magnitude field + magnitude (field + 1))

section Distance

variable {n : Nat} {q a b : ℚ} (h : a < b)

include h

theorem abs_sub_lt_iff_left : |q - a| < |q - b| ↔ 2 * q < a + b := by
  have squares : (q - b) ^ 2 - (q - a) ^ 2 = (b - a) * (a + b - 2 * q) := by ring
  rw [← sq_lt_sq, ← sub_pos, squares, mul_pos_iff_of_pos_left (sub_pos.mpr h), sub_pos]

theorem abs_sub_lt_iff_right : |q - b| < |q - a| ↔ a + b < 2 * q := by
  have squares : (q - a) ^ 2 - (q - b) ^ 2 = (b - a) * (2 * q - (a + b)) := by ring
  rw [← sq_lt_sq, ← sub_pos, squares, mul_pos_iff_of_pos_left (sub_pos.mpr h), sub_pos]

theorem abs_sub_eq_iff : |q - a| = |q - b| ↔ 2 * q = a + b := by
  rw [← not_iff_not, ← ne_eq, ← ne_eq, lt_or_lt_iff_ne.symm, lt_or_lt_iff_ne.symm, abs_sub_lt_iff_left h,
    abs_sub_lt_iff_right h]

theorem reaches_nearer_left : Reaches n |q - a| |q - b| ↔ Reaches n (2 * q) (a + b) := by
  rw [Reaches, Reaches, abs_sub_lt_iff_left h, abs_sub_eq_iff h]

theorem reaches_nearer_right : Reaches n |q - b| |q - a| ↔ Reaches n (a + b) (2 * q) := by
  rw [Reaches, Reaches, abs_sub_lt_iff_right h, eq_comm, abs_sub_eq_iff h, eq_comm]

end Distance

theorem magnitude_pred_le {j k : Nat} (h : j < k) : magnitude j ≤ magnitude (k - 1) :=
  magnitude_strictMono.monotone (Nat.le_pred_of_lt h)

theorem magnitude_succ_le {j k : Nat} (h : k < j) : magnitude (k + 1) ≤ magnitude j :=
  magnitude_strictMono.monotone h

theorem Within.nearest {q : ℚ} {j k : Nat} (h : Within q k) (other : j ≠ k) :
    Reaches k |q - magnitude k| |q - magnitude j| := by
  rcases other.lt_or_gt with before | after
  · rw [reaches_nearer_right (magnitude_strictMono before)]
    exact h.low.le_trans (by linarith [magnitude_pred_le before])
  · rw [reaches_nearer_left (magnitude_strictMono after)]
    exact h.high.trans_le (by linarith [magnitude_succ_le after])

theorem Within.nonneg {q : ℚ} {k : Nat} (h : Within q k) : 0 ≤ q := by
  linarith [h.low.le, magnitude_nonneg (k - 1), magnitude_nonneg k]

theorem Within.lt_overflow {q : ℚ} {k : Nat} (h : Within q k) (finite : k < infinityField) : q < overflow := by
  have last := magnitude_last
  rcases Nat.lt_or_eq_of_le (Nat.le_sub_one_of_lt finite) with before | rfl
  · have step := magnitude_strictMono before
    have next := magnitude_succ_le finite
    linarith [h.high.le]
  · rcases h.high with below | ⟨-, even⟩
    · rw [Nat.sub_add_cancel (by decide)] at below
      linarith
    · exact absurd even (by decide)

/-- The intervals of two fields have no number in common: where they touch, the end belongs to the even
one. -/
theorem Within.unique {q : ℚ} {j k : Nat} (hj : Within q j) (hk : Within q k) : j = k := by
  by_contra other
  wlog before : j < k generalizing j k
  · exact this hk hj (Ne.symm other) (by omega)
  have below := magnitude_pred_le before
  have above := magnitude_succ_le before
  rcases hj.high with apart | ⟨meet, evenj⟩
  · linarith [hk.low.le]
  rcases hk.low with apart | ⟨_, evenk⟩
  · linarith
  have neighbours : magnitude (j + 1) = magnitude k := by linarith
  have next : j + 1 = k := magnitude_strictMono.injective neighbours
  omega

theorem reaches_zero {q : ℚ} (h : 0 ≤ q) : Reaches 0 (magnitude (0 - 1) + magnitude 0) (2 * q) := by
  have least : 0 ≤ 2 * q := by linarith
  rw [magnitude_zero, add_zero]
  exact least.lt_or_eq.imp_right fun meet => ⟨meet, rfl⟩

theorem within_self (k : Nat) : Within (magnitude k) k := by
  constructor
  · rcases k with _ | k
    · exact reaches_zero magnitude_zero.ge
    · have step : magnitude k < magnitude (k + 1) := magnitude_strictMono (Nat.lt_succ_self k)
      exact .of_lt (by rw [Nat.add_sub_cancel]; linarith)
  · have step : magnitude k < magnitude (k + 1) := magnitude_strictMono (Nat.lt_succ_self k)
    exact .of_lt (by linarith)

theorem Within.between {q r : ℚ} {k : Nat} (h : Within q k)
    (inside : q ≤ r ∧ r ≤ magnitude k ∨ magnitude k ≤ r ∧ r ≤ q) : Within r k := by
  have self := within_self k
  rcases inside with ⟨above, below⟩ | ⟨above, below⟩
  · exact ⟨h.low.trans_le (by linarith), self.high.le_trans (by linarith)⟩
  · exact ⟨self.low.trans_le (by linarith), h.high.le_trans (by linarith)⟩

/-- A number of the other sign is no nearer than zero. -/
theorem Within.nearest_opposite {q : ℚ} {j k : Nat} (h : Within q k) (other : -magnitude j ≠ magnitude k) :
    Reaches k |q - magnitude k| |q - -magnitude j| := by
  have away : |q - -magnitude j| = q + magnitude j := by
    rw [sub_neg_eq_add, abs_of_nonneg (add_nonneg h.nonneg (magnitude_nonneg j))]
  rw [away]
  rcases Nat.eq_zero_or_pos k with rfl | positive
  · rw [magnitude_zero] at other ⊢
    have some : 0 < magnitude j := (magnitude_nonneg j).lt_of_ne (neg_ne_zero.mp other).symm
    rw [sub_zero, abs_of_nonneg h.nonneg]
    exact .of_lt (lt_add_of_pos_right q some)
  · have zero := h.nearest positive.ne
    rw [magnitude_zero, sub_zero, abs_of_nonneg h.nonneg] at zero
    exact zero.trans_le (le_add_of_nonneg_right (magnitude_nonneg j))

/-- An interval is decided by the two neighbours, of which the first has none before it and the last none
that is finite after it. -/
theorem within_of_nearest {q : ℚ} {k : Nat} (nonneg : 0 ≤ q) (finite : k < infinityField) (bound : q < overflow)
    (nearest : ∀ j < infinityField, j ≠ k → Reaches k |q - magnitude k| |q - magnitude j|) : Within q k := by
  constructor
  · rcases k with _ | k
    · exact reaches_zero nonneg
    · have step : magnitude k < magnitude (k + 1) := magnitude_strictMono (Nat.lt_succ_self k)
      rw [Nat.add_sub_cancel, ← reaches_nearer_right step]
      exact nearest k (by omega) (by omega)
  · rcases Nat.lt_or_eq_of_le (Nat.succ_le_of_lt finite) with inner | last
    · have step : magnitude k < magnitude (k + 1) := magnitude_strictMono (Nat.lt_succ_self k)
      rw [← reaches_nearer_left step]
      exact nearest (k + 1) inner (by omega)
    · have middle := magnitude_last
      rw [← last, Nat.succ_sub_one] at middle
      exact .of_lt (by linarith)

theorem roundsTo_iff {x : Binary64} (finite : x.field < infinityField) (q : ℚ) :
    RoundsTo q x ↔ |q| < overflow ∧
      ∀ (y : Binary64) w, y.number? = some w → w ≠ signed x.isNegative (magnitude x.field) →
        Reaches x.field |q - signed x.isNegative (magnitude x.field)| |q - w| := by
  have parity (a b : ℚ) : Reaches (mantissa x.field) a b ↔ Reaches x.field a b := by
    rw [Reaches, Reaches, mantissa_mod_two]
  constructor
  · rintro ⟨negative, m, e, value, bound, nearest⟩
    rw [value_of_finite finite] at value
    cases value
    exact ⟨bound, fun y w number other => (parity _ _).mp (nearest y w number other)⟩
  · rintro ⟨bound, nearest⟩
    exact ⟨_, _, _, value_of_finite finite, bound,
      fun y w number other => (parity _ _).mpr (nearest y w number other)⟩

/-- What rounds to a finite pattern, with its sign, is the interval of its field. -/
theorem roundsTo_iff_within {q : ℚ} (nonneg : 0 ≤ q) {x : Binary64} (finite : x.field < infinityField) :
    RoundsTo (signed x.isNegative q) x ↔ Within q x.field := by
  rw [roundsTo_iff finite, abs_signed, abs_of_nonneg nonneg]
  constructor
  · rintro ⟨bound, nearest⟩
    refine within_of_nearest nonneg finite bound fun j inside other => ?_
    have apart : signed x.isNegative (magnitude j) ≠ signed x.isNegative (magnitude x.field) :=
      (signed_injective _).ne (magnitude_strictMono.injective.ne other)
    have nearer := nearest _ _ (number?_ofFields x.isNegative inside) apart
    rwa [abs_signed_sub, abs_signed_sub] at nearer
  · intro within
    refine ⟨within.lt_overflow finite, fun y w number other => ?_⟩
    rw [number?_eq_some_iff] at number
    obtain ⟨-, rfl⟩ := number
    rcases Bool.eq_or_eq_not y.isNegative x.isNegative with same | opposite
    · rw [same] at other ⊢
      rw [abs_signed_sub, abs_signed_sub]
      exact within.nearest fun equal => other (by rw [equal])
    · rw [opposite, signed_not] at other ⊢
      rw [abs_signed_sub, abs_signed_sub]
      exact within.nearest_opposite fun equal => other (by rw [equal])

end ElispBridge.Binary64
