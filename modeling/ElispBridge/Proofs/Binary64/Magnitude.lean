import ElispBridge.Binary64.Basic
import Mathlib.Algebra.Order.Field.Power
import Mathlib.Algebra.Order.Field.Rat
import Mathlib.Tactic.Linarith
import Mathlib.Tactic.Positivity
import Mathlib.Tactic.Ring
/-!
Patterns in order. Without its sign a pattern is a natural number, its field, and the next field is the next
number: the magnitude grows with the field, by one unit of the mantissa at a time.
-/

namespace ElispBridge.Binary64

def field (x : Binary64) : Nat := x.bits.toNat % twoTo 63

def mantissa (field : Nat) : Nat :=
  if field < twoTo 52 then field else twoTo 52 + field % twoTo 52

def exponent (field : Nat) : Int := minExponent + (field / twoTo 52 - 1 : Nat)

/-- What one more in the mantissa adds. -/
def spacing (field : Nat) : ℚ := 2 ^ exponent field

def magnitude (field : Nat) : ℚ := mantissa field * spacing field

theorem twoTo_52 : twoTo 52 = 4503599627370496 := by decide

theorem twoTo_53 : twoTo 53 = 9007199254740992 := by decide

theorem twoTo_63 : twoTo 63 = 9223372036854775808 := by decide

theorem infinityField_eq : infinityField = 9218868437227405312 := by decide

theorem spacing_pos (field : Nat) : 0 < spacing field := zpow_pos two_pos _

theorem mantissa_mod_two (field : Nat) : mantissa field % 2 = field % 2 := by
  unfold mantissa
  split
  · rfl
  · rw [twoTo_52]
    omega

/-- From one field to the next either the mantissa grows by one, or a full mantissa starts again with twice
the unit. -/
theorem next_field (field : Nat) :
    (mantissa (field + 1) = mantissa field + 1 ∧ exponent (field + 1) = exponent field) ∨
    (mantissa field + 1 = twoTo 53 ∧ mantissa (field + 1) = twoTo 52 ∧
      exponent (field + 1) = exponent field + 1) := by
  unfold mantissa exponent
  simp only [twoTo_52, twoTo_53]
  split <;> split <;> omega

theorem magnitude_succ (field : Nat) : magnitude (field + 1) = magnitude field + spacing field := by
  rcases next_field field with ⟨mantissa_eq, exponent_eq⟩ | ⟨full, first, exponent_eq⟩
  · rw [magnitude, magnitude, spacing, spacing, mantissa_eq, exponent_eq, Nat.cast_succ]
    ring
  · have last : (mantissa field : ℚ) = 2 ^ 53 - 1 := by
      rw [eq_sub_iff_add_eq]
      exact_mod_cast full
    have start : (mantissa (field + 1) : ℚ) = 2 ^ 52 := by exact_mod_cast first
    rw [magnitude, magnitude, spacing, spacing, start, last, exponent_eq, zpow_add_one₀ two_ne_zero]
    ring

theorem magnitude_strictMono : StrictMono magnitude := by
  apply strictMono_nat_of_lt_succ
  intro field
  rw [magnitude_succ]
  exact lt_add_of_pos_right _ (spacing_pos field)

theorem magnitude_zero : magnitude 0 = 0 := by
  have none : mantissa 0 = 0 := rfl
  rw [magnitude, none, Nat.cast_zero, zero_mul]

theorem magnitude_nonneg (field : Nat) : 0 ≤ magnitude field :=
  mul_nonneg (Nat.cast_nonneg _) (spacing_pos field).le

/-- The field before is one unit below, or half a unit where the mantissa is the first of its unit. -/
theorem spacing_before (field : Nat) : spacing field =
    (if mantissa (field + 1) = twoTo 52 ∧ minExponent < exponent (field + 1) then 1 / 2 else 1) *
      spacing (field + 1) := by
  rcases next_field field with ⟨mantissa_eq, exponent_eq⟩ | ⟨-, first, exponent_eq⟩
  · have inside : ¬ (mantissa (field + 1) = twoTo 52 ∧ minExponent < exponent (field + 1)) := by
      rintro ⟨start, above⟩
      rw [exponent_eq] at above
      rw [mantissa_eq] at start
      unfold mantissa exponent at *
      simp only [twoTo_52] at *
      split at start <;> omega
    rw [if_neg inside, one_mul, spacing, spacing, exponent_eq]
  · have above : minExponent < exponent (field + 1) := by
      rw [exponent_eq, exponent]
      omega
    rw [if_pos ⟨first, above⟩, spacing, spacing, exponent_eq, zpow_add_one₀ two_ne_zero]
    ring

section Patterns

variable (x : Binary64)

theorem toNat_bits : x.bits.toNat = (if x.isNegative then twoTo 63 else 0) + x.field := by
  have bound : x.bits.toNat < 2 ^ 64 := x.bits.toNat_lt
  unfold isNegative field
  split <;> simp_all only [decide_eq_true_eq, twoTo_63] <;> omega

theorem eq_of_field {x y : Binary64} (sign : x.isNegative = y.isNegative) (same : x.field = y.field) :
    x = y := by
  have bits : x.bits.toNat = y.bits.toNat := by rw [toNat_bits, toNat_bits, sign, same]
  exact congrArg Binary64.mk (UInt64.toNat.inj bits)

theorem exponentField_eq : x.exponentField = x.field / twoTo 52 := by
  unfold exponentField field
  rw [twoTo_52, twoTo_63, show twoTo 11 = 2048 by decide]
  omega

theorem fractionField_eq : x.fractionField = x.field % twoTo 52 := by
  unfold fractionField field
  rw [twoTo_52, twoTo_63]
  omega

theorem field_lt : x.field < twoTo 63 := Nat.mod_lt _ (twoTo_pos 63)

theorem exponentField_top : x.exponentField = twoTo 11 - 1 ↔ infinityField ≤ x.field := by
  have bound := x.field_lt
  rw [exponentField_eq, infinityField_eq, twoTo_52, show twoTo 11 - 1 = 2047 by decide]
  rw [twoTo_63] at bound
  omega

theorem value_of_finite {x : Binary64} (h : x.field < infinityField) :
    x.value = .finite x.isNegative (mantissa x.field) (exponent x.field) := by
  have top : ¬ x.exponentField = twoTo 11 - 1 := by
    rw [exponentField_top]
    exact Nat.not_le.mpr h
  rw [value, if_neg top, exponentField_eq, fractionField_eq, mantissa, exponent]
  simp only [twoTo_52]
  split
  · rename_i first
    have small : x.field < 4503599627370496 := by omega
    rw [if_pos small, Nat.mod_eq_of_lt small, first]
    rfl
  · have large : ¬ x.field < 4503599627370496 := by omega
    rw [if_neg large]
    congr 2
    omega

theorem value_of_infinite {x : Binary64} (h : x.field = infinityField) : x.value = .infinite x.isNegative := by
  have whole : x.fractionField = 0 := by
    rw [fractionField_eq, h]
    decide
  rw [value, if_pos (x.exponentField_top.mpr h.ge), if_pos whole]

theorem value_of_nan {x : Binary64} (h : infinityField < x.field) : x.value = .nan := by
  have some : ¬ x.fractionField = 0 := by
    have bound := x.field_lt
    rw [fractionField_eq, twoTo_52]
    rw [twoTo_63] at bound
    rw [infinityField_eq] at h
    omega
  rw [value, if_pos (x.exponentField_top.mpr h.le), if_neg some]

theorem toNat_ofFields (negative : Bool) {k : Nat} (h : k < twoTo 63) :
    (ofFields negative k).bits.toNat = (if negative then twoTo 63 else 0) + k := by
  rw [twoTo_63] at h
  unfold ofFields
  rw [UInt64.toNat_ofNat']
  cases negative <;> simp only [twoTo_63, Bool.false_eq_true, if_true, if_false] <;> omega

theorem field_ofFields (negative : Bool) {k : Nat} (h : k < twoTo 63) : (ofFields negative k).field = k := by
  rw [field, toNat_ofFields negative h]
  cases negative
  · rw [if_neg Bool.false_ne_true, Nat.zero_add, Nat.mod_eq_of_lt h]
  · rw [if_pos rfl, Nat.add_mod_left, Nat.mod_eq_of_lt h]

theorem isNegative_ofFields (negative : Bool) {k : Nat} (h : k < twoTo 63) :
    (ofFields negative k).isNegative = negative := by
  rw [isNegative, toNat_ofFields negative h]
  cases negative
  · simpa using h
  · simp

end Patterns

end ElispBridge.Binary64
