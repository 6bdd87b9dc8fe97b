/-!
Digits of a base up to sixteen, code points that grow digit by digit in a 32-bit word, and the
characters that code points name.
-/

namespace ElispBridge.Text

def digitValue? (c : Char) : Option Nat :=
  if '0' ≤ c ∧ c ≤ '9' then some (c.toNat - 48)
  else if 'a' ≤ c ∧ c ≤ 'f' then some (c.toNat - 87)
  else if 'A' ≤ c ∧ c ≤ 'F' then some (c.toNat - 55)
  else none

def digit? (base : Nat) (c : Char) : Option Nat :=
  (digitValue? c).filter (· < base)

/-- A digit that would not fit in the word is refused. -/
def pushDigit? (base : Nat) (code : UInt32) (digit : Nat) : Option UInt32 :=
  let next := code.toNat * base + digit
  if next < UInt32.size then some (UInt32.ofNat next) else none

/-- Surrogates and codes above U+10FFFF name no character. -/
def scalar? (code : UInt32) : Option Char :=
  if h : code.isValidChar then some ⟨code, h⟩ else none

@[simp] theorem scalar?_val (c : Char) : scalar? c.val = some c := dif_pos c.valid

theorem val_of_scalar? {code : UInt32} {c : Char} (h : scalar? code = some c) : c.val = code := by
  unfold scalar? at h
  split at h <;> cases h
  rfl

end ElispBridge.Text
