import ElispBridge.Power
/-!
Binary floating-point numbers of 64 bits, taken apart and put together in exact arithmetic: a finite
number is a sign and a magnitude `mantissa * 2 ^ exponent`. Rounding is to nearest, ties to the even
mantissa.
-/

namespace ElispBridge

structure Binary64 where
  bits : UInt64
deriving DecidableEq, Inhabited

namespace Binary64

/-- What a bit pattern stands for; a finite magnitude is `mantissa * 2 ^ exponent`. -/
inductive Value where
  | nan
  | infinite (negative : Bool)
  | finite (negative : Bool) (mantissa : Nat) (exponent : Int)
deriving DecidableEq, Inhabited

def isNegative (x : Binary64) : Bool := twoTo 63 ≤ x.bits.toNat

def exponentField (x : Binary64) : Nat := x.bits.toNat / twoTo 52 % twoTo 11

def fractionField (x : Binary64) : Nat := x.bits.toNat % twoTo 52

def minExponent : Int := -1074

def value (x : Binary64) : Value :=
  if x.exponentField = twoTo 11 - 1 then
    if x.fractionField = 0 then .infinite x.isNegative else .nan
  else if x.exponentField = 0 then .finite x.isNegative x.fractionField minExponent
  else .finite x.isNegative (twoTo 52 + x.fractionField) (minExponent + (x.exponentField - 1))

/-- Equality of the numbers: no NaN equals anything, and the two zeros are equal. -/
def equal (x y : Binary64) : Bool :=
  match x.value, y.value with
  | .nan, _ | _, .nan => false
  | .finite _ 0 _, .finite _ 0 _ => true
  | _, _ => x == y

def ofFields (negative : Bool) (rest : Nat) : Binary64 :=
  ⟨UInt64.ofNat (if negative then twoTo 63 + rest else rest)⟩

def infinityField : Nat := (twoTo 11 - 1) * twoTo 52

def nan : Binary64 := ofFields false (infinityField + twoTo 51)

def infinity (negative : Bool) : Binary64 := ofFields negative infinityField

/-- `num / den` to the nearest integer, a tie to the even one. -/
def roundDiv (num den : Nat) : Nat :=
  let quotient := num / den
  let twice := 2 * (num % den)
  if twice < den then quotient
  else if den < twice then quotient + 1
  else quotient + quotient % 2

/-- The exponent at which the integer part of `num / den` has 53 bits, or one less; never below the
least exponent, which is also that of zero. -/
def exponentGuess (num den : Nat) : Int :=
  if num = 0 then minExponent else max minExponent ((Nat.log2 num : Int) - Nat.log2 den - 53)

/-- `num / den` as a numerator and a denominator in units of `2 ^ exponent`. -/
def inUnits (num den : Nat) (exponent : Int) : Nat × Nat :=
  if 0 ≤ exponent then (num, den * twoTo exponent.toNat) else (num * twoTo (-exponent).toNat, den)

/-- The exponent at which the integer part of `num / den` has at most 53 bits. -/
def exponentFor (num den : Nat) : Int :=
  let guess := exponentGuess num den
  let (n, d) := inUnits num den guess
  if n / d < twoTo 53 then guess else guess + 1

/-- The number nearest to `num / den`; infinite when that is too large. A mantissa that rounds up to
`2 ^ 53` carries into the exponent field by the addition. -/
def ofRatio (negative : Bool) (num den : Nat) : Binary64 :=
  let exponent := exponentFor num den
  let (n, d) := inUnits num den exponent
  let mantissa := roundDiv n d
  let fields := (exponent - minExponent).toNat * twoTo 52 + mantissa
  if infinityField ≤ fields then infinity negative else ofFields negative fields

def ratio (mantissa : Nat) (exponent : Int) : Nat × Nat :=
  if 0 ≤ exponent then (mantissa * twoTo exponent.toNat, 1) else (mantissa, twoTo (-exponent).toNat)

/-- The number of a pattern of 32 bits: one sign bit, eight of the exponent, 23 of the fraction. -/
def ofBits32 (bits : UInt32) : Binary64 :=
  let negative := decide (twoTo 31 ≤ bits.toNat)
  let exponent : Nat := bits.toNat / twoTo 23 % twoTo 8
  let fraction : Nat := bits.toNat % twoTo 23
  if exponent = twoTo 8 - 1 then
    if fraction = 0 then infinity negative else nan
  else
    let (num, den) :=
      if exponent = 0 then ratio fraction (-149) else ratio (twoTo 23 + fraction) ((exponent : Int) - 150)
    ofRatio negative num den

/-- The number nearest to `digits * 10 ^ exponent`. Past the first two tests the result cannot be
anything but infinite or zero. -/
def ofDecimal (negative : Bool) (digits : Nat) (exponent : Int) : Binary64 :=
  if digits = 0 ∨ exponent + Nat.log2 digits < -400 then ofFields negative 0
  else if 400 < exponent then infinity negative
  else if 0 ≤ exponent then ofRatio negative (digits * tenTo exponent.toNat) 1
  else ofRatio negative digits (tenTo (-exponent).toNat)

end Binary64

end ElispBridge
