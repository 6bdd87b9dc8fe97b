import ElispBridge.Json.Basic
import ElispBridge.Json.Document
/-!
Values of JSON documents. A numeral without fraction and exponent that fits in 64 bits is an integer.
Any other is a float: its digits as far as they fit in 64 bits, rounded to a float, which is then
multiplied or divided once by the float nearest to a power of ten.
-/

namespace ElispBridge.Json

/-- Adds digits to a significand while it fits in 64 bits, and counts the digits that are left. -/
def addDigits (significand : Nat) : List Char → Nat × Nat
  | [] => (significand, 0)
  | c :: rest =>
    let next := significand * 10 + (c.toNat - '0'.toNat)
    if next < twoTo 64 then addDigits next rest else (significand, rest.length + 1)

/-- The magnitude of a number as a fraction; zero for those that are not finite. -/
def fractionOf (x : Binary64) : Nat × Nat :=
  match x.value with
  | .finite _ mantissa exponent => Binary64.ratio mantissa exponent
  | _ => (0, 1)

def product (x y : Binary64) : Binary64 :=
  let (a, b) := fractionOf x
  let (c, d) := fractionOf y
  Binary64.ofRatio false (a * c) (b * d)

def quotient (x y : Binary64) : Binary64 :=
  let (a, b) := fractionOf x
  let (c, d) := fractionOf y
  Binary64.ofRatio false (a * d) (b * c)

def maxPower : Nat := 308

def powerOfTen (k : Nat) : Binary64 := Binary64.ofRatio false (tenTo k) 1

def isZero (x : Binary64) : Bool := (fractionOf x).1 == 0

/-- Divides by ten to the `k`, by the greatest power as often as that is needed. -/
def scaleDown (x : Binary64) (k : Nat) : Binary64 :=
  if k ≤ maxPower then quotient x (powerOfTen k)
  else if isZero x then x
  else scaleDown (quotient x (powerOfTen maxPower)) (k - maxPower)
termination_by k
decreasing_by simp only [maxPower] at *; omega

/-- Multiplies by ten to the `k`, unless the product is too large. -/
def scaleUp? (x : Binary64) (k : Nat) : Option Binary64 :=
  if k ≤ maxPower then
    let y := product x (powerOfTen k)
    if y = Binary64.infinity false then none else some y
  else if isZero x then some x
  else none

def scale? (significand : Nat) (exponent : Int) : Option Binary64 :=
  let x := Binary64.ofRatio false significand 1
  if 0 ≤ exponent then scaleUp? x exponent.toNat else some (scaleDown x (-exponent).toNat)

def withSign (negative : Bool) (x : Binary64) : Binary64 :=
  Binary64.ofFields negative x.bits.toNat

def maxExponent : Nat := twoTo 31 - 1

def digitsValue (digits : List Char) : Nat :=
  digits.foldl (fun n c => n * 10 + (c.toNat - '0'.toNat)) 0

namespace Numeral

def float? (n : Numeral) : Option Binary64 :=
  let (significand, skipped) := addDigits 0 n.whole
  let (significand, ignored) := addDigits significand n.fraction
  let point : Int := (skipped : Int) - (n.fraction.length - ignored : Nat)
  match n.exponent with
  | none => (scale? significand point).map (withSign n.negative)
  | some (down, digits) =>
    let exponent := digitsValue digits
    if maxExponent < exponent then
      if significand ≠ 0 ∧ !down then none else some (Binary64.ofFields n.negative 0)
    else
      let total := if down then point - exponent else point + exponent
      (scale? significand total).map (withSign n.negative)

def number? (n : Numeral) : Option Number :=
  let (significand, skipped) := addDigits 0 n.whole
  if n.isWhole && skipped == 0 && !n.negative then some (.positive (UInt64.ofNat significand))
  else if n.isWhole && skipped == 0 && 0 < significand && significand ≤ twoTo 63 then
    some (.negative (Int64.ofInt (-significand)))
  else n.float?.map .float

end Numeral

namespace Document

mutual

/-- The value of a document, unless a string or a number in it has none. -/
def value? : Document → Option Json
  | .null => some .null
  | .bool b => some (.bool b)
  | .number n => n.number?.map .number
  | .string s => s.map .string
  | .array items => (values? items).map .array
  | .object members => (members? members).map .object

def values? : List Document → Option (List Json)
  | [] => some []
  | item :: rest =>
    match item.value?, values? rest with
    | some item, some rest => some (item :: rest)
    | _, _ => none

def members? : List (Option String × Document) → Option (List (String × Json))
  | [] => some []
  | (name, member) :: rest =>
    match name, member.value?, members? rest with
    | some name, some member, some rest => some ((name, member) :: rest)
    | _, _, _ => none

end

end Document

end ElispBridge.Json
