import ElispBridge.Text.Digit
import ElispBridge.Toml.Basic
/-!
TOML values that are written as one word: truth values, numbers, dates and times.
-/

namespace ElispBridge.Toml.Scalar

def isDigitOf (base : Nat) (c : Char) : Bool := (Text.digit? base c).isSome

/-- Digits with single underscores between them. -/
def digits? (base : Nat) : List Char → Option (List Char)
  | [] => none
  | [c] => if isDigitOf base c then some [c] else none
  | c :: '_' :: rest => if isDigitOf base c then (digits? base rest).map (c :: ·) else none
  | c :: rest => if isDigitOf base c then (digits? base rest).map (c :: ·) else none

def valueOf (base : Nat) (digits : List Char) : Nat :=
  digits.foldl (fun n c => n * base + (Text.digitValue? c).getD 0) 0

/-- A sign, and what follows it. -/
def splitSign : List Char → Option Bool × List Char
  | '+' :: rest => (some false, rest)
  | '-' :: rest => (some true, rest)
  | s => (none, s)

/-- The digits of a decimal number, which starts with no zero unless that is all of it. -/
def decimal? (s : List Char) : Option (List Char) :=
  match s with
  | '0' :: _ :: _ => none
  | s => digits? 10 s

/-- An integer of 64 bits. -/
def integer? (s : List Char) : Option Int :=
  let limit : Int := twoTo 63
  let based (base : Nat) (digits : List Char) : Option Int :=
    match digits? base digits with
    | some digits => if valueOf base digits < limit then some (valueOf base digits) else none
    | none => none
  match s with
  | '0' :: 'x' :: rest => based 16 rest
  | '0' :: 'o' :: rest => based 8 rest
  | '0' :: 'b' :: rest => based 2 rest
  | s =>
    let (sign, rest) := splitSign s
    match decimal? rest with
    | none => none
    | some digits =>
      let n : Int := if sign = some true then -(valueOf 10 digits) else valueOf 10 digits
      if -limit ≤ n ∧ n < limit then some n else none

/-- Cuts at the first character of a class, which is dropped. -/
def cutAt (isMark : Char → Bool) (s : List Char) : List Char × Option (List Char) :=
  match s.dropWhile fun c => !isMark c with
  | [] => (s, none)
  | _ :: rest => (s.takeWhile fun c => !isMark c, some rest)

/-- Digits that a mark may announce; without the mark there are none. -/
def optionalDigits? (s : Option (List Char)) : Option (List Char) :=
  match s with
  | none => some []
  | some s => digits? 10 s

/-- A number with a fraction or an exponent. Too large a positive one is refused. -/
def float? (s : List Char) : Option Binary64 :=
  let (sign, rest) := splitSign s
  let negative := sign == some true
  if rest = "inf".toList then some (Binary64.infinity negative)
  else if rest = "nan".toList then some Binary64.nan
  else
    let (mantissa, exponent) := cutAt (fun c => c == 'e' || c == 'E') rest
    let (whole, fraction) := cutAt (· == '.') mantissa
    let (down, exponentDigits) := match exponent with
      | none => (false, none)
      | some s => ((splitSign s).1 == some true, some (splitSign s).2)
    if fraction.isNone ∧ exponent.isNone then none
    else
      match decimal? whole, optionalDigits? fraction, optionalDigits? exponentDigits with
      | some whole, some fraction, some exponentDigits =>
        let scale : Int := valueOf 10 exponentDigits
        let x := Binary64.ofDecimal negative (valueOf 10 (whole ++ fraction))
          ((if down then -scale else scale) - fraction.length)
        if x = Binary64.infinity false then none else some x
      | _, _, _ => none

/-- A field of exactly `width` digits, within bounds. -/
def field? (width low high : Nat) (s : List Char) : Option Nat :=
  if s.length = width ∧ s.all (isDigitOf 10) ∧ low ≤ valueOf 10 s ∧ valueOf 10 s ≤ high then
    some (valueOf 10 s)
  else none

def isLeapYear (year : Nat) : Bool := year % 4 == 0 && (year % 100 != 0 || year % 400 == 0)

def daysIn (year month : Nat) : Nat :=
  if month = 2 then if isLeapYear year then 29 else 28
  else if month = 4 ∨ month = 6 ∨ month = 9 ∨ month = 11 then 30
  else 31

/-- A date of the form `1979-05-27`. -/
def isDate (s : List Char) : Bool :=
  match field? 4 0 9999 (s.take 4), field? 2 1 12 ((s.drop 5).take 2) with
  | some year, some month =>
    s[4]? == some '-' && s[7]? == some '-' && (field? 2 1 (daysIn year month) (s.drop 8)).isSome
  | _, _ => false

/-- Hours and minutes of the form `07:32`. -/
def isHourMinute (s : List Char) : Bool :=
  (field? 2 0 23 (s.take 2)).isSome && s[2]? == some ':' && (field? 2 0 59 (s.drop 3)).isSome

/-- A time of the form `07:32:00`, with or without a fraction. Second 60 is a leap second. -/
def isTime (s : List Char) : Bool :=
  let (clock, fraction) := cutAt (· == '.') s
  isHourMinute (clock.take 5) && s[5]? == some ':' && (field? 2 0 60 (clock.drop 6)).isSome &&
    match fraction with
    | none => true
    | some digits => !digits.isEmpty && digits.all (isDigitOf 10)

/-- A time that may name its distance from universal time. -/
def isOffsetTime (s : List Char) : Bool :=
  match s.getLast? with
  | some c =>
    if c == 'Z' || c == 'z' then isTime s.dropLast
    else
      match cutAt (fun c => c == '+' || c == '-') s with
      | (time, some offset) => isTime time && isHourMinute offset
      | (time, none) => isTime time
  | none => false

/-- A date, a time, or a date and a time with a letter or a space between. -/
def isDatetime (s : List Char) : Bool :=
  isTime s || isDate s ||
    (isDate (s.take 10) && (s[10]? == some 'T' || s[10]? == some 't' || s[10]? == some ' ') &&
      isOffsetTime (s.drop 11))

def ofWord? (word : List Char) : Option Value :=
  if word = "true".toList then some (.boolean true)
  else if word = "false".toList then some (.boolean false)
  else if isDatetime word then some (.datetime (String.ofList word))
  else
    match integer? word with
    | some n => some (.integer n)
    | none => (float? word).map .float

def isWordChar (c : Char) : Bool :=
  isDigitOf 10 c || ('a' ≤ c && c ≤ 'z') || ('A' ≤ c && c ≤ 'Z') || c == '+' || c == '-' ||
    c == '_' || c == '.' || c == ':'

/-- A date may go on after a space, if a time follows it. -/
def read (s : List Char) : Option (Value × List Char) :=
  let word := s.takeWhile isWordChar
  let rest := s.dropWhile isWordChar
  match isDate word, rest with
  | true, ' ' :: a :: b :: ':' :: _ =>
    if isDigitOf 10 a && isDigitOf 10 b then
      let time := rest.tail.takeWhile isWordChar
      (ofWord? (word ++ ' ' :: time)).map fun v => (v, rest.tail.dropWhile isWordChar)
    else (ofWord? word).map fun v => (v, rest)
  | _, _ => (ofWord? word).map fun v => (v, rest)

end ElispBridge.Toml.Scalar
