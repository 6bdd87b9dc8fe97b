import ElispBridge.Text.Digit
/-!
JSON text as a tree that keeps what the text says: numerals by their digits, members in the order
written with repeated names, and strings that are `none` where a surrogate stands alone.
-/

namespace ElispBridge.Json

/-- A number as written: digits before and after the point, and a signed exponent. -/
structure Numeral where
  negative : Bool
  whole : List Char
  fraction : List Char
  exponent : Option (Bool × List Char)
  isWhole : Bool
deriving Inhabited

inductive Document where
  | null
  | bool (b : Bool)
  | number (n : Numeral)
  | string (s : Option String)
  | array (items : List Document)
  | object (members : List (Option String × Document))
deriving Inhabited

inductive Token where
  | openArray
  | closeArray
  | openObject
  | closeObject
  | colon
  | comma
  | null
  | bool (b : Bool)
  | number (n : Numeral)
  | string (s : Option String)
deriving Inhabited

namespace Token

def codeUnit? (a b c d : Char) : Option Nat :=
  match Text.digit? 16 a, Text.digit? 16 b, Text.digit? 16 c, Text.digit? 16 d with
  | some a, some b, some c, some d => some (((a * 16 + b) * 16 + c) * 16 + d)
  | _, _, _, _ => none

def namedEscape? (c : Char) : Option Nat :=
  if c = '"' ∨ c = '\\' ∨ c = '/' then some c.toNat
  else if c = 'b' then some 8
  else if c = 'f' then some 12
  else if c = 'n' then some 10
  else if c = 'r' then some 13
  else if c = 't' then some 9
  else none

/-- The codes of a string up to its closing quote, and the text after it. -/
def readCodes : List Char → Option (List Nat × List Char)
  | [] => none
  | '"' :: rest => some ([], rest)
  | '\\' :: 'u' :: a :: b :: c :: d :: rest =>
    match codeUnit? a b c d, readCodes rest with
    | some code, some (codes, rest) => some (code :: codes, rest)
    | _, _ => none
  | '\\' :: c :: rest =>
    match namedEscape? c, readCodes rest with
    | some code, some (codes, rest) => some (code :: codes, rest)
    | _, _ => none
  | c :: rest =>
    if c = '\\' ∨ c.toNat < 0x20 then none
    else
      match readCodes rest with
      | some (codes, rest) => some (c.toNat :: codes, rest)
      | none => none

def charsOfCodes : List Nat → Option (List Char)
  | [] => some []
  | code :: rest =>
    if 0xD800 ≤ code ∧ code < 0xDC00 then
      match rest with
      | low :: rest =>
        if 0xDC00 ≤ low ∧ low < 0xE000 then
          (charsOfCodes rest).map
            (Char.ofNat (0x10000 + (code - 0xD800) * 0x400 + (low - 0xDC00)) :: ·)
        else none
      | [] => none
    else if 0xDC00 ≤ code ∧ code < 0xE000 then none
    else (charsOfCodes rest).map (Char.ofNat code :: ·)

def isDigit (c : Char) : Bool := '0' ≤ c && c ≤ '9'

def readWhole : List Char → Option (List Char × List Char)
  | '0' :: rest => some (['0'], rest)
  | s =>
    match s.takeWhile isDigit with
    | [] => none
    | digits => some (digits, s.dropWhile isDigit)

def readDigits (s : List Char) : Option (List Char × List Char) :=
  match s.takeWhile isDigit with
  | [] => none
  | digits => some (digits, s.dropWhile isDigit)

def readFraction : List Char → Option (Option (List Char) × List Char)
  | '.' :: rest => (readDigits rest).map fun (digits, rest) => (some digits, rest)
  | rest => some (none, rest)

def readExponent : List Char → Option (Option (Bool × List Char) × List Char)
  | c :: rest =>
    if c = 'e' ∨ c = 'E' then
      match rest with
      | '+' :: rest => (readDigits rest).map fun (digits, rest) => (some (false, digits), rest)
      | '-' :: rest => (readDigits rest).map fun (digits, rest) => (some (true, digits), rest)
      | rest => (readDigits rest).map fun (digits, rest) => (some (false, digits), rest)
    else some (none, c :: rest)
  | [] => some (none, [])

def readUnsigned (negative : Bool) (s : List Char) : Option (Numeral × List Char) := do
  let (whole, s) ← readWhole s
  let (fraction, s) ← readFraction s
  let (exponent, s) ← readExponent s
  return ({ negative, whole, fraction := fraction.getD [], exponent
            isWhole := fraction.isNone && exponent.isNone }, s)

def readNumeral : List Char → Option (Numeral × List Char)
  | '-' :: rest => readUnsigned true rest
  | s => readUnsigned false s

/-- The token at the start of a text that starts with no blank, and the text after it. -/
def read : List Char → Option (Token × List Char)
  | '[' :: rest => some (openArray, rest)
  | ']' :: rest => some (closeArray, rest)
  | '{' :: rest => some (openObject, rest)
  | '}' :: rest => some (closeObject, rest)
  | ':' :: rest => some (colon, rest)
  | ',' :: rest => some (comma, rest)
  | 'n' :: 'u' :: 'l' :: 'l' :: rest => some (null, rest)
  | 't' :: 'r' :: 'u' :: 'e' :: rest => some (bool true, rest)
  | 'f' :: 'a' :: 'l' :: 's' :: 'e' :: rest => some (bool false, rest)
  | '"' :: rest => (readCodes rest).map fun (codes, rest) =>
    (string ((charsOfCodes codes).map String.ofList), rest)
  | s => (readNumeral s).map fun (n, rest) => (number n, rest)

def isSpace (c : Char) : Bool := c == ' ' || c == '\n' || c == '\t' || c == '\r'

/-- The tokens of a text; each takes at least one character, so its length bounds their number. -/
def readAll : (fuel : Nat) → List Char → Option (List Token)
  | 0, s => if s.all isSpace then some [] else none
  | fuel + 1, s =>
    match s.dropWhile isSpace with
    | [] => some []
    | s =>
      match read s with
      | none => none
      | some (token, rest) => (readAll fuel rest).map (token :: ·)

end Token

namespace Document

mutual

def ofTokens : (fuel : Nat) → List Token → Option (Document × List Token)
  | _, .null :: rest => some (.null, rest)
  | _, .bool b :: rest => some (.bool b, rest)
  | _, .number n :: rest => some (.number n, rest)
  | _, .string s :: rest => some (.string s, rest)
  | _, .openArray :: .closeArray :: rest => some (.array [], rest)
  | _, .openObject :: .closeObject :: rest => some (.object [], rest)
  | fuel + 1, .openArray :: rest =>
    (itemsOfTokens fuel rest).map fun (items, rest) => (.array items, rest)
  | fuel + 1, .openObject :: rest =>
    (membersOfTokens fuel rest).map fun (members, rest) => (.object members, rest)
  | _, _ => none

def itemsOfTokens : (fuel : Nat) → List Token → Option (List Document × List Token)
  | 0, _ => none
  | fuel + 1, tokens =>
    match ofTokens fuel tokens with
    | some (item, .closeArray :: rest) => some ([item], rest)
    | some (item, .comma :: rest) =>
      (itemsOfTokens fuel rest).map fun (items, rest) => (item :: items, rest)
    | _ => none

def membersOfTokens :
    (fuel : Nat) → List Token → Option (List (Option String × Document) × List Token)
  | fuel + 1, .string name :: .colon :: tokens =>
    match ofTokens fuel tokens with
    | some (value, .closeObject :: rest) => some ([(name, value)], rest)
    | some (value, .comma :: rest) =>
      (membersOfTokens fuel rest).map fun (members, rest) => ((name, value) :: members, rest)
    | _ => none
  | _, _ => none

end

/-- The document that a whole text is. Each token takes at most two steps to read. -/
def parse? (text : String) : Option Document :=
  let chars := text.toList
  match Token.readAll chars.length chars with
  | none => none
  | some tokens =>
    match ofTokens (2 * tokens.length + 2) tokens with
    | some (document, []) => some document
    | _ => none

end Document

end ElispBridge.Json
