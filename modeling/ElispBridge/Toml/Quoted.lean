import ElispBridge.Text.Digit
/-!
TOML strings: basic ones with escapes and literal ones without, each on one line or, between three
quotes, on several.
-/

namespace ElispBridge.Toml.Quoted

/-- Everything but control characters; the tab is text. -/
def isText (c : Char) : Bool := c == '\t' || (0x20 ≤ c.toNat && c.toNat != 0x7F)

def isSpace (c : Char) : Bool := c == ' ' || c == '\t'

def charOfCode? (digits : List Char) : Option Char :=
  (digits.foldlM (fun code c => (Text.digit? 16 c).bind (Text.pushDigit? 16 code)) 0).bind
    Text.scalar?

def namedEscape? (c : Char) : Option Char :=
  if c = 'b' then some '\x08'
  else if c = 't' then some '\t'
  else if c = 'n' then some '\n'
  else if c = 'f' then some '\x0c'
  else if c = 'r' then some '\r'
  else if c = '"' then some '"'
  else if c = '\\' then some '\\'
  else none

/-- Puts a character in front of what was read after it. -/
def consRead (c : Option Char) (read : Option (List Char × List Char)) :
    Option (List Char × List Char) :=
  match c, read with
  | some c, some (s, rest) => some (c :: s, rest)
  | _, _ => none

/-- A basic string up to its closing quote, and the text after that. -/
def readBasic : List Char → Option (List Char × List Char)
  | [] => none
  | '"' :: rest => some ([], rest)
  | '\\' :: 'u' :: a :: b :: c :: d :: rest => consRead (charOfCode? [a, b, c, d]) (readBasic rest)
  | '\\' :: 'U' :: a :: b :: c :: d :: e :: f :: g :: h :: rest =>
    consRead (charOfCode? [a, b, c, d, e, f, g, h]) (readBasic rest)
  | '\\' :: c :: rest => consRead (namedEscape? c) (readBasic rest)
  | c :: rest => if isText c ∧ c ≠ '\\' then consRead (some c) (readBasic rest) else none

def readLiteral : List Char → Option (List Char × List Char)
  | [] => none
  | c :: rest =>
    if c = '\'' then some ([], rest)
    else if isText c then consRead (some c) (readLiteral rest)
    else none

/-- Whether a line ends after some spaces. -/
def endsLine (s : List Char) : Bool :=
  match s.dropWhile isSpace with
  | '\n' :: _ | '\r' :: '\n' :: _ => true
  | _ => false

/-- A basic string of several lines. Up to two quotes may stand before the three that close it. After
a backslash at the end of a line, `skipping` drops spaces and line ends. -/
def readLongBasic : (skipping : Bool) → List Char → Option (List Char × List Char)
  | _, [] => none
  | _, '"' :: '"' :: '"' :: '"' :: '"' :: rest => some (['"', '"'], rest)
  | _, '"' :: '"' :: '"' :: '"' :: rest => some (['"'], rest)
  | _, '"' :: '"' :: '"' :: rest => some ([], rest)
  | true, '\n' :: rest | true, '\r' :: '\n' :: rest | true, ' ' :: rest | true, '\t' :: rest =>
    readLongBasic true rest
  | false, '\n' :: rest | false, '\r' :: '\n' :: rest =>
    consRead (some '\n') (readLongBasic false rest)
  | _, '\\' :: 'u' :: a :: b :: c :: d :: rest =>
    consRead (charOfCode? [a, b, c, d]) (readLongBasic false rest)
  | _, '\\' :: 'U' :: a :: b :: c :: d :: e :: f :: g :: h :: rest =>
    consRead (charOfCode? [a, b, c, d, e, f, g, h]) (readLongBasic false rest)
  | _, '\\' :: c :: rest =>
    if endsLine (c :: rest) then readLongBasic true (c :: rest)
    else consRead (namedEscape? c) (readLongBasic false rest)
  | _, c :: rest =>
    if isText c ∧ c ≠ '\\' then consRead (some c) (readLongBasic false rest) else none

def readLongLiteral : List Char → Option (List Char × List Char)
  | [] => none
  | '\'' :: '\'' :: '\'' :: '\'' :: '\'' :: rest => some (['\'', '\''], rest)
  | '\'' :: '\'' :: '\'' :: '\'' :: rest => some (['\''], rest)
  | '\'' :: '\'' :: '\'' :: rest => some ([], rest)
  | '\n' :: rest | '\r' :: '\n' :: rest => consRead (some '\n') (readLongLiteral rest)
  | c :: rest => if isText c then consRead (some c) (readLongLiteral rest) else none

/-- A line end right after the opening quotes is no part of the string. -/
def dropLineEnd : List Char → List Char
  | '\n' :: rest | '\r' :: '\n' :: rest => rest
  | s => s

/-- The string that a text starts with; `none` if it starts with no quote or the string is bad. -/
def read : List Char → Option (String × List Char)
  | '"' :: '"' :: '"' :: rest =>
    (readLongBasic false (dropLineEnd rest)).map fun (s, rest) => (String.ofList s, rest)
  | '\'' :: '\'' :: '\'' :: rest =>
    (readLongLiteral (dropLineEnd rest)).map fun (s, rest) => (String.ofList s, rest)
  | '"' :: rest => (readBasic rest).map fun (s, rest) => (String.ofList s, rest)
  | '\'' :: rest => (readLiteral rest).map fun (s, rest) => (String.ofList s, rest)
  | _ => none

end ElispBridge.Toml.Quoted
