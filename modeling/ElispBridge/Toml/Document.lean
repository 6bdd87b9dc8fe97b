import ElispBridge.Toml.Quoted
import ElispBridge.Toml.Scalar
/-!
TOML text as the statements it consists of, and as the outermost table they make. What is read is
always returned with the text after it.
-/

namespace ElispBridge.Toml

/-- How deep arrays and tables in braces may nest, and how many parts a key may have. -/
def maxDepth : Nat := 79

def skipSpaces (s : List Char) : List Char := s.dropWhile Quoted.isSpace

/-- Drops spaces, comments and line ends. What cannot be a comment is left in place. -/
def skipBlanks : (inComment : Bool) → List Char → List Char
  | _, [] => []
  | _, '\n' :: rest | _, '\r' :: '\n' :: rest => skipBlanks false rest
  | true, c :: rest => if Quoted.isText c then skipBlanks true rest else c :: rest
  | false, c :: rest =>
    if c = '#' then skipBlanks true rest
    else if Quoted.isSpace c then skipBlanks false rest
    else c :: rest

def isBareKeyChar (c : Char) : Bool :=
  ('a' ≤ c && c ≤ 'z') || ('A' ≤ c && c ≤ 'Z') || ('0' ≤ c && c ≤ '9') || c == '_' || c == '-'

/-- One part of a key: bare, or a string on one line. -/
def readKeyPart (s : List Char) : Option (String × List Char) :=
  match s with
  | '"' :: rest => (Quoted.readBasic rest).map fun (key, rest) => (String.ofList key, rest)
  | '\'' :: rest => (Quoted.readLiteral rest).map fun (key, rest) => (String.ofList key, rest)
  | s =>
    match s.takeWhile isBareKeyChar with
    | [] => none
    | key => some (String.ofList key, s.dropWhile isBareKeyChar)

/-- At most `limit` parts of a dotted key: those before the last one, and the last. -/
def readKeyParts : (limit : Nat) → List Char → Option (List String × String × List Char)
  | 0, _ => none
  | limit + 1, s =>
    match readKeyPart (skipSpaces s) with
    | none => none
    | some (part, rest) =>
      match skipSpaces rest with
      | '.' :: rest =>
        (readKeyParts limit rest).map fun (path, key, rest) => (part :: path, key, rest)
      | rest => some ([], part, rest)

def readKey (s : List Char) : Option (List String × String × List Char) := readKeyParts maxDepth s

mutual

def readValue : (fuel : Nat) → (depth : Nat) → List Char → Option (Value × List Char)
  | 0, _, _ => none
  | fuel + 1, depth, s =>
    match s with
    | '"' :: _ | '\'' :: _ => (Quoted.read s).map fun (s, rest) => (.string s, rest)
    | '[' :: rest =>
      if depth = 0 then none
      else (readItems fuel (depth - 1) rest).map fun (items, rest) => (.array items, rest)
    | '{' :: rest =>
      if depth = 0 then none
      else
        match skipSpaces rest with
        | '}' :: rest => some (.table .braces [], rest)
        | rest =>
          match readAssignments fuel (depth - 1) rest with
          | none => none
          | some (assignments, rest) =>
            (Entries.ofAssignments assignments).map fun entries => (.table .braces entries, rest)
    | s => Scalar.read s

/-- The items of an array up to its closing bracket, where a comma may stand before that. -/
def readItems : (fuel : Nat) → (depth : Nat) → List Char → Option (List Value × List Char)
  | 0, _, _ => none
  | fuel + 1, depth, s =>
    match skipBlanks false s with
    | ']' :: rest => some ([], rest)
    | s =>
      match readValue fuel depth s with
      | none => none
      | some (item, rest) =>
        match skipBlanks false rest with
        | ']' :: rest => some ([item], rest)
        | ',' :: rest => (readItems fuel depth rest).map fun (items, rest) => (item :: items, rest)
        | _ => none

/-- The entries of a table in braces up to the closing one, all on one line. -/
def readAssignments : (fuel : Nat) → (depth : Nat) → List Char →
    Option (List (List String × String × Value) × List Char)
  | 0, _, _ => none
  | fuel + 1, depth, s =>
    match readKey s with
    | some (path, key, '=' :: rest) =>
      match readValue fuel depth (skipSpaces rest) with
      | none => none
      | some (value, rest) =>
        match skipSpaces rest with
        | '}' :: rest => some ([(path, key, value)], rest)
        | ',' :: rest => (readAssignments fuel depth rest).map fun (more, rest) =>
          ((path, key, value) :: more, rest)
        | _ => none
    | _ => none

end

/-- A line may end with spaces and a comment. -/
def readLineEnd (s : List Char) : Option (List Char) :=
  let rest := match skipSpaces s with
    | '#' :: comment => comment.dropWhile Quoted.isText
    | rest => rest
  match rest with
  | [] => some []
  | '\n' :: rest | '\r' :: '\n' :: rest => some rest
  | _ => none

/-- The statement on a line that is not blank. -/
def readStatement (fuel : Nat) : List Char → Option (Statement × List Char)
  | '[' :: '[' :: rest =>
    match readKey rest with
    | some (path, key, ']' :: ']' :: rest) =>
      (readLineEnd rest).map fun rest => (.tableItem path key, rest)
    | _ => none
  | '[' :: rest =>
    match readKey rest with
    | some (path, key, ']' :: rest) => (readLineEnd rest).map fun rest => (.table path key, rest)
    | _ => none
  | s =>
    match readKey s with
    | some (path, key, '=' :: rest) =>
      match readValue fuel maxDepth (skipSpaces rest) with
      | none => none
      | some (value, rest) => (readLineEnd rest).map fun rest => (.assign path key value, rest)
    | _ => none

def readStatements : (fuel : Nat) → List Char → Option (List Statement)
  | 0, _ => none
  | fuel + 1, s =>
    match skipBlanks false s with
    | [] => some []
    | s =>
      match readStatement fuel s with
      | none => none
      | some (statement, rest) => (readStatements fuel rest).map (statement :: ·)

/-- The outermost table of a text. Every other step takes a character at least. A byte order mark in
front is dropped. -/
def parse? (text : String) : Option Entries :=
  let s := match text.toList with
    | '\ufeff' :: rest => rest
    | s => s
  (readStatements (2 * s.length + 2) s).bind Entries.ofStatements

end ElispBridge.Toml
