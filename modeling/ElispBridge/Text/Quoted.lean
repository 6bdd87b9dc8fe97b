import ElispBridge.Text.Digit
/-!
String literals: text between double quotes with backslash escapes. Writing uses the named escapes
of quote, backslash, newline, tab, return and form feed, and three octal digits for every other
ASCII control character, so that a digit that follows is never absorbed. Reading accepts every
escape the evaluator's reader knows.
-/

namespace ElispBridge.Text.Quoted

def isControl (c : Char) : Bool := c.toNat < 32 || c.toNat == 127

def octalDigits (code : Nat) : List Char :=
  [Nat.digitChar (code / 64), Nat.digitChar (code / 8 % 8), Nat.digitChar (code % 8)]

def escape (c : Char) : List Char :=
  if c = '"' then ['\\', '"']
  else if c = '\\' then ['\\', '\\']
  else if c = '\n' then ['\\', 'n']
  else if c = '\t' then ['\\', 't']
  else if c = '\r' then ['\\', 'r']
  else if c = '\x0c' then ['\\', 'f']
  else if isControl c then '\\' :: octalDigits c.toNat
  else [c]

def encode (s : List Char) : List Char :=
  '"' :: (s.flatMap escape ++ ['"'])

def namedEscape? (c : Char) : Option Char :=
  if c = 'n' then some '\n'
  else if c = 't' then some '\t'
  else if c = 'r' then some '\r'
  else if c = 'f' then some '\x0c'
  else if c = 'a' then some '\x07'
  else if c = 'b' then some '\x08'
  else if c = 'v' then some '\x0b'
  else if c = 'e' then some '\x1b'
  else if c = 'd' then some '\x7f'
  else if c = 's' then some ' '
  else none

def readOctal : (limit : Nat) → (code : Nat) → List Char → Nat × List Char
  | 0, code, rest => (code, rest)
  | _ + 1, code, [] => (code, [])
  | limit + 1, code, c :: rest =>
    match digit? 8 c with
    | some d => readOctal limit (code * 8 + d) rest
    | none => (code, c :: rest)

/-- All digits that come next: how many they are, the code that they write, and the text left over. The
count is a signed word, which wraps around. -/
def readHexRun (count : Int32) (code : UInt32) : List Char → Option (Int32 × UInt32 × List Char)
  | [] => some (count, code, [])
  | c :: rest =>
    match digit? 16 c with
    | none => some (count, code, c :: rest)
    | some d =>
      match pushDigit? 16 code d with
      | some next => readHexRun (count + 1) next rest
      | none => none

/-- Whether the count wraps around. Where sums are checked, reading stops there for good. -/
def hexRunOverflows (count : Int32) (code : UInt32) : List Char → Bool
  | [] => false
  | c :: rest =>
    match digit? 16 c with
    | none => false
    | some d =>
      match pushDigit? 16 code d with
      | some next => count == Int32.maxValue || hexRunOverflows (count + 1) next rest
      | none => false

def readHex : (count : Nat) → (code : UInt32) → List Char → Option (UInt32 × List Char)
  | 0, code, rest => some (code, rest)
  | _ + 1, _, [] => none
  | count + 1, code, c :: rest =>
    match digit? 16 c with
    | none => none
    | some d =>
      match pushDigit? 16 code d with
      | some next => readHex count next rest
      | none => none

def charOf? : Option (UInt32 × List Char) → Option (Option Char × List Char)
  | none => none
  | some (code, rest) => (scalar? code).map fun c => (some c, rest)

/-- A run whose count is zero is refused. -/
def readHexEscape (rest : List Char) : Option (Option Char × List Char) :=
  match readHexRun 0 0 rest with
  | none => none
  | some (count, code, rest) => if count = 0 then none else charOf? (some (code, rest))

/-- What a backslash and `c` stand for, given the text after them: perhaps a character, and the
text left over. A newline or a space stands for nothing. -/
def readEscape (c : Char) (rest : List Char) : Option (Option Char × List Char) :=
  match namedEscape? c with
  | some d => some (some d, rest)
  | none =>
    if c = '\n' ∨ c = ' ' then some (none, rest)
    else if c = 'x' then readHexEscape rest
    else if c = 'u' then charOf? (readHex 4 0 rest)
    else if c = 'U' then charOf? (readHex 8 0 rest)
    else
      match digit? 8 c with
      | some d =>
        let (code, rest) := readOctal 2 d rest
        charOf? (some (UInt32.ofNat code, rest))
      | none => some (some c, rest)

theorem readOctal_length (limit code : Nat) (s : List Char) :
    (readOctal limit code s).2.length ≤ s.length := by
  fun_induction readOctal limit code s with
  | case1 => exact Nat.le_refl _
  | case2 => exact Nat.le_refl _
  | case3 _ _ _ _ _ _ ih => simp only [List.length_cons]; omega
  | case4 => exact Nat.le_refl _

theorem readHexRun_length {count : Int32} {code : UInt32} {s : List Char} {r : Int32 × UInt32 × List Char}
    (h : readHexRun count code s = some r) : r.2.2.length ≤ s.length := by
  fun_induction readHexRun count code s with
  | case1 => cases h; exact Nat.le_refl _
  | case2 => cases h; exact Nat.le_refl _
  | case3 _ _ _ _ _ _ _ _ ih => have := ih h; simp only [List.length_cons]; omega
  | case4 => cases h

theorem readHex_length {count : Nat} {code : UInt32} {s : List Char} {r : UInt32 × List Char}
    (h : readHex count code s = some r) : r.2.length ≤ s.length := by
  fun_induction readHex count code s with
  | case1 => cases h; exact Nat.le_refl _
  | case2 => cases h
  | case3 => cases h
  | case4 _ _ _ _ _ _ _ _ ih => have := ih h; simp only [List.length_cons]; omega
  | case5 => cases h

theorem charOf?_length {read : Option (UInt32 × List Char)} {bound : Nat}
    {r : Option Char × List Char} (h : charOf? read = some r)
    (hr : ∀ p, read = some p → p.2.length ≤ bound) : r.2.length ≤ bound := by
  cases read with
  | none => cases h
  | some p =>
    obtain ⟨c, -, rfl⟩ := Option.map_eq_some_iff.1 h
    exact hr p rfl

theorem readHexEscape_length {rest : List Char} {r : Option Char × List Char}
    (h : readHexEscape rest = some r) : r.2.length ≤ rest.length := by
  unfold readHexEscape at h
  split at h
  · cases h
  rename_i run
  split at h
  · cases h
  · refine charOf?_length h fun p same => ?_
    cases same
    exact readHexRun_length run

theorem readEscape_length {c : Char} {rest : List Char} {r : Option Char × List Char}
    (h : readEscape c rest = some r) : r.2.length ≤ rest.length := by
  unfold readEscape at h
  split at h
  · cases h; exact Nat.le_refl _
  split at h
  · cases h; exact Nat.le_refl _
  split at h
  · exact readHexEscape_length h
  split at h
  · exact charOf?_length h fun _ => readHex_length
  split at h
  · exact charOf?_length h fun _ => readHex_length
  split at h
  · exact charOf?_length h fun p hp => by cases hp; exact readOctal_length _ _ _
  · cases h; exact Nat.le_refl _

/-- A quote inside the body and a backslash at its end are refused. -/
def decodeBody : List Char → Option (List Char)
  | [] => some []
  | c :: rest =>
    if c = '"' then none
    else if c = '\\' then
      match rest with
      | [] => none
      | d :: rest =>
        match _h : readEscape d rest with
        | none => none
        | some (e, rest) => (decodeBody rest).map (e.toList ++ ·)
    else (decodeBody rest).map (c :: ·)
termination_by s => s.length
decreasing_by
  · have := readEscape_length _h
    simp only [List.length_cons] at *
    omega
  · simp

/-- The body lies between the first and the last character, both of them quotes. -/
def decode : List Char → Option (List Char)
  | [] => none
  | c :: rest => if c = '"' ∧ rest.getLast? = some '"' then decodeBody rest.dropLast else none

/-- Whether the count of some run wraps around while the body is read. -/
def bodyOverflows : List Char → Bool
  | [] => false
  | c :: rest =>
    if c = '"' then false
    else if c = '\\' then
      match rest with
      | [] => false
      | d :: rest =>
        (d = 'x' && hexRunOverflows 0 0 rest) ||
          match _h : readEscape d rest with
          | none => false
          | some (_, rest) => bodyOverflows rest
    else bodyOverflows rest
termination_by s => s.length
decreasing_by
  · have := readEscape_length _h
    simp only [List.length_cons] at *
    omega
  · simp

def overflows : List Char → Bool
  | [] => false
  | c :: rest => decide (c = '"' ∧ rest.getLast? = some '"') && bodyOverflows rest.dropLast

end ElispBridge.Text.Quoted
