import ElispBridge.Json.Document
/-!
The grammar of JSON text, rule by rule as it is usually written, with blanks around every value.
-/

namespace ElispBridge.Json

namespace Grammar

def Blanks (cs : List Char) : Prop := ∀ c ∈ cs, Token.isSpace c = true

def Digits (cs : List Char) : Prop := cs ≠ [] ∧ ∀ c ∈ cs, Token.isDigit c = true

/-- No digit follows a zero at the start. -/
inductive Whole : List Char → Prop
  | zero : Whole ['0']
  | digits {c : Char} {cs : List Char} : c ≠ '0' → Digits (c :: cs) → Whole (c :: cs)

inductive Fraction : List Char → Prop
  | none : Fraction []
  | digits {ds : List Char} : Digits ds → Fraction ('.' :: ds)

inductive Exponent : List Char → Prop
  | none : Exponent []
  | digits {mark : Char} {sign ds : List Char} : mark = 'e' ∨ mark = 'E' →
    sign ∈ [[], ['+'], ['-']] → Digits ds → Exponent (mark :: (sign ++ ds))

/-- The character stands for itself in a string. -/
def isPlain (c : Char) : Bool := 0x20 ≤ c.toNat && c != '"' && c != '\\'

/-- A character of a string. -/
inductive Piece : List Char → Prop
  | plain {c : Char} : isPlain c = true → Piece [c]
  | named {c : Char} : (Token.namedEscape? c).isSome = true → Piece ['\\', c]
  | code {a b c d : Char} : (Token.codeUnit? a b c d).isSome = true → Piece ['\\', 'u', a, b, c, d]

inductive Pieces : List Char → Prop
  | nil : Pieces []
  | cons {p ps : List Char} : Piece p → Pieces ps → Pieces (p ++ ps)

inductive StringText : List Char → Prop
  | quotes {ps : List Char} : Pieces ps → StringText ('"' :: (ps ++ ['"']))

mutual

inductive ValueText : List Char → Prop
  | null : ValueText ['n', 'u', 'l', 'l']
  | true : ValueText ['t', 'r', 'u', 'e']
  | false : ValueText ['f', 'a', 'l', 's', 'e']
  | whole {w f e : List Char} : Whole w → Fraction f → Exponent e → ValueText (w ++ f ++ e)
  | negative {w f e : List Char} : Whole w → Fraction f → Exponent e → ValueText ('-' :: (w ++ f ++ e))
  | string {s : List Char} : StringText s → ValueText s
  | emptyArray {bs : List Char} : Blanks bs → ValueText ('[' :: (bs ++ [']']))
  | array {items : List Char} : ItemsText items → ValueText ('[' :: (items ++ [']']))
  | emptyObject {bs : List Char} : Blanks bs → ValueText ('\x7b' :: (bs ++ ['\x7d']))
  | object {members : List Char} : MembersText members → ValueText ('\x7b' :: (members ++ ['\x7d']))

/-- A value between blanks. -/
inductive SpacedText : List Char → Prop
  | spaced {before value behind : List Char} : Blanks before → ValueText value → Blanks behind →
    SpacedText (before ++ value ++ behind)

inductive ItemsText : List Char → Prop
  | one {item : List Char} : SpacedText item → ItemsText item
  | more {item items : List Char} : SpacedText item → ItemsText items → ItemsText (item ++ ',' :: items)

inductive MemberText : List Char → Prop
  | named {before name behind value : List Char} : Blanks before → StringText name → Blanks behind →
    SpacedText value → MemberText (before ++ name ++ behind ++ ':' :: value)

inductive MembersText : List Char → Prop
  | one {member : List Char} : MemberText member → MembersText member
  | more {member members : List Char} : MemberText member → MembersText members →
    MembersText (member ++ ',' :: members)

end

theorem blanks_nil : Blanks [] := List.forall_mem_nil _

theorem blanks_space : Blanks [' '] := by
  intro c member
  rw [List.mem_singleton.mp member]
  rfl

theorem Blanks.cons {c : Char} {cs : List Char} (blank : Token.isSpace c = true) (h : Blanks cs) :
    Blanks (c :: cs) := List.forall_mem_cons.mpr ⟨blank, h⟩

theorem ValueText.spacedText {value : List Char} (h : ValueText value) : SpacedText value := by
  have spaced := SpacedText.spaced blanks_nil h blanks_nil
  rw [List.nil_append, List.append_nil] at spaced
  exact spaced

theorem SpacedText.cons {c : Char} {cs : List Char} (blank : Token.isSpace c = true) (h : SpacedText cs) :
    SpacedText (c :: cs) := by
  cases h with
  | spaced before value behind => exact .spaced (before.cons blank) value behind

theorem stringText_of_plain {cs : List Char} (plain : cs.all isPlain = true) :
    StringText ('"' :: (cs ++ ['"'])) := by
  apply StringText.quotes
  induction cs with
  | nil => exact .nil
  | cons c cs ih =>
    rw [List.all_cons, Bool.and_eq_true] at plain
    exact .cons (.plain plain.1) (ih plain.2)

theorem Whole.head_isDigit {w : List Char} (h : Whole w) : ∃ d ds, w = d :: ds ∧ Token.isDigit d = true := by
  cases h with
  | zero => exact ⟨'0', [], rfl, rfl⟩
  | @digits c cs _ digits => exact ⟨c, cs, rfl, digits.2 c List.mem_cons_self⟩

/-- Of the values only `null` starts with this letter. -/
theorem ValueText.eq_null {value cs : List Char} (h : ValueText value) (start : value = 'n' :: cs) :
    cs = ['u', 'l', 'l'] := by
  cases h with
  | null => exact (List.cons.inj start).2.symm
  | whole whole _ _ =>
    rcases whole.head_isDigit with ⟨d, ds, rfl, digit⟩
    simp only [List.cons_append, List.cons.injEq] at start
    rw [start.1] at digit
    cases digit
  | string text =>
    cases text with
    | quotes _ => cases start
  | true | false | negative | emptyArray | array | emptyObject | object => cases start

theorem ValueText.ne_nil {value : List Char} (h : ValueText value) : value ≠ [] := by
  cases h with
  | whole whole _ _ =>
    rcases whole.head_isDigit with ⟨d, ds, rfl, -⟩
    exact List.cons_ne_nil _ _
  | string text =>
    cases text with
    | quotes _ => exact List.cons_ne_nil _ _
  | null | true | false | negative | emptyArray | array | emptyObject | object =>
    exact List.cons_ne_nil _ _

theorem SpacedText.ne_nil {cs : List Char} (h : SpacedText cs) : cs ≠ [] := by
  cases h with
  | spaced _ value _ =>
    intro empty
    exact value.ne_nil (List.append_eq_nil_iff.mp (List.append_eq_nil_iff.mp empty).1).2

theorem SpacedText.null_of_start {text cs : List Char} (h : SpacedText text) (start : text = 'n' :: cs) :
    ∃ behind, cs = 'u' :: 'l' :: 'l' :: behind := by
  cases h with
  | @spaced before value behind blanks valueText _ =>
    cases before with
    | cons c before =>
      rw [(List.cons.inj start).1] at blanks
      cases blanks 'n' List.mem_cons_self
    | nil =>
      cases value with
      | nil => exact absurd rfl valueText.ne_nil
      | cons c value =>
        rcases List.cons.inj start with ⟨rfl, rfl⟩
        rw [valueText.eq_null rfl]
        exact ⟨behind, rfl⟩

end Grammar

def IsText (s : String) : Prop := Grammar.SpacedText s.toList

theorem isText_null : IsText "null" := Grammar.ValueText.spacedText .null

end ElispBridge.Json
