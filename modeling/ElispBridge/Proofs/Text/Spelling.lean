import ElispBridge.Text.Quoted
/-!
Texts that stand for one character inside a string literal, whatever follows them, and literals put
together from such texts. Reading a literal that was written gives back what was written.
-/

namespace ElispBridge.Text.Quoted

/-- The text stands for the character, and no reader takes more of what follows. -/
inductive Spells : List Char → Char → Prop
  | plain {c : Char} : c ≠ '"' → c ≠ '\\' → Spells [c] c
  | escaped {d c : Char} {ds : List Char} :
    (∀ rest, readEscape d (ds ++ rest) = some (some c, rest)) → Spells ('\\' :: d :: ds) c

inductive Spelled : List Char → List Char → Prop
  | nil : Spelled [] []
  | cons {u body s : List Char} {c : Char} :
    Spells u c → Spelled body s → Spelled (u ++ body) (c :: s)

theorem digit?_digitChar : ∀ d < 8, digit? 8 (Nat.digitChar d) = some d := by decide

theorem readOctal_digitChar (limit code d : Nat) (rest : List Char) (h : d < 8) :
    readOctal (limit + 1) code (Nat.digitChar d :: rest) = readOctal limit (code * 8 + d) rest := by
  rw [readOctal, digit?_digitChar d h]

theorem readEscape_digitChar (d : Nat) (rest : List Char) (h : d < 8) :
    readEscape (Nat.digitChar d) rest =
      charOf? (some (UInt32.ofNat (readOctal 2 d rest).1, (readOctal 2 d rest).2)) := by
  have named : ∀ d < 8, namedEscape? (Nat.digitChar d) = none := by decide
  have letters : ∀ d < 8, ¬ (Nat.digitChar d = '\n' ∨ Nat.digitChar d = ' ') ∧
      Nat.digitChar d ≠ 'x' ∧ Nat.digitChar d ≠ 'u' ∧ Nat.digitChar d ≠ 'U' := by decide
  rcases letters d h with ⟨blank, x, u, upperU⟩
  simp only [readEscape, named d h, blank, x, u, upperU, digit?_digitChar d h, ↓reduceIte]

theorem charOf?_toNat (c : Char) (rest : List Char) :
    charOf? (some (UInt32.ofNat c.toNat, rest)) = some (some c, rest) := by
  have code : UInt32.ofNat c.toNat = c.val := UInt32.ofNat_toNat
  simp only [charOf?, code, scalar?_val, Option.map_some]

theorem readOctal_octalDigits (code : Nat) (rest : List Char) :
    readOctal 2 (code / 64) (Nat.digitChar (code / 8 % 8) :: Nat.digitChar (code % 8) :: rest) =
      (code, rest) := by
  have value : (code / 64 * 8 + code / 8 % 8) * 8 + code % 8 = code := by omega
  rw [readOctal_digitChar _ _ _ _ (by omega), readOctal_digitChar _ _ _ _ (by omega), value, readOctal]

/-- Three digits are all that an octal escape takes, so a digit that follows is not absorbed. -/
theorem spells_octalDigits (c : Char) (h : c.toNat < 512) : Spells ('\\' :: octalDigits c.toNat) c := by
  apply Spells.escaped
  intro rest
  have first : c.toNat / 64 < 8 := by omega
  rw [List.cons_append, List.cons_append, List.nil_append, readEscape_digitChar _ _ first,
    readOctal_octalDigits]
  exact charOf?_toNat c rest

theorem spells_named {letter c : Char} (h : namedEscape? letter = some c) : Spells ['\\', letter] c := by
  apply Spells.escaped
  intro rest
  simp only [readEscape, h, List.nil_append]

theorem spells_quote : Spells ['\\', '"'] '"' := Spells.escaped fun _ => rfl

theorem spells_backslash : Spells ['\\', '\\'] '\\' := Spells.escaped fun _ => rfl

theorem toNat_lt_of_isControl {c : Char} (h : isControl c = true) : c.toNat < 128 := by
  simp only [isControl, Bool.or_eq_true, decide_eq_true_eq, beq_iff_eq] at h
  omega

theorem spells_escape (c : Char) : Spells (escape c) c := by
  unfold escape
  split
  · subst c; exact spells_quote
  split
  · subst c; exact spells_backslash
  split
  · subst c; exact spells_named rfl
  split
  · subst c; exact spells_named rfl
  split
  · subst c; exact spells_named rfl
  split
  · subst c; exact spells_named rfl
  split
  · rename_i control
    -- a control character has a code of at most three octal digits
    have bound := toNat_lt_of_isControl control
    exact spells_octalDigits c (by omega)
  · exact Spells.plain (by assumption) (by assumption)

theorem spelled_escape (s : List Char) : Spelled (s.flatMap escape) s := by
  induction s with
  | nil => exact Spelled.nil
  | cons c s ih => exact Spelled.cons (spells_escape c) ih

theorem decodeBody_plain {c : Char} (quote : c ≠ '"') (backslash : c ≠ '\\') (rest : List Char) :
    decodeBody (c :: rest) = (decodeBody rest).map (c :: ·) := by
  rw [decodeBody.eq_def]
  simp only [quote, backslash, ↓reduceIte]

theorem decodeBody_escape {d : Char} {rest left : List Char} {e : Option Char}
    (h : readEscape d rest = some (e, left)) :
    decodeBody ('\\' :: d :: rest) = (decodeBody left).map (e.toList ++ ·) := by
  rw [decodeBody, if_neg (by decide), if_pos rfl]
  split
  · rename_i refused
    rw [h] at refused
    cases refused
  · rename_i accepted
    rw [h] at accepted
    cases accepted
    rfl

theorem Spells.decodeBody {u : List Char} {c : Char} (h : Spells u c) (rest : List Char) :
    decodeBody (u ++ rest) = (decodeBody rest).map (c :: ·) := by
  cases h with
  | plain quote backslash => exact decodeBody_plain quote backslash rest
  | escaped read => exact decodeBody_escape (read rest)

theorem Spelled.decodeBody {body s : List Char} (h : Spelled body s) : decodeBody body = some s := by
  induction h with
  | nil => rw [Quoted.decodeBody]
  | cons first _ ih => rw [first.decodeBody, ih, Option.map_some]

theorem decode_quotes (body : List Char) : decode ('"' :: (body ++ ['"'])) = decodeBody body := by
  simp only [decode, List.getLast?_append, List.getLast?_singleton, Option.some_or,
    List.dropLast_concat, and_self, ↓reduceIte]

theorem Spelled.decode {body s : List Char} (h : Spelled body s) :
    decode ('"' :: (body ++ ['"'])) = some s := by
  rw [decode_quotes, h.decodeBody]

/-- Reading a string literal undoes writing it, for every string. -/
theorem decode_encode (s : List Char) : decode (encode s) = some s :=
  (spelled_escape s).decode

end ElispBridge.Text.Quoted
