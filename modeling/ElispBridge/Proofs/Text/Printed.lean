import ElispBridge.Proofs.Text.Spelling
import ElispBridge.Text.Blank
/-!
Literals as a client prints them. A printer may leave a character as it is or escape it, and it may put
blanks around the literal; reading it gives the text back with its own blanks untouched.
-/

namespace ElispBridge.Text

/-- What a printer may write for a character. Three octal digits are for control characters, but any
code that has no more digits is read in the same way. -/
inductive PrintsChar : Char → List Char → Prop
  | itself {c : Char} : c ≠ '"' → c ≠ '\\' → PrintsChar c [c]
  | backslashed {c : Char} : c = '"' ∨ c = '\\' → PrintsChar c ['\\', c]
  | newline : PrintsChar '\n' ['\\', 'n']
  | formFeed : PrintsChar '\x0c' ['\\', 'f']
  | octal {c : Char} : c.toNat < 512 → PrintsChar c ('\\' :: Quoted.octalDigits c.toNat)

inductive PrintsBody : List Char → List Char → Prop
  | nil : PrintsBody [] []
  | cons {c : Char} {s u body : List Char} :
    PrintsChar c u → PrintsBody s body → PrintsBody (c :: s) (u ++ body)

inductive Prints (s : List Char) : List Char → Prop
  | literal {left body right : List Char} : (∀ c ∈ left, isBlank c = true) →
    (∀ c ∈ right, isBlank c = true) → PrintsBody s body →
    Prints s (left ++ '"' :: (body ++ '"' :: right))

theorem PrintsChar.spells {c : Char} {u : List Char} (h : PrintsChar c u) : Quoted.Spells u c := by
  cases h with
  | itself quote backslash => exact Quoted.Spells.plain quote backslash
  | backslashed special =>
    rcases special with rfl | rfl
    · exact Quoted.spells_quote
    · exact Quoted.spells_backslash
  | newline => exact Quoted.spells_named rfl
  | formFeed => exact Quoted.spells_named rfl
  | octal bound => exact Quoted.spells_octalDigits c bound

theorem PrintsBody.spelled {s body : List Char} (h : PrintsBody s body) : Quoted.Spelled body s := by
  induction h with
  | nil => exact Quoted.Spelled.nil
  | cons first _ ih => exact Quoted.Spelled.cons first.spells ih

theorem trim_padded {left right inner : List Char} {first last : Char}
    (hl : ∀ c ∈ left, isBlank c = true) (hr : ∀ c ∈ right, isBlank c = true)
    (hfirst : isBlank first = false) (hlast : isBlank last = false) :
    trim (left ++ first :: (inner ++ last :: right)) = first :: (inner ++ [last]) := by
  have front : (left ++ first :: (inner ++ last :: right)).dropWhile isBlank =
      first :: (inner ++ last :: right) := by
    rw [List.dropWhile_append_of_pos hl, List.dropWhile_cons_of_neg (by simp [hfirst])]
  have reversed : (first :: (inner ++ last :: right)).reverse =
      right.reverse ++ last :: (inner.reverse ++ [first]) := by
    simp only [List.reverse_cons, List.reverse_append, List.append_assoc, List.nil_append,
      List.cons_append]
  have back : (right.reverse ++ last :: (inner.reverse ++ [first])).dropWhile isBlank =
      last :: (inner.reverse ++ [first]) := by
    rw [List.dropWhile_append_of_pos (by simpa using hr), List.dropWhile_cons_of_neg (by simp [hlast])]
  rw [trim, front, reversed, back]
  simp only [List.reverse_cons, List.reverse_append, List.reverse_reverse, List.reverse_nil,
    List.nil_append, List.cons_append]

theorem decode_trim_of_prints {s stdout : List Char} (h : Prints s stdout) :
    Quoted.decode (trim stdout) = some s := by
  rcases h with ⟨hl, hr, body⟩
  rw [trim_padded hl hr (by decide) (by decide)]
  exact body.spelled.decode

end ElispBridge.Text
