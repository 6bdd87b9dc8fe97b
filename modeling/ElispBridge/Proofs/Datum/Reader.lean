import ElispBridge.Proofs.Text.Framing
import ElispBridge.Text.Blank
import Mathlib.Data.List.DropRight
/-!
A reader of data: atoms, which keep their text, string literals, lists, dotted pairs and quote marks.
`Reads text d` says that it takes exactly `text`, as `d`, from the start of any text that goes on with
a delimiter; there is one rule for each kind of datum.
-/

namespace ElispBridge

inductive Datum where
  | atom (text : String)
  | string (content : String)
  | list (items : List Datum)
  | pair (car cdr : Datum)
  | quoted (inner : Datum)
deriving Inhabited

namespace Datum

open Text (isBlank)

/-- Characters, other than blanks and control characters, that no atom holds. -/
def specialChars : List Char := ['(', ')', '[', ']', '"', '\'', '`', ',', ';', '\\']

def isDelimiter (c : Char) : Bool :=
  isBlank c || Text.Quoted.isControl c || specialChars.contains c

def word (s : List Char) : List Char := s.takeWhile fun c => !isDelimiter c

def afterWord (s : List Char) : List Char := s.dropWhile fun c => !isDelimiter c

def readAtom (s : List Char) : Option (Datum × List Char) :=
  if word s = [] ∨ word s = ['.'] then none else some (.atom (String.ofList (word s)), afterWord s)

mutual

/-- The datum at the start of a text, after blanks, and the text that follows it. -/
def readWithin : (fuel : Nat) → List Char → Option (Datum × List Char)
  | 0, _ => none
  | fuel + 1, s =>
    match s.dropWhile isBlank with
    | [] => none
    | c :: rest =>
      if c = '(' then readItems fuel [] rest
      else if c = '\'' then (readWithin fuel rest).map fun (d, left) => (.quoted d, left)
      else if c = '"' then
        (Text.Quoted.readBody rest).map fun (s, left) => (.string (String.ofList s), left)
      else readAtom (c :: rest)

/-- The rest of a list after the items `before`, up to the closing parenthesis. A datum between a dot
and that parenthesis is the tail of the last pair. -/
def readItems : (fuel : Nat) → (before : List Datum) → List Char → Option (Datum × List Char)
  | 0, _, _ => none
  | fuel + 1, before, s =>
    match s.dropWhile isBlank with
    | [] => none
    | c :: rest =>
      if c = ')' then some (.list before, rest)
      else if word (c :: rest) = ['.'] then
        match readWithin fuel rest with
        | none => none
        | some (d, left) =>
          match left.dropWhile isBlank with
          | [] => none
          | c :: left => if c = ')' then some (before.foldr .pair d, left) else none
      else
        match readWithin fuel (c :: rest) with
        | none => none
        | some (d, left) => readItems fuel (before ++ [d]) left

end

def read? (s : List Char) : Option (Datum × List Char) := readWithin s.length s

/-- Nothing of this text can belong to an atom before it. -/
def Ends (s : List Char) : Prop := ∀ c ∈ s.head?, isDelimiter c = true

structure IsAtom (text : List Char) : Prop where
  plain : ∀ c ∈ text, isDelimiter c = false
  ne_nil : text ≠ []
  ne_dot : text ≠ ['.']

def Reads (text : List Char) (d : Datum) : Prop :=
  ∀ fuel rest, Ends rest → text.length ≤ fuel → readWithin fuel (text ++ rest) = some (d, rest)

/-- The text of the items of a list, without the parentheses. -/
def ReadsItems (text : List Char) (items : List Datum) : Prop :=
  ∀ fuel before rest, text.length < fuel →
    readItems fuel before (text ++ ')' :: rest) = some (.list (before ++ items), rest)

theorem ends_nil : Ends [] := by
  intro c member
  cases member

theorem ends_cons {c : Char} (h : isDelimiter c = true) (s : List Char) : Ends (c :: s) := by
  intro d member
  cases member
  exact h

theorem ends_append {s : List Char} (h : Ends s) (rest : List Char) : Ends (s ++ ')' :: rest) := by
  cases s with
  | nil => exact ends_cons (by decide) rest
  | cons c s => exact ends_cons (h c rfl) _

theorem plain_of_any {text : List Char} (h : text.any isDelimiter = false) :
    ∀ c ∈ text, isDelimiter c = false := by
  intro c member
  exact eq_false_of_ne_true (List.any_eq_false.mp h c member)

theorem not_blank_of_plain {c : Char} (h : isDelimiter c = false) : isBlank c = false := by
  simp only [isDelimiter, Bool.or_eq_false_iff] at h
  exact h.1.1

theorem ne_of_plain {c special : Char} (h : isDelimiter c = false)
    (hs : isDelimiter special = true) : c ≠ special := by
  rintro rfl
  rw [h] at hs
  cases hs

theorem word_append {text rest : List Char} (plain : ∀ c ∈ text, isDelimiter c = false)
    (ends : Ends rest) : word (text ++ rest) = text := by
  have stop : rest.takeWhile (fun c => !isDelimiter c) = [] := by
    cases rest with
    | nil => rfl
    | cons c rest => rw [List.takeWhile_cons_of_neg (by simp [ends c rfl])]
  rw [word, List.takeWhile_append_of_pos (by simpa using plain), stop, List.append_nil]

theorem afterWord_append {text rest : List Char} (plain : ∀ c ∈ text, isDelimiter c = false)
    (ends : Ends rest) : afterWord (text ++ rest) = rest := by
  rw [afterWord, List.dropWhile_append_of_pos (by simpa using plain)]
  cases rest with
  | nil => rfl
  | cons c rest => rw [List.dropWhile_cons_of_neg (by simp [ends c rfl])]

theorem readAtom_append {text rest : List Char} (h : IsAtom text) (ends : Ends rest) :
    readAtom (text ++ rest) = some (.atom (String.ofList text), rest) := by
  rw [readAtom, word_append h.plain ends, afterWord_append h.plain ends,
    if_neg (not_or.mpr ⟨h.ne_nil, h.ne_dot⟩)]

theorem readWithin_space (fuel : Nat) (s : List Char) :
    readWithin fuel (' ' :: s) = readWithin fuel s := by
  cases fuel with
  | zero => rfl
  | succ fuel => rw [readWithin, readWithin, List.dropWhile_cons_of_pos (by decide)]

theorem readWithin_open (fuel : Nat) (rest : List Char) :
    readWithin (fuel + 1) ('(' :: rest) = readItems fuel [] rest := by
  rw [readWithin, List.dropWhile_cons_of_neg (by decide)]
  rfl

theorem readWithin_mark (fuel : Nat) (rest : List Char) :
    readWithin (fuel + 1) ('\'' :: rest) =
      (readWithin fuel rest).map fun (d, left) => (.quoted d, left) := by
  rw [readWithin, List.dropWhile_cons_of_neg (by decide)]
  rfl

theorem readWithin_literal (fuel : Nat) (rest : List Char) :
    readWithin (fuel + 1) ('"' :: rest) =
      (Text.Quoted.readBody rest).map fun (s, left) => (.string (String.ofList s), left) := by
  rw [readWithin, List.dropWhile_cons_of_neg (by decide)]
  rfl

theorem readWithin_plain {c : Char} (h : isDelimiter c = false) (fuel : Nat) (rest : List Char) :
    readWithin (fuel + 1) (c :: rest) = readAtom (c :: rest) := by
  rw [readWithin, List.dropWhile_cons_of_neg (by simp [not_blank_of_plain h])]
  simp only [ne_of_plain h (show isDelimiter '(' = true by decide),
    ne_of_plain h (show isDelimiter '\'' = true by decide),
    ne_of_plain h (show isDelimiter '"' = true by decide), ↓reduceIte]

theorem readItems_space (fuel : Nat) (before : List Datum) (s : List Char) :
    readItems fuel before (' ' :: s) = readItems fuel before s := by
  cases fuel with
  | zero => rfl
  | succ fuel => rw [readItems, readItems, List.dropWhile_cons_of_pos (by decide)]

theorem readItems_close (fuel : Nat) (before : List Datum) (rest : List Char) :
    readItems (fuel + 1) before (')' :: rest) = some (.list before, rest) := by
  rw [readItems, List.dropWhile_cons_of_neg (by decide)]
  rfl

theorem readWithin_close (fuel : Nat) (rest : List Char) :
    readWithin (fuel + 1) (')' :: rest) = none := by
  rw [readWithin, List.dropWhile_cons_of_neg (by decide)]
  rfl

theorem plain_of_word_dot {c : Char} {rest : List Char} (h : word (c :: rest) = ['.']) :
    isDelimiter c = false := by
  cases stop : isDelimiter c with
  | false => rfl
  | true =>
    rw [word, List.takeWhile_cons_of_neg (by simp [stop])] at h
    cases h

/-- What can be read as a datum is an item: it starts neither with a parenthesis that closes nor with
a dot of its own. -/
theorem readItems_item {fuel : Nat} {s left : List Char} {d : Datum} (before : List Datum)
    (h : readWithin fuel s = some (d, left)) :
    readItems (fuel + 1) before s = readItems fuel (before ++ [d]) left := by
  cases fuel with
  | zero => cases h
  | succ fuel =>
    have skipped : readWithin (fuel + 1) (s.dropWhile isBlank) = some (d, left) := by
      rw [readWithin] at h ⊢
      rwa [List.dropWhile_idempotent]
    rw [readItems]
    cases start : s.dropWhile isBlank with
    | nil =>
      rw [start, readWithin] at skipped
      cases skipped
    | cons c rest =>
      rw [start] at skipped
      have closing : c ≠ ')' := by
        rintro rfl
        rw [readWithin_close] at skipped
        cases skipped
      have dot : word (c :: rest) ≠ ['.'] := by
        intro lone
        rw [readWithin_plain (plain_of_word_dot lone), readAtom, if_pos (Or.inr lone)] at skipped
        cases skipped
      simp only [closing, dot, skipped, ↓reduceIte]

theorem readItems_dot {fuel : Nat} {s left : List Char} {d : Datum} (before : List Datum)
    (h : readWithin fuel s = some (d, ')' :: left)) :
    readItems (fuel + 1) before ('.' :: ' ' :: s) = some (before.foldr .pair d, left) := by
  have lone : word (['.'] ++ ' ' :: s) = ['.'] := word_append (plain_of_any rfl) (ends_cons rfl s)
  rw [List.singleton_append] at lone
  rw [readItems, List.dropWhile_cons_of_neg (by decide)]
  simp only [lone, readWithin_space, h, ↓reduceIte]
  rw [if_neg (by decide), List.dropWhile_cons_of_neg (by decide)]
  rfl

theorem Reads.length_pos {text : List Char} {d : Datum} (h : Reads text d) : 0 < text.length := by
  cases text with
  | nil => cases h 0 [] ends_nil (Nat.le_refl 0)
  | cons c text => exact Nat.succ_pos _

theorem ReadsItems.nil : ReadsItems [] [] := by
  intro fuel before rest enough
  obtain ⟨fuel, rfl⟩ : ∃ n, fuel = n + 1 := Nat.exists_eq_add_one.mpr enough
  rw [List.append_nil, List.nil_append, readItems_close]

theorem ReadsItems.space {text : List Char} {items : List Datum} (h : ReadsItems text items) :
    ReadsItems (' ' :: text) items := by
  intro fuel before rest enough
  rw [List.cons_append, readItems_space]
  exact h fuel before rest (Nat.lt_of_succ_lt enough)

theorem ReadsItems.cons {text more : List Char} {d : Datum} {items : List Datum} (first : Reads text d)
    (ends : Ends more) (others : ReadsItems more items) : ReadsItems (text ++ more) (d :: items) := by
  intro fuel before rest enough
  have positive := first.length_pos
  rw [List.length_append] at enough
  obtain ⟨fuel, rfl⟩ : ∃ n, fuel = n + 1 := ⟨fuel - 1, by omega⟩
  have item := first fuel (more ++ ')' :: rest) (ends_append ends rest) (by omega)
  rw [List.append_assoc, readItems_item before item, others fuel _ rest (by omega), List.append_assoc]
  rfl

theorem Reads.atom {text : List Char} (h : IsAtom text) : Reads text (.atom (String.ofList text)) := by
  intro fuel rest ends enough
  cases text with
  | nil => exact absurd rfl h.ne_nil
  | cons c text =>
    obtain ⟨fuel, rfl⟩ : ∃ n, fuel = n + 1 := Nat.exists_eq_add_one.mpr (Nat.zero_lt_of_lt enough)
    have whole := readAtom_append h ends
    rw [List.cons_append] at whole ⊢
    rw [readWithin_plain (h.plain c List.mem_cons_self), whole]

theorem Reads.string {body s : List Char} (h : Text.Quoted.Spelled body s) :
    Reads ('"' :: (body ++ ['"'])) (.string (String.ofList s)) := by
  intro fuel rest _ enough
  obtain ⟨fuel, rfl⟩ : ∃ n, fuel = n + 1 := Nat.exists_eq_add_one.mpr (Nat.zero_lt_of_lt enough)
  rw [List.cons_append, List.append_assoc, readWithin_literal, List.singleton_append, h.readBody,
    Option.map_some]

theorem Reads.quoted {text : List Char} {d : Datum} (h : Reads text d) :
    Reads ('\'' :: text) (.quoted d) := by
  intro fuel rest ends enough
  obtain ⟨fuel, rfl⟩ : ∃ n, fuel = n + 1 := Nat.exists_eq_add_one.mpr (Nat.zero_lt_of_lt enough)
  rw [List.cons_append, readWithin_mark, h fuel rest ends (Nat.le_of_succ_le_succ enough),
    Option.map_some]

theorem Reads.list {text : List Char} {items : List Datum} (h : ReadsItems text items) :
    Reads ('(' :: (text ++ [')'])) (.list items) := by
  intro fuel rest _ enough
  simp only [List.length_cons, List.length_append, List.length_nil] at enough
  obtain ⟨fuel, rfl⟩ : ∃ n, fuel = n + 1 := ⟨fuel - 1, by omega⟩
  rw [List.cons_append, List.append_assoc, readWithin_open, List.singleton_append]
  exact h fuel [] rest (by omega)

theorem Reads.pair {text more : List Char} {car cdr : Datum} (first : Reads text car)
    (second : Reads more cdr) :
    Reads ('(' :: (text ++ [' ', '.', ' '] ++ more ++ [')'])) (.pair car cdr) := by
  intro fuel rest _ enough
  simp only [List.length_cons, List.length_append, List.length_nil] at enough
  obtain ⟨fuel, rfl⟩ : ∃ n, fuel = n + 3 := ⟨fuel - 3, by omega⟩
  have item := first (fuel + 1) (' ' :: '.' :: ' ' :: (more ++ ')' :: rest)) (ends_cons (by decide) _)
    (by omega)
  have tail := second fuel (')' :: rest) (ends_cons (by decide) rest) (by omega)
  simp only [List.cons_append, List.append_assoc, List.nil_append]
  rw [readWithin_open, readItems_item [] item, readItems_space, readItems_dot _ tail]
  rfl

theorem Reads.read? {text rest : List Char} {d : Datum} (h : Reads text d) (ends : Ends rest) :
    read? (text ++ rest) = some (d, rest) := by
  refine h _ rest ends ?_
  rw [List.length_append]
  exact Nat.le_add_right _ _

end Datum

end ElispBridge
