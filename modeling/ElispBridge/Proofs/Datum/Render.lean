import ElispBridge.Expr.Render
import ElispBridge.Proofs.Binary64.Token
import ElispBridge.Proofs.Datum.Reader
/-!
Reading undoes rendering. `Expr.datum` says by recursion which datum an expression is in code and in
data; the text of an expression is read as that datum, and no further.
-/

namespace ElispBridge

open Datum

/-- A name that is an atom to a reader, or the empty name, which has a spelling. -/
structure Symbol.Readable (s : Symbol) : Prop where
  plain : ∀ c ∈ s.name.toList, isDelimiter c = false
  ne_dot : s.name ≠ "."

mutual

def Expr.Readable : Expr → Prop
  | .literal _ => True
  | .symbol s => s.Readable
  | .cons car cdr => car.Readable ∧ cdr.Readable
  | .list items => Expr.AllReadable items
  | .quoted inner => inner.Readable
  | .raw _ => False

def Expr.AllReadable : List Expr → Prop
  | [] => True
  | e :: rest => e.Readable ∧ Expr.AllReadable rest

end

def Expr.isCons : Expr → Bool
  | .cons _ _ => true
  | _ => false

def Literal.datum : Literal → Datum
  | .int n => .atom (toString n)
  | .float x => .atom (String.ofList x.text)
  | .string s => .string s

mutual

/-- In code a cell is a call of `cons` and a quotation has its mark; in data a cell is a pair and a
quotation is what it quotes. The items of a list are in the context of the list, but in data if the
first one is a cell. -/
def Expr.datum : Context → Expr → Datum
  | _, .literal l => l.datum
  | _, .symbol s => .atom (if s.name = "" then "##" else s.name)
  | _, .raw source => .atom source
  | .code, .quoted inner => .quoted (inner.datum .data)
  | .data, .quoted inner => inner.datum .data
  | .code, .cons car cdr => .list [.atom "cons", car.datum .code, cdr.datum .code]
  | .data, .cons car cdr => .pair (car.datum .data) (cdr.datum .data)
  | ctx, .list items => .list (Expr.datums (if items.head?.any Expr.isCons then .data else ctx) items)

def Expr.datums : Context → List Expr → List Datum
  | _, [] => []
  | ctx, e :: rest => e.datum ctx :: Expr.datums ctx rest

end

theorem plain_of_isDigit {c : Char} (h : c.isDigit = true) : isDelimiter c = false := by
  have ascii : ∀ n < 128, (Char.ofNat n).isDigit = true → isDelimiter (Char.ofNat n) = false := by
    decide
  have bound : c.toNat < 128 := by
    simp only [Char.isDigit, Bool.and_eq_true, decide_eq_true_eq, UInt32.le_iff_toNat_le] at h
    exact Nat.lt_of_le_of_lt h.2 (by decide)
  rw [← Char.ofNat_toNat c] at h ⊢
  exact ascii c.toNat bound h

theorem isAtom_signed (negative : Bool) {digits rest : List Char} (h : Binary64.IsDigits digits)
    (plain : ∀ c ∈ rest, isDelimiter c = false) :
    IsAtom (Binary64.signText negative ++ (digits ++ rest)) := by
  refine ⟨?_, ?_, ?_⟩
  · intro c member
    rcases List.mem_append.mp member with sign | member
    · cases negative with
      | false => cases sign
      | true =>
        rw [List.mem_singleton.mp sign]
        decide
    rcases List.mem_append.mp member with digit | other
    · exact plain_of_isDigit (h.digit c digit)
    · exact plain c other
  · exact List.append_ne_nil_of_right_ne_nil _ (List.append_ne_nil_of_left_ne_nil h.ne_nil _)
  · intro dot
    cases digits with
    | nil => exact h.ne_nil rfl
    | cons d digits =>
      cases negative with
      | true => cases dot
      | false =>
        -- the first digit would have to be the dot
        rcases List.cons.inj dot with ⟨rfl, -⟩
        have point := h.digit '.' List.mem_cons_self
        cases point

theorem toList_toString_int (n : Int) : (toString n).toList =
    Binary64.signText (decide (n < 0)) ++ Nat.toDigits 10 n.natAbs := by
  rw [Int.toString_eq_repr, Int.repr_eq_if]
  by_cases negative : n < 0
  · rw [if_neg (by omega), String.toList_append, Nat.toList_repr, decide_eq_true negative,
      show (-n).toNat = n.natAbs by omega]
    rfl
  · rw [if_pos (by omega), Nat.toList_repr, decide_eq_false negative,
      show n.toNat = n.natAbs by omega]
    rfl

theorem isAtom_int (n : Int) : IsAtom (toString n).toList := by
  have plain : ∀ c ∈ ([] : List Char), isDelimiter c = false := nofun
  have whole := isAtom_signed (decide (n < 0)) (Binary64.isDigits_toDigits n.natAbs) plain
  rwa [List.append_nil, ← toList_toString_int] at whole

theorem isAtom_float {text : List Char} (h : Binary64.FloatToken text) : IsAtom text := by
  cases h with
  | decimal whole fraction =>
    refine isAtom_signed _ whole ?_
    intro c member
    rcases List.mem_cons.mp member with rfl | digit
    · decide
    · exact plain_of_isDigit (fraction.digit c digit)
  | infinite => exact isAtom_signed _ (Binary64.isDigits_toDigits 1) (plain_of_any rfl)
  | nan => exact isAtom_signed false (Binary64.isDigits_toDigits 0) (plain_of_any rfl)

theorem isAtom_symbol {s : Symbol} (h : s.Readable) : IsAtom s.chars := by
  unfold Symbol.chars
  split
  · exact ⟨plain_of_any rfl, by decide, by decide⟩
  · rename_i named
    refine ⟨h.plain, ?_, ?_⟩
    · rwa [ne_eq, String.toList_eq_nil_iff]
    · intro dot
      exact h.ne_dot (String.toList_inj.mp dot)

theorem reads_literal (l : Literal) : Reads l.chars l.datum := by
  cases l with
  | int n =>
    have whole := Reads.atom (isAtom_int n)
    rwa [String.ofList_toList] at whole
  | float x => exact Reads.atom (isAtom_float (Binary64.floatToken_text x))
  | string s =>
    have whole := Reads.string (Text.Quoted.spelled_escape s.toList)
    rwa [String.ofList_toList] at whole

theorem Symbol.spelling_eq (s : Symbol) : (if s.name = "" then "##" else s.name) = s.render := by
  unfold Symbol.render Symbol.chars
  split
  · rfl
  · rw [String.ofList_toList]

theorem Symbol.datum_eq (s : Symbol) (ctx : Context) : (Expr.symbol s).datum ctx = .atom s.render := by
  rw [Expr.datum, s.spelling_eq]

theorem Expr.datum_quote_code (e : Expr) : e.quote.datum .code = .quoted (e.datum .data) := by
  cases e <;> simp only [Expr.quote, Expr.datum]

theorem Expr.datum_quote_data (e : Expr) : e.quote.datum .data = e.datum .data := by
  cases e <;> simp only [Expr.quote, Expr.datum]

theorem reads_symbol {s : Symbol} (h : s.Readable) :
    Reads s.chars (.atom (if s.name = "" then "##" else s.name)) := by
  rw [s.spelling_eq]
  exact Reads.atom (isAtom_symbol h)

theorem Context.inside_eq (ctx : Context) (items : List Expr) :
    ctx.inside items = if items.head?.any Expr.isCons then .data else ctx := by
  cases items with
  | nil => rfl
  | cons e rest => cases e <;> rfl

theorem ends_spacedTail (ctx : Context) (items : List Expr) : Ends (Expr.spacedTail ctx items) := by
  cases items with
  | nil => exact ends_nil
  | cons e rest => exact ends_cons (by decide) _

theorem reads_call {car cdr : List Char} {d e : Datum} (first : Reads car d) (second : Reads cdr e) :
    Reads (['(', 'c', 'o', 'n', 's', ' '] ++ car ++ ' ' :: (cdr ++ [')'])) (.list [.atom "cons", d, e]) := by
  have function : Reads ['c', 'o', 'n', 's'] (.atom "cons") :=
    Reads.atom ⟨plain_of_any rfl, by decide, by decide⟩
  have last := (ReadsItems.cons second ends_nil ReadsItems.nil).space
  have items := (ReadsItems.cons first (ends_cons (by decide) _) last).space
  have whole := Reads.list (ReadsItems.cons function (ends_cons (by decide) _) items)
  simpa only [List.cons_append, List.nil_append, List.append_nil, List.append_assoc] using whole

mutual

theorem reads_chars : (ctx : Context) → (e : Expr) → e.Readable → Reads (e.chars ctx) (e.datum ctx)
  | ctx, .literal l, _ => by
    rw [Expr.chars, Expr.datum]
    exact reads_literal l
  | ctx, .symbol s, h => by
    rw [Expr.chars, Expr.datum]
    exact reads_symbol h
  -- a mark is written on the way from code to data only, so both contexts are proved at once
  | .code, .quoted inner, h => by
    have whole := reads_chars .data inner h
    rw [Expr.chars, Expr.datum]
    exact Reads.quoted whole
  | .data, .quoted inner, h => by
    rw [Expr.chars, Expr.datum]
    exact reads_chars .data inner h
  | .code, .cons car cdr, h => by
    have first := reads_chars .code car h.1
    have second := reads_chars .code cdr h.2
    rw [Expr.chars, Expr.datum]
    exact reads_call first second
  | .data, .cons car cdr, h => by
    have first := reads_chars .data car h.1
    have second := reads_chars .data cdr h.2
    rw [Expr.chars, Expr.datum]
    exact Reads.pair first second
  | ctx, .list items, h => by
    have inside := readsItems_spaced (ctx.inside items) items h
    rw [Expr.chars, Expr.datum, ← Context.inside_eq]
    exact Reads.list inside

theorem readsItems_spaced : (ctx : Context) → (items : List Expr) → Expr.AllReadable items →
    ReadsItems (Expr.spaced ctx items) (Expr.datums ctx items)
  | _, [], _ => ReadsItems.nil
  | ctx, e :: rest, h => by
    have first := reads_chars ctx e h.1
    have others := readsItems_spacedTail ctx rest h.2
    rw [Expr.spaced, Expr.datums]
    exact ReadsItems.cons first (ends_spacedTail ctx rest) others

theorem readsItems_spacedTail : (ctx : Context) → (items : List Expr) → Expr.AllReadable items →
    ReadsItems (Expr.spacedTail ctx items) (Expr.datums ctx items)
  | _, [], _ => ReadsItems.nil
  | ctx, e :: rest, h => by
    have first := reads_chars ctx e h.1
    have others := readsItems_spacedTail ctx rest h.2
    have items := ReadsItems.cons first (ends_spacedTail ctx rest) others
    rw [Expr.spacedTail, Expr.datums]
    exact ReadsItems.space items

end

/-- Rendered code, with nothing, a space or a closing parenthesis after it, is read back in full and as
the datum that the expression is. -/
theorem read_render {e : Expr} {following : List Char} (readable : e.Readable)
    (stop : following = [] ∨ following.head? = some ' ' ∨ following.head? = some ')') :
    Datum.read? (e.render.toList ++ following) = some (e.datum .code, following) := by
  have ends : Ends following := by
    intro c head
    rcases stop with rfl | space | closing
    · cases head
    · cases space.symm.trans head
      decide
    · cases closing.symm.trans head
      decide
  rw [Expr.render, String.toList_ofList]
  exact (reads_chars .code e readable).read? ends

/-- A call with a quotation in it, an association list whose key has the empty name, and a string that
ends in a quote. -/
theorem read_render_call :
    let e := Expr.list [.named "f", (Expr.list [.list [], .cons (.int 1) (.named "a.b")]).quote,
      .list [.cons (.named "") (.quoted (.named "x"))], .cons (.int (-1)) (.string "\x00\"")]
    e.Readable ∧ Datum.read? (e.render.toList ++ ") b".toList) =
      some (.list [.atom "f", .quoted (.list [.list [], .pair (.atom "1") (.atom "a.b")]),
        .list [.pair (.atom "##") (.atom "x")],
        .list [.atom "cons", .atom "-1", .string "\x00\""]], ") b".toList) := by
  have plain (name : String) (h : name.toList.any isDelimiter = false) (dot : name ≠ ".") :
      (Expr.named name).Readable := ⟨plain_of_any h, dot⟩
  intro e
  have function := plain "f" (by decide) (by decide)
  have pair : Expr.Readable (.cons (.int 1) (.named "a.b")) :=
    ⟨trivial, plain "a.b" (by decide) (by decide)⟩
  have entry : Expr.Readable (.cons (.named "") (.quoted (.named "x"))) :=
    ⟨plain "" (by decide) (by decide), plain "x" (by decide) (by decide)⟩
  have readable : e.Readable :=
    ⟨function, ⟨trivial, pair, trivial⟩, ⟨entry, trivial⟩, ⟨trivial, trivial⟩, trivial⟩
  exact ⟨readable, read_render readable (Or.inr (Or.inr (by decide)))⟩

end ElispBridge
