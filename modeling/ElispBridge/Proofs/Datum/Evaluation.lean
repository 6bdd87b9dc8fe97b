import ElispBridge.Proofs.Datum.Render
/-!
Evaluation of what has been read, as far as data goes: atoms that are their own value, quotations, and
calls of `cons`. A constant written as code and the same constant under a quote mark have one value.
-/

namespace ElispBridge

/-- An object as an evaluator has it. An atom is the number or the symbol of that text. A list is pairs up
to the atom `nil`, so an empty one is that atom. -/
inductive Object where
  | atom (text : String)
  | string (content : String)
  | pair (car cdr : Object)
deriving DecidableEq, Inhabited

namespace Object

protected def nil : Object := .atom "nil"

def list (items : List Object) : Object := items.foldr .pair .nil

def unsigned : List Char → List Char
  | '+' :: s | '-' :: s => s
  | s => s

def isExponent : List Char → Bool
  | 'e' :: s | 'E' :: s =>
    s == "+INF".toList || s == "+NaN".toList || !(unsigned s).isEmpty && (unsigned s).all Char.isDigit
  | _ => false

/-- Whether `s` goes on a number after a point that comes behind the digits `whole`. With no digits on
either side it does not, and without digits of its own it has no exponent. -/
def isFraction (whole s : List Char) : Bool :=
  let exponent := s.dropWhile Char.isDigit
  if (s.takeWhile Char.isDigit).isEmpty then !whole.isEmpty && exponent.isEmpty
  else exponent.isEmpty || isExponent exponent

/-- Whether an atom is a number: digits, perhaps with a sign, a fraction or an exponent. -/
def isNumber (s : List Char) : Bool :=
  let whole := (unsigned s).takeWhile Char.isDigit
  match (unsigned s).dropWhile Char.isDigit with
  | [] => !whole.isEmpty
  | '.' :: rest => isFraction whole rest
  | rest => !whole.isEmpty && isExponent rest

/-- The names that are their own value: nil, t and every name that begins with a colon. -/
def isConstantName (name : String) : Bool := name == "nil" || name == "t" || name.toList.head? == some ':'

def selfEvaluating (text : String) : Bool := isConstantName text || isNumber text.toList

def eval? : Object → Option Object
  | .atom text => if selfEvaluating text then some (.atom text) else none
  | .string s => some (.string s)
  | .pair (.atom "quote") (.pair x (.atom "nil")) => some x
  | .pair (.atom "cons") (.pair a (.pair b (.atom "nil"))) =>
    match a.eval?, b.eval? with
    | some a, some b => some (.pair a b)
    | _, _ => none
  | .pair _ _ => none

theorem eval?_quote (x : Object) : eval? (list [.atom "quote", x]) = some x := rfl

theorem eval?_cons {a b x y : Object} (ha : a.eval? = some x) (hb : b.eval? = some y) :
    eval? (list [.atom "cons", a, b]) = some (.pair x y) := by
  simp only [list, List.foldr, Object.nil, eval?, ha, hb]

end Object

mutual

/-- The object that a datum is. A quote mark is a list of two items, with `quote` in front. -/
def Datum.object : Datum → Object
  | .atom text => .atom text
  | .string s => .string s
  | .list items => .list (Datum.objects items)
  | .pair car cdr => .pair car.object cdr.object
  | .quoted inner => .list [.atom "quote", inner.object]

def Datum.objects : List Datum → List Object
  | [] => []
  | d :: rest => d.object :: Datum.objects rest

end

/-- The value of a text that is one datum. -/
def evalText? (text : String) : Option Object :=
  match Datum.read? text.toList with
  | some (d, []) => d.object.eval?
  | _ => none

mutual

/-- The object that an expression stands for: a cell is a pair, and there are no quotations. -/
def Expr.object : Expr → Object
  | .literal (.string s) => .string s
  | .literal l => .atom l.render
  | .symbol s => .atom s.render
  | .cons car cdr => .pair car.object cdr.object
  | .list items => .list (Expr.objects items)
  | .quoted inner => inner.object
  | .raw source => .atom source

def Expr.objects : List Expr → List Object
  | [] => []
  | e :: rest => e.object :: Expr.objects rest

end

/-- Whether an expression, as code, does nothing but stand for a value. -/
def Expr.IsConstant : Expr → Prop
  | .literal _ | .quoted _ => True
  | .symbol s => Object.isConstantName s.name = true
  | .list items => items = []
  | .cons car cdr => car.IsConstant ∧ cdr.IsConstant
  | .raw _ => False

theorem Literal.object_datum (l : Literal) : l.datum.object = (Expr.literal l).object := by
  cases l with
  | int n =>
    have text : (Literal.int n).render = toString n := String.ofList_toList
    simp only [Literal.datum, Datum.object, Expr.object, text]
  | float | string => rfl

theorem Symbol.object_datum (s : Symbol) (ctx : Context) :
    ((Expr.symbol s).datum ctx).object = (Expr.symbol s).object := by
  rw [s.datum_eq, Datum.object, Expr.object]

mutual

theorem object_datum_data : ∀ e : Expr, (e.datum .data).object = e.object
  | .literal l => by rw [Expr.datum, l.object_datum]
  | .symbol s => s.object_datum .data
  | .raw _ => rfl
  | .quoted inner => by rw [Expr.datum, Expr.object, object_datum_data inner]
  | .cons car cdr => by
    rw [Expr.datum, Datum.object, Expr.object, object_datum_data car, object_datum_data cdr]
  | .list items => by rw [Expr.datum, ite_self, Datum.object, Expr.object, objects_datums_data items]

theorem objects_datums_data :
    ∀ items : List Expr, Datum.objects (Expr.datums .data items) = Expr.objects items
  | [] => rfl
  | e :: rest => by
    rw [Expr.datums, Datum.objects, Expr.objects, object_datum_data e, objects_datums_data rest]

end

namespace Object

open Binary64 (IsDigits FloatToken signText)

theorem unsigned_signText (negative : Bool) {digits : List Char} (h : IsDigits digits) (rest : List Char) :
    unsigned (signText negative ++ (digits ++ rest)) = digits ++ rest := by
  cases negative with
  | true => rfl
  | false =>
    cases digits with
    | nil => exact absurd rfl h.ne_nil
    | cons d digits =>
      have digit := h.digit d List.mem_cons_self
      have plus : d ≠ '+' := by rintro rfl; cases digit
      have minus : d ≠ '-' := by rintro rfl; cases digit
      simp only [signText, Bool.false_eq_true, ↓reduceIte, List.nil_append, List.cons_append]
      rw [unsigned]
      · exact fun rest same => plus (List.cons.inj same).1
      · exact fun rest same => minus (List.cons.inj same).1

theorem isNumber_digits (negative : Bool) {digits : List Char} (h : IsDigits digits) :
    isNumber (signText negative ++ digits) = true := by
  have signed := unsigned_signText negative h []
  rw [List.append_nil] at signed
  simp only [isNumber, signed, List.takeWhile_eq_self_iff.mpr h.digit, List.dropWhile_eq_nil_iff.mpr h.digit,
    List.isEmpty_eq_false_iff.mpr h.ne_nil, Bool.not_false]

theorem isNumber_floatToken {text : List Char} (h : FloatToken text) : isNumber text = true := by
  cases h with
  | @decimal negative whole fraction hw hf =>
    have goesOn : isFraction whole fraction = true := by
      simp only [isFraction, List.takeWhile_eq_self_iff.mpr hf.digit, List.dropWhile_eq_nil_iff.mpr hf.digit,
        List.isEmpty_eq_false_iff.mpr hf.ne_nil, Bool.false_eq_true, ↓reduceIte, List.isEmpty_nil,
        Bool.true_or]
    simp only [isNumber, unsigned_signText negative hw, hw.takeWhile_point, hw.dropWhile_point, goesOn]
  | @infinite negative => cases negative <;> decide
  | nan => decide

end Object

/-- The text of a literal is its own value. -/
theorem eval?_literal (l : Literal) : (Expr.literal l).object.eval? = some (Expr.literal l).object := by
  have number {l : Literal} (h : Object.isNumber l.chars = true) :
      (Object.atom l.render).eval? = some (.atom l.render) := by
    rw [Object.eval?, Object.selfEvaluating, Literal.render, String.toList_ofList, h, Bool.or_true]
    rfl
  cases l with
  | int n =>
    refine number ?_
    rw [Literal.chars, toList_toString_int]
    exact Object.isNumber_digits _ (Binary64.isDigits_toDigits _)
  | float x => exact number (Object.isNumber_floatToken (Binary64.floatToken_text x))
  | string s => rfl

/-- The symbols that are called constant are the names that are their own value. -/
theorem Symbol.isConst_eq (s : Symbol) : s.isConst = Object.isConstantName s.name := by
  rcases s with ⟨name⟩
  rw [Bool.eq_iff_iff]
  simp only [isConst, isKeyword, Object.isConstantName, Symbol.nil, t, Bool.or_eq_true, beq_iff_eq, mk.injEq]
  rw [or_assoc, or_comm]

theorem eval?_symbol {s : Symbol} (h : Object.isConstantName s.name = true) :
    (Expr.symbol s).object.eval? = some (Expr.symbol s).object := by
  have named : s.name ≠ "" := by
    rintro empty
    obtain ⟨_⟩ := s
    cases empty
    revert h
    decide
  have text : s.render = s.name := by rw [← s.spelling_eq, if_neg named]
  rw [Expr.object, text, Object.eval?, Object.selfEvaluating, h, Bool.true_or]
  rfl

theorem eval?_datum_quote (e : Expr) : (e.quote.datum .code).object.eval? = some e.object := by
  rw [e.datum_quote_code, Datum.object, object_datum_data, Object.eval?_quote]

theorem eval?_datum_of_constant :
    ∀ {e : Expr}, e.IsConstant → (e.datum .code).object.eval? = some e.object
  | .literal l, _ => by
    rw [Expr.datum, l.object_datum]
    exact eval?_literal l
  | .symbol s, h => by
    rw [s.object_datum]
    exact eval?_symbol h
  | .list _, h => by
    cases h
    rfl
  | .quoted inner, _ => eval?_datum_quote (.quoted inner)
  | .cons car cdr, h => by
    -- Both arguments of the call of `cons` are in code again, so they are constants as code.
    rw [Expr.datum, Expr.object]
    exact Object.eval?_cons (eval?_datum_of_constant h.1) (eval?_datum_of_constant h.2)

theorem evalText?_render {e : Expr} (h : e.Readable) : evalText? e.render = (e.datum .code).object.eval? := by
  have read := (reads_chars .code e h).read? Datum.ends_nil
  rw [List.append_nil] at read
  simp only [evalText?, Expr.render, String.toList_ofList, read]

theorem Expr.Readable.quote {e : Expr} (h : e.Readable) : e.quote.Readable := by
  cases e <;> exact h

/-- The text of a constant and the text of its quotation have one value, that of the constant, in which
a cell is a pair and no quotation is left. -/
theorem evalText?_render_constant {e : Expr} (constant : e.IsConstant) (readable : e.Readable) :
    evalText? e.render = some e.object ∧ evalText? e.quote.render = some e.object := by
  constructor
  · rw [evalText?_render readable, eval?_datum_of_constant constant]
  · rw [evalText?_render readable.quote, eval?_datum_quote]

/-- A keyword and quoted data, in which a quotation, an empty list and a list that begins with `quote`
stand side by side. -/
theorem evalText?_render_constant_cells :
    let data := Expr.list [.cons (.int (-1)) (.quoted (.named "x")), .list [],
      .list [.named "quote", .string "'y"]]
    let e := Expr.cons (.named ":k") (.cons data.quote (.list []))
    let value := Object.pair (.atom ":k") (.pair
      (.list [.pair (.atom "-1") (.atom "x"), .nil, .list [.atom "quote", .string "'y"]]) .nil)
    e.IsConstant ∧ e.Readable ∧
      evalText? e.render = some value ∧ evalText? e.quote.render = some value := by
  intro data e value
  have plain (name : String) (h : name.toList.any Datum.isDelimiter = false) (dot : name ≠ ".") :
      (Expr.named name).Readable := ⟨Datum.plain_of_any h, dot⟩
  have keyword : Object.isConstantName ":k" = true := by decide
  have constant : e.IsConstant := ⟨keyword, trivial, rfl⟩
  have entry : Expr.Readable (.cons (.int (-1)) (.quoted (.named "x"))) :=
    ⟨trivial, plain "x" (by decide) (by decide)⟩
  have quotation : Expr.Readable (.list [.named "quote", .string "'y"]) :=
    ⟨plain "quote" (by decide) (by decide), trivial, trivial⟩
  have readable : e.Readable :=
    ⟨plain ":k" (by decide) (by decide), ⟨entry, trivial, quotation, trivial⟩, trivial⟩
  have object : e.object = value := by decide
  rw [← object]
  exact ⟨constant, readable, evalText?_render_constant constant readable⟩

end ElispBridge
