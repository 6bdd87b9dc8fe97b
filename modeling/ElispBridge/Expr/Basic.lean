import ElispBridge.Binary64.Basic
/-!
Syntax trees of Emacs Lisp. A quotation made by `Expr.quote` is flat: it never directly holds another
one. `Expr.FlatQuotes` says so of a whole tree.
-/

namespace ElispBridge

inductive Literal where
  | int (value : Int)
  | float (value : Binary64)
  | string (value : String)
deriving DecidableEq, Inhabited

structure Symbol where
  name : String
deriving DecidableEq, Inhabited

namespace Symbol

protected def nil : Symbol := ⟨"nil"⟩

def t : Symbol := ⟨"t"⟩

def ofBool (b : Bool) : Symbol := if b then t else Symbol.nil

def kebabName (name : String) : String :=
  String.ofList (name.toList.map fun c => if c = '_' then '-' else c)

def kebab (name : String) : Symbol := ⟨kebabName name⟩

def isKeyword (s : Symbol) : Bool := s.name.toList.head? == some ':'

def keyword (name : String) : Symbol :=
  if Symbol.isKeyword ⟨name⟩ then ⟨name⟩ else ⟨String.ofList (':' :: name.toList)⟩

def toKeyword (s : Symbol) : Symbol := keyword s.name

def isConst (s : Symbol) : Bool := s.isKeyword || s == Symbol.nil || s == t

end Symbol

inductive Expr where
  | literal (value : Literal)
  | symbol (value : Symbol)
  | cons (car cdr : Expr)
  | list (items : List Expr)
  | quoted (inner : Expr)
  | raw (source : String)
deriving Inhabited

namespace Expr

def int (n : Int) : Expr := .literal (.int n)

def float (x : Binary64) : Expr := .literal (.float x)

def string (s : String) : Expr := .literal (.string s)

def named (name : String) : Expr := .symbol ⟨name⟩

protected def nil : Expr := .symbol Symbol.nil

/-- Quotes, unless it is a quotation already. -/
def quote : Expr → Expr
  | .quoted inner => .quoted inner
  | e => .quoted e

def quoteIf (quoting : Bool) (e : Expr) : Expr := if quoting then e.quote else e

def unquote : Expr → Expr
  | .quoted inner => inner
  | e => e

def isQuoted : Expr → Bool
  | .quoted _ => true
  | _ => false

def symbol? : Expr → Option Symbol
  | .symbol s => some s
  | _ => none

def items? : Expr → Option (List Expr)
  | .list items => some items
  | _ => none

def literal? : Expr → Option Literal
  | .literal l => some l
  | _ => none

def carOrSelf : Expr → Expr
  | .cons car _ => car
  | e => e

def cdrOrSelf : Expr → Expr
  | .cons _ cdr => cdr
  | e => e

def keywordOrSelf : Expr → Expr
  | .symbol s => .symbol s.toKeyword
  | e => e

def call (function : String) (args : List Expr) : Expr := .list (named function :: args)

@[simp] theorem quote_quote (e : Expr) : e.quote.quote = e.quote := by cases e <;> rfl

theorem quote_of_isQuoted_eq_false {e : Expr} (h : e.isQuoted = false) : e.quote = .quoted e := by
  cases e with
  | quoted => cases h
  | literal | symbol | cons | list | raw => rfl

end Expr

/-- Floats are equal as numbers are, so a NaN differs from itself. -/
def Literal.equal : Literal → Literal → Bool
  | .int a, .int b => a == b
  | .float a, .float b => a.equal b
  | .string a, .string b => a == b
  | _, _ => false

mutual

/-- Equality of trees, up to the equality of floats. -/
def Expr.equal : Expr → Expr → Bool
  | .literal a, .literal b => a.equal b
  | .symbol a, .symbol b => a == b
  | .cons a b, .cons c d => a.equal c && b.equal d
  | .list as, .list bs => Expr.equalAll as bs
  | .quoted a, .quoted b => a.equal b
  | .raw a, .raw b => a == b
  | _, _ => false

def Expr.equalAll : List Expr → List Expr → Bool
  | [], [] => true
  | a :: as, b :: bs => a.equal b && Expr.equalAll as bs
  | _, _ => false

end

mutual

/-- No quotation in the tree directly holds another one. -/
def Expr.FlatQuotes : Expr → Prop
  | .literal _ | .symbol _ | .raw _ => True
  | .cons car cdr => car.FlatQuotes ∧ cdr.FlatQuotes
  | .list items => Expr.AllFlatQuotes items
  | .quoted inner => inner.isQuoted = false ∧ inner.FlatQuotes

def Expr.AllFlatQuotes : List Expr → Prop
  | [] => True
  | e :: rest => e.FlatQuotes ∧ Expr.AllFlatQuotes rest

end

theorem Expr.FlatQuotes.quote {e : Expr} (h : e.FlatQuotes) : e.quote.FlatQuotes := by
  cases e with
  | quoted => exact h
  | literal | symbol | cons | list | raw => exact ⟨rfl, h⟩

end ElispBridge
