import ElispBridge.Binary64.Text
import ElispBridge.Expr.Basic
import ElispBridge.Text.Quoted
/-!
Source text of an expression. In code a cons cell is a call of `cons`; in data it is a dotted pair.
A quotation switches to data, where further quotations add nothing, and so does a list headed by a
cons cell: it can never be a call, so it is an association list.
-/

namespace ElispBridge

inductive Context where
  | code
  | data
deriving DecidableEq, Inhabited

def Context.inside : Context → List Expr → Context
  | _, .cons _ _ :: _ => .data
  | ctx, _ => ctx

namespace Literal

def chars : Literal → List Char
  | .int n => (toString n).toList
  | .float x => x.text
  | .string s => Text.Quoted.encode s.toList

def render (l : Literal) : String := String.ofList l.chars

end Literal

namespace Symbol

/-- The symbol with the empty name has a spelling of its own. -/
def chars (s : Symbol) : List Char :=
  if s.name = "" then ['#', '#'] else s.name.toList

def render (s : Symbol) : String := String.ofList s.chars

end Symbol

mutual

def Expr.chars : Context → Expr → List Char
  | _, .literal l => l.chars
  | _, .symbol s => s.chars
  | _, .raw source => source.toList
  | .code, .quoted inner => '\'' :: inner.chars .data
  | .data, .quoted inner => inner.chars .data
  | .code, .cons car cdr =>
    ['(', 'c', 'o', 'n', 's', ' '] ++ car.chars .code ++ ' ' :: (cdr.chars .code ++ [')'])
  | .data, .cons car cdr =>
    '(' :: (car.chars .data ++ [' ', '.', ' '] ++ cdr.chars .data ++ [')'])
  | ctx, .list items => '(' :: (Expr.spaced (ctx.inside items) items ++ [')'])

def Expr.spaced : Context → List Expr → List Char
  | _, [] => []
  | ctx, e :: rest => e.chars ctx ++ Expr.spacedTail ctx rest

def Expr.spacedTail : Context → List Expr → List Char
  | _, [] => []
  | ctx, e :: rest => ' ' :: (e.chars ctx ++ Expr.spacedTail ctx rest)

end

@[simp] theorem Expr.chars_quote_code (e : Expr) : e.quote.chars .code = '\'' :: e.chars .data := by
  cases e <;> simp only [Expr.quote, Expr.chars]

@[simp] theorem Expr.chars_quote_data (e : Expr) : e.quote.chars .data = e.chars .data := by
  cases e <;> simp only [Expr.quote, Expr.chars]

theorem Expr.spacedTail_eq_flatMap (ctx : Context) (items : List Expr) :
    Expr.spacedTail ctx items = items.flatMap fun e => ' ' :: e.chars ctx := by
  induction items with
  | nil => rfl
  | cons e rest ih => simp only [Expr.spacedTail, ih, List.flatMap_cons, List.cons_append]

theorem Context.inside_of_ne_cons {e : Expr} (h : ∀ car cdr, e ≠ .cons car cdr) (ctx : Context)
    (rest : List Expr) : ctx.inside (e :: rest) = ctx := by
  cases e with
  | cons car cdr => exact absurd rfl (h car cdr)
  | literal | symbol | list | quoted | raw => rfl

/-- A list that is not headed by a cell is code, and so is all that stands in it. -/
theorem Expr.chars_list_of_ne_cons {e : Expr} (h : ∀ car cdr, e ≠ .cons car cdr) (rest : List Expr) :
    (Expr.list (e :: rest)).chars .code = '(' :: (e.chars .code ++ Expr.spacedTail .code rest ++ [')']) := by
  rw [Expr.chars, Context.inside_of_ne_cons h, Expr.spaced]

def Expr.render (e : Expr) : String := String.ofList (e.chars .code)

theorem Expr.toList_render (e : Expr) : e.render.toList = e.chars .code := String.toList_ofList

end ElispBridge
