import ElispBridge.Convert.HostValue
import ElispBridge.Expr.Render
/-!
Forms built from host values: calls with positional and keyword arguments, lists, and `let`.
-/

namespace ElispBridge

/-- A call to be. Keyword arguments come after all positional ones, each in the order added. -/
structure Call where
  function : Expr
  args : List Expr := []
  keywords : List (Symbol × Expr) := []
deriving Inhabited

namespace Call

def arg (c : Call) (v : HostValue) : Call := { c with args := c.args ++ [v.toExpr {}] }

def addArgs (c : Call) (vs : List HostValue) : Call :=
  { c with args := c.args ++ vs.map (·.toExpr {}) }

def keyword (c : Call) (name : String) (v : HostValue) : Call :=
  { c with keywords := c.keywords ++ [(Symbol.keyword (Symbol.kebabName name), v.toExpr {})] }

/-- What is added to a call at a time. -/
inductive Step where
  | arg (v : HostValue)
  | args (vs : List HostValue)
  | keyword (name : String) (v : HostValue)
deriving Inhabited

def add (c : Call) : Step → Call
  | .arg v => c.arg v
  | .args vs => c.addArgs vs
  | .keyword name v => c.keyword name v

def ofSteps (function : Expr) (steps : List Step) : Call := steps.foldl add { function }

def items (c : Call) : List Expr :=
  c.function :: c.args ++ c.keywords.flatMap fun (key, value) => [.symbol key, value]

theorem length_items (c : Call) : c.items.length = 1 + c.args.length + 2 * c.keywords.length := by
  simp only [items, List.cons_append, List.length_cons, List.length_append, List.length_flatMap,
    List.length_nil, List.map_const', List.sum_replicate_nat]
  omega

def toExpr (c : Call) : Expr := .list c.items

def render (c : Call) : String := c.toExpr.render

end Call

namespace Expr

def funcall (function : Expr) (args : List HostValue) : Expr :=
  (Call.addArgs { function } args).toExpr

def funcallKeywords (function : Expr) (args : List HostValue)
    (keywords : List (String × HostValue)) : Expr :=
  (keywords.foldl (fun c (name, v) => c.keyword name v) (Call.addArgs { function } args)).toExpr

def listOf (options : ConvertOptions) (vs : List HostValue) : Expr := .list (vs.map (·.toExpr options))

def consOf (car cdr : HostValue) : Expr := .cons (car.toExpr {}) (cdr.toExpr {})

def symbols (names : List String) (quoting : Bool) : Expr :=
  (Expr.list (names.map named)).quoteIf quoting

def letForm (bindings : List (String × HostValue)) (body : List HostValue) : Expr :=
  let binders := bindings.map fun (name, v) =>
    Expr.list [.symbol (Symbol.kebab name), v.toExpr {}]
  call "let" (.list binders :: body.map (·.toExpr {}))

end Expr

end ElispBridge
