import ElispBridge.Convert.Options
import ElispBridge.Expr.Basic
/-!
Pairs of converted keys and values as an association list or a property list. In a property list a
key that is a symbol becomes a keyword.
-/

namespace ElispBridge.Expr

def alist (pairs : List (Expr × Expr)) : Expr :=
  .list (pairs.map fun (key, value) => .cons key value)

def plist (pairs : List (Expr × Expr)) : Expr :=
  .list (pairs.flatMap fun (key, value) => [key.keywordOrSelf, value])

def dictionary : DictFormat → List (Expr × Expr) → Expr
  | .alist, pairs => alist pairs
  | .plist, pairs => plist pairs

/-- A string as the symbol it names; any other converted key is its own. -/
def asKey : Expr → Expr
  | .literal (.string name) => named name
  | e => e

end ElispBridge.Expr
