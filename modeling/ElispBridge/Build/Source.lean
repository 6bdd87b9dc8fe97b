import ElispBridge.Expr.Basic
/-!
Code to be evaluated: text taken as it is, an expression, or a sequence of these.
-/

namespace ElispBridge

inductive Source where
  | raw (text : String)
  | expr (e : Expr)
  | sequence (items : List Source)
deriving Inhabited

namespace Source

mutual

def toExpr : Source → Expr
  | .raw text => .raw text
  | .expr e => e
  | .sequence items => .call "progn" (toExprs items)

def toExprs : List Source → List Expr
  | [] => []
  | item :: rest => item.toExpr :: toExprs rest

end

end Source

end ElispBridge
