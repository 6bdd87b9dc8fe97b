import ElispBridge.Convert.Dictionary
/-!
Keys of the host's ordered maps. A map lists its entries by ascending key: text by code point,
`false` before `true`, an absent number before any, pairs by their first parts and then by their
second.
-/

namespace ElispBridge

inductive Key where
  | string (s : String)
  | char (c : Char)
  | int (n : Int)
  | bool (b : Bool)
  | unit
  | optional (n : Option Int)
  | pair (n : Int) (s : String)
deriving DecidableEq, Inhabited

namespace Key

/-- The keys of one map are of one kind; kinds are ordered for the order to be total. -/
def kindRank : Key → Nat
  | string _ => 0
  | char _ => 1
  | int _ => 2
  | bool _ => 3
  | unit => 4
  | optional _ => 5
  | pair _ _ => 6

def before : Key → Key → Bool
  | string a, string b => a < b
  | char a, char b => a < b
  | int a, int b => a < b
  | bool a, bool b => !a && b
  | optional none, optional (some _) => true
  | optional (some a), optional (some b) => a < b
  | pair a s, pair b t => a < b || a == b && s < t
  | a, b => a.kindRank < b.kindRank

/-- Puts an entry in its place; the value of an equal key is replaced. -/
def insert {α : Type} (key : Key) (value : α) : List (Key × α) → List (Key × α)
  | [] => [(key, value)]
  | (k, v) :: rest =>
    if key = k then (key, value) :: rest
    else if key.before k then (key, value) :: (k, v) :: rest
    else (k, v) :: insert key value rest

def sorted {α : Type} (entries : List (Key × α)) : List (Key × α) :=
  entries.foldl (fun map (key, value) => insert key value map) []

/-- Text names a symbol; any other key converts as a value does. -/
def toExpr : Key → Expr
  | string s => .named s
  | char c => .named (String.singleton c)
  | int n => .int n
  | bool b => .symbol (Symbol.ofBool b)
  | unit | optional none => .nil
  | optional (some n) => .int n
  | pair n s => .list [.int n, .string s]

end Key

end ElispBridge
