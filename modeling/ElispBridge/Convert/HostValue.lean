import ElispBridge.Convert.Key
import ElispBridge.Json.Basic
/-!
Host values of known type and their conversion. Sequences become quoted lists, tuples plain lists,
maps dictionaries of the chosen form, and trees of syntax stay as they are. JSON converts by the kinds of
its values, with the members of an object in the order of a map.
-/

namespace ElispBridge

namespace Json

/-- The first of the three kinds of number that takes it: a signed integer, an unsigned one, a float. -/
def Number.toExpr (n : Number) : Expr :=
  match n.asI64?, n.asU64? with
  | some i, _ => .int i.toInt
  | none, some u => .int u.toNat
  | none, none => .float (n.asF64?.getD Binary64.nan)

mutual

def toExpr (options : ConvertOptions) : Json → Expr
  | .null => .nil
  | .bool b => .symbol (Symbol.ofBool b)
  | .number n => n.toExpr
  | .string s => .string s
  | .array items => (Expr.list (toExprs options items)).quote
  | .object members => .dictionary options.dictFormat
    ((Key.sorted (toPairs options members)).map fun (name, value) => (name.toExpr, value))

def toExprs (options : ConvertOptions) : List Json → List Expr
  | [] => []
  | j :: rest => j.toExpr options :: toExprs options rest

/-- The members by their names, not yet in the order of the map that holds them. -/
def toPairs (options : ConvertOptions) : List (String × Json) → List (Key × Expr)
  | [] => []
  | (name, j) :: rest => (.string name, j.toExpr options) :: toPairs options rest

end

end Json

inductive HostValue where
  | bool (b : Bool)
  | unit
  | absent
  | present (v : HostValue)
  | int (n : Int)
  | single (bits : UInt32)
  | float (x : Binary64)
  | string (s : String)
  | char (c : Char)
  | pointer (v : HostValue)
  | sequence (items : List HostValue)
  | array (items : List HostValue)
  | tuple (items : List HostValue)
  | map (entries : List (Key × HostValue))
  | json (j : Json)
  | tree (e : Expr)
deriving Inhabited

namespace HostValue

def orderedMap (entries : List (Key × HostValue)) : HostValue := .map (Key.sorted entries)

mutual

def toExpr (options : ConvertOptions) : HostValue → Expr
  | .bool b => .symbol (Symbol.ofBool b)
  | .unit | .absent => .nil
  | .present v | .pointer v => v.toExpr options
  | .int n => .int n
  | .single bits => .float (Binary64.ofBits32 bits)
  | .float x => .float x
  | .string s => .string s
  | .char c => .string (String.singleton c)
  | .sequence items | .array items => (Expr.list (toExprs options items)).quote
  | .tuple items => .list (toExprs options items)
  | .map entries => .dictionary options.dictFormat (toPairs options entries)
  | .json j => j.toExpr options
  | .tree e => e

def toExprs (options : ConvertOptions) : List HostValue → List Expr
  | [] => []
  | v :: rest => v.toExpr options :: toExprs options rest

def toPairs (options : ConvertOptions) : List (Key × HostValue) → List (Expr × Expr)
  | [] => []
  | (key, v) :: rest => (key.toExpr, v.toExpr options) :: toPairs options rest

end

/-- Text names a symbol; any other key converts as a value does, by the default options. -/
def toKey : HostValue → Expr
  | .string s => .named s
  | .char c => .named (String.singleton c)
  | .pointer v => v.toKey
  | v => v.toExpr {}

/-- What quoting a value quotes: a string is the symbol it names, but not as JSON. -/
def quoteForm : HostValue → Expr
  | .string s => .named s
  | .pointer v => v.quoteForm
  | v => v.toExpr {}

def quote (v : HostValue) : Expr := v.quoteForm.quote

/-- The dictionary of the pairs, made whatever form the options name for the maps in the values. -/
def dictionary (format : DictFormat) (options : ConvertOptions)
    (pairs : List (HostValue × HostValue)) : Expr :=
  .dictionary format (pairs.map fun (key, value) => (key.toKey, value.toExpr options))

end HostValue

end ElispBridge
