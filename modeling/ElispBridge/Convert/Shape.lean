import ElispBridge.Convert.HostValue
/-!
Values that describe themselves at run time, and their conversion, which fails on the kinds outside
the domain: byte strings, structures, variants and integers too wide. A map describes itself as a
sequence of keys and values, where each value belongs to the key just before it.
-/

namespace ElispBridge

mutual

inductive Shape where
  | bool (b : Bool)
  | int (n : Int)
  | wide (n : Nat)
  | single (bits : UInt32)
  | float (x : Binary64)
  | text (s : String)
  | bytes (content : List UInt8)
  | absent
  | present (inner : Shape)
  | unit
  | unitStruct (name : String)
  | unitVariant (name variant : String)
  | newtype (name : String) (inner : Shape)
  | newtypeVariant (name variant : String) (inner : Shape)
  | sequence (items : List Shape)
  | tuple (items : List Shape)
  | tupleStruct (name : String) (items : List Shape)
  | tupleVariant (name variant : String) (items : List Shape)
  | map (steps : List MapStep)
  | struct (name : String)
  | structVariant (name variant : String)
  | failure (message : String)

inductive MapStep where
  | key (k : Shape)
  | value (v : Shape)

end

instance : Inhabited Shape := ⟨.unit⟩

namespace Shape

def unsupportedVariant {α : Type} (name variant : String) : Except ConversionError α :=
  .error (.unsupportedType (name ++ "::" ++ variant))

def maxInt : Nat := twoTo 127 - 1

def valueBeforeKey : ConversionError := .custom "map value serialized before its key"

mutual

def convert (options : ConvertOptions) : Shape → Except ConversionError Expr
  | .bool b => .ok (.symbol (Symbol.ofBool b))
  | .int n => .ok (.int n)
  | .wide n => if n ≤ maxInt then .ok (.int n) else .error (.integerOutOfRange n)
  | .single bits => .ok (.float (Binary64.ofBits32 bits))
  | .float x => .ok (.float x)
  | .text s => .ok (.string s)
  | .bytes _ => .error (.unsupportedType "bytes")
  | .absent | .unit => .ok .nil
  | .present inner | .newtype _ inner => inner.convert options
  | .unitStruct name | .struct name => .error (.unsupportedType name)
  | .unitVariant name variant | .newtypeVariant name variant _ | .tupleVariant name variant _
  | .structVariant name variant => unsupportedVariant name variant
  | .sequence items =>
    match convertAll options items with
    | .ok items => .ok (Expr.list items).quote
    | .error e => .error e
  | .tuple items | .tupleStruct _ items =>
    match convertAll options items with
    | .ok items => .ok (.list items)
    | .error e => .error e
  | .map steps =>
    match convertSteps options none steps with
    | .ok pairs => .ok (.dictionary options.dictFormat pairs)
    | .error e => .error e
  | .failure message => .error (.custom message)

def convertAll (options : ConvertOptions) : List Shape → Except ConversionError (List Expr)
  | [] => .ok []
  | item :: rest =>
    match item.convert options with
    | .error e => .error e
    | .ok item =>
      match convertAll options rest with
      | .error e => .error e
      | .ok rest => .ok (item :: rest)

/-- `pending` is the key that waits for its value. A value without one is refused before it is
looked at; a second key takes the place of the first. -/
def convertSteps (options : ConvertOptions) :
    (pending : Option Expr) → List MapStep → Except ConversionError (List (Expr × Expr))
  | _, [] => .ok []
  | _, .key k :: rest =>
    match k.convert options with
    | .error e => .error e
    | .ok k => convertSteps options (some k.asKey) rest
  | none, .value _ :: _ => .error valueBeforeKey
  | some key, .value v :: rest =>
    match v.convert options with
    | .error e => .error e
    | .ok v =>
      match convertSteps options none rest with
      | .error e => .error e
      | .ok rest => .ok ((key, v) :: rest)

end

end Shape

def MapStep.ofEntries (entries : List (Shape × Shape)) : List MapStep :=
  entries.flatMap fun (k, v) => [.key k, .value v]

namespace Key

def shape : Key → Shape
  | string s => .text s
  | char c => .text (String.singleton c)
  | int n => .int n
  | bool b => .bool b
  | unit => .unit
  | optional none => .absent
  | optional (some n) => .present (.int n)
  | pair n s => .tuple [.int n, .text s]

end Key

namespace Shape

def array (items : List Shape) : Shape := .tuple items

def orderedMap (entries : List (Key × Shape)) : Shape :=
  .map (MapStep.ofEntries ((Key.sorted entries).map fun (key, v) => (key.shape, v)))

end Shape

namespace Json

def Number.shape : Number → Shape
  | positive n => .int n.toNat
  | negative n => .int n.toInt
  | float x => .float x

mutual

/-- How a JSON value describes itself: null as the unit, numbers as what they are held as. -/
def shape : Json → Shape
  | .null => .unit
  | .bool b => .bool b
  | .number n => n.shape
  | .string s => .text s
  | .array items => .sequence (shapes items)
  | .object members => .orderedMap (memberShapes members)

def shapes : List Json → List Shape
  | [] => []
  | j :: rest => j.shape :: shapes rest

def memberShapes : List (String × Json) → List (Key × Shape)
  | [] => []
  | (name, j) :: rest => (.string name, j.shape) :: memberShapes rest

end

end Json

namespace HostValue

mutual

/-- How a host value describes itself at run time. Trees of syntax do not. -/
def shape? : HostValue → Option Shape
  | .bool b => some (.bool b)
  | .unit => some .unit
  | .absent => some .absent
  | .present v => v.shape?.map .present
  | .int n => some (.int n)
  | .single bits => some (.single bits)
  | .float x => some (.float x)
  | .string s => some (.text s)
  | .char c => some (.text (String.singleton c))
  | .pointer v => v.shape?
  | .sequence items => (shapes? items).map .sequence
  | .array items => (shapes? items).map .array
  | .tuple items => (shapes? items).map .tuple
  | .map entries => (steps? entries).map .map
  | .json j => some j.shape
  | .tree _ => none

def shapes? : List HostValue → Option (List Shape)
  | [] => some []
  | v :: rest =>
    match v.shape?, shapes? rest with
    | some v, some rest => some (v :: rest)
    | _, _ => none

def steps? : List (Key × HostValue) → Option (List MapStep)
  | [] => some []
  | (key, v) :: rest =>
    match v.shape?, steps? rest with
    | some v, some rest => some (.key key.shape :: .value v :: rest)
    | _, _ => none

end

end HostValue

end ElispBridge
