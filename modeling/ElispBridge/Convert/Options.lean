import ElispBridge.Text.Diagnostic
/-!
How composite host values are converted, and what can be wrong with a value.
-/

namespace ElispBridge

inductive ConversionError where
  | unsupportedType (name : String)
  | integerOutOfRange (value : Nat)
  | invalidDictFormat (name : String)
  | custom (message : String)
deriving DecidableEq, Inhabited

namespace ConversionError

/-- Whether the type of a value is refused, or only the value. -/
inductive Kind where
  | type
  | value
deriving DecidableEq, Inhabited

def kind : ConversionError → Kind
  | unsupportedType _ | custom _ => .type
  | integerOutOfRange _ | invalidDictFormat _ => .value

def message : ConversionError → String
  | unsupportedType name => "cannot convert value of type " ++ name ++ " to Elisp"
  | integerOutOfRange value => "integer " ++ toString value ++ " is out of range for an Elisp literal"
  | invalidDictFormat name =>
    "invalid value for dict_format: " ++ Text.Diagnostic.quote name ++
      " (expected \"alist\" or \"plist\")"
  | custom text => text

end ConversionError

/-- The form of a converted map: pairs `((k . v) ...)` or a property list `(:k v ...)`. -/
inductive DictFormat where
  | alist
  | plist
deriving DecidableEq, Inhabited

namespace DictFormat

def name : DictFormat → String
  | alist => "alist"
  | plist => "plist"

def ofName? (s : String) : Option DictFormat :=
  if s = "alist" then some alist else if s = "plist" then some plist else none

def parse (s : String) : Except ConversionError DictFormat :=
  match ofName? s with
  | some format => .ok format
  | none => .error (.invalidDictFormat s)

@[simp] theorem ofName?_name (f : DictFormat) : ofName? f.name = some f := by cases f <;> decide

end DictFormat

structure ConvertOptions where
  dictFormat : DictFormat := .alist
deriving DecidableEq, Inhabited

def ConvertOptions.plist : ConvertOptions := { dictFormat := .plist }

end ElispBridge
