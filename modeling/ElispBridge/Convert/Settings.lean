import ElispBridge.Convert.Options
import ElispBridge.Json.Document
/-!
Conversion options written as JSON: an object whose member `dict_format` may name the form of maps,
or an array of that one setting. Other members are ignored.
-/

namespace ElispBridge

/-- A format is named by a string, or by an object of one member that is null. -/
def DictFormat.ofDocument? : Json.Document → Option DictFormat
  | .string (some name) | .object [(some name, .null)] => ofName? name
  | _ => none

namespace ConvertOptions

/-- Takes the members in turn. `format` is what an earlier one set; to set it again is refused. -/
def ofMembers? (format : Option DictFormat) :
    List (Option String × Json.Document) → Option ConvertOptions
  | [] => some { dictFormat := format.getD .alist }
  | (none, _) :: _ => none
  | (some name, value) :: rest =>
    if name = "dict_format" then
      match format, DictFormat.ofDocument? value with
      | none, some format => ofMembers? (some format) rest
      | _, _ => none
    else ofMembers? format rest

def ofDocument? : Json.Document → Option ConvertOptions
  | .object members => ofMembers? none members
  | .array [] => some {}
  | .array [format] => (DictFormat.ofDocument? format).map fun format => { dictFormat := format }
  | _ => none

def ofJson? (text : String) : Option ConvertOptions :=
  (Json.Document.parse? text).bind ofDocument?

end ConvertOptions

end ElispBridge
