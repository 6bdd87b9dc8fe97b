import ElispBridge.Evaluation.Config
import ElispBridge.Evaluation.Options
import ElispBridge.Toml.Document
/-!
Configurations and options written as TOML. Keys that are not known are ignored, and one that is
missing leaves its default.
-/

namespace ElispBridge

namespace Toml

def Value.string? : Value → Option String
  | .string s => some s
  | _ => none

def Value.boolean? : Value → Option Bool
  | .boolean b => some b
  | _ => none

def Value.strings? : Value → Option (List String)
  | .array items => items.mapM Value.string?
  | _ => none

def Value.isEmpty : Value → Bool
  | .array items | .tables items => items.isEmpty
  | .table _ entries => entries.isEmpty
  | _ => false

/-- A choice without contents: its name, or a table of one entry under that name which is empty. -/
def Value.choice? : Value → Option String
  | .string name => some name
  | .table _ [(name, contents)] => if contents.isEmpty then some name else none
  | _ => none

/-- A setting: its default if the key is missing, otherwise what the value means. -/
def Entries.setting? {α : Type} (entries : Entries) (key : String) (default : α)
    (read : Value → Option α) : Option α :=
  match entries.find? key with
  | none => some default
  | some value => read value

end Toml

namespace Mode

def ofKind? (kind : String) (server : Option String) : Option Mode :=
  if kind = "batch" then some .batch
  else if kind = "client" then some (.client server)
  else none

/-- A table with a `kind`, or an array that starts with it. The server is looked at only where the
mode has one. -/
def ofValue? : Toml.Value → Option Mode
  | .table _ entries => do
    let kind ← (← entries.lookup "kind").string?
    if kind = "batch" then return .batch
    ofKind? kind (← Toml.Entries.setting? entries "server" none fun v => v.string?.map some)
  | .array [.string kind] => ofKind? kind none
  | .array [.string "client", .string server] => some (.client (some server))
  | _ => none

end Mode

namespace Config

def ofEntries? (entries : Toml.Entries) : Option Config := do
  let program ← entries.setting? "program" "emacs" Toml.Value.string?
  let mode ← entries.setting? "mode" .batch Mode.ofValue?
  let args ← entries.setting? "args" [] Toml.Value.strings?
  return { program, mode, args }

def ofToml (text : String) : Except EvaluationError Config :=
  match (Toml.parse? text).bind ofEntries? with
  | some config => .ok config
  | none => .error .badSettings

def ofFile (files : Files) (path : String) : Except EvaluationError Config :=
  match files.readText path with
  | .error e => .error (.file e)
  | .ok text => ofToml text

end Config

/-- An automatic file is a choice without contents; one of the caller's is a table of its path. -/
def ResultFile.ofValue? : Toml.Value → Option ResultFile
  | .table _ [("path", .string name)] => some (.path (Path.ofString name))
  | v => if v.choice? = some "auto" then some .auto else none

namespace EvalOptions

def ofEntries? (entries : Toml.Entries) : Option EvalOptions := do
  let catchErrors ← entries.setting? "catch_errors" true Toml.Value.boolean?
  let ret ← entries.setting? "ret" .value fun v => v.choice?.bind ReturnMode.ofName?
  let isJson ← entries.setting? "is_json" false Toml.Value.boolean?
  let resultFile ← entries.setting? "tmpfile" none fun v => (ResultFile.ofValue? v).map some
  let extraArgs ← entries.setting? "extra_args" [] Toml.Value.strings?
  return { catchErrors, ret, isJson, resultFile, extraArgs }

def ofToml (text : String) : Except EvaluationError EvalOptions :=
  match (Toml.parse? text).bind ofEntries? with
  | some options => .ok options
  | none => .error .badSettings

end EvalOptions

end ElispBridge
