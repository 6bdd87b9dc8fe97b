import ElispBridge.Expr.Basic
/-!
Forms that are put around code before it is evaluated.
-/

namespace ElispBridge.Snippet

open ElispBridge.Expr

def requireJson : Expr := call "require" [(named "json").quote]

def encodeJson (e : Expr) : Expr :=
  call "progn" [requireJson, call "json-encode" [e]]

/-- The symbol, data and message of the error bound to `err`, as JSON. -/
def errorReport : Expr :=
  call "json-encode-plist"
    [call "list"
      [named ":symbol", call "car" [named "err"], named ":data", call "cdr" [named "err"],
        named ":msg", call "error-message-string" [named "err"]]]

/-- The value of `guarded`, or on an error `"null"`, with a report of the error left in `err-enc`. -/
def guard (guarded : Expr) : Expr :=
  call "condition-case"
    [named "err", guarded,
      call "error" [call "setq" [named "err-enc", errorReport], string "null"]]

def resultFormat : String := "\x7b\"value\": %s, \"error\": %s\x7d"

/-- Evaluates to a JSON object with the members `value` and `error`, one of which is null. If
`encoded` is set, `e` evaluates to JSON text already. -/
def catchErrorsJson (e : Expr) (encoded : Bool) : Expr :=
  call "let"
    [list [list [named "value-enc", .nil], list [named "err-enc", string "null"]],
      requireJson,
      call "setq" [named "value-enc", guard (if encoded then e else call "json-encode" [e])],
      call "format" [string resultFormat, named "value-enc", named "err-enc"]]

end ElispBridge.Snippet
