import ElispBridge.Build.Snippet
import ElispBridge.Build.Source
import ElispBridge.Evaluation.Config
import ElispBridge.Evaluation.Options
import ElispBridge.Evaluation.TemporaryFiles
import ElispBridge.Expr.Render
/-!
Code wrapped up for evaluation: the form to evaluate, the command line that has it evaluated, and
where its result will be.
-/

namespace ElispBridge

/-- Where the text of a result ends up: nowhere, on standard output as it is or as a printed string
literal, or in a file. -/
inductive Output where
  | ignored
  | stdout
  | printed
  | file (path : String)
deriving DecidableEq, Inhabited

structure Request where
  expr : Expr
  baseCommand : List String
  extraArgs : List String
  output : Output
  /-- The path of the result file made for the request, which holds it. -/
  held : Option Path := none
deriving Inhabited

namespace Request

/-- The form whose value is the result. A value that is ignored is replaced by nil where errors are
caught. -/
def payload (options : EvalOptions) (e : Expr) : Expr :=
  if options.catchErrors then
    let e := if options.ret.ignoresValue then .call "progn" [e, .nil] else e
    Snippet.catchErrorsJson e options.isJson
  else if options.ret.ignoresValue || options.isJson then e
  else Snippet.encodeJson e

def writeToFile (path : String) (e : Expr) : Expr :=
  .call "with-temp-file" [.string path, .call "insert" [e]]

def plain (options : EvalOptions) (config : Config) (e : Expr) (output : Output) : Request :=
  { expr := e, baseCommand := config.baseCommand, extraArgs := options.extraArgs, output }

def throughFile (options : EvalOptions) (config : Config) (e : Expr) (path : String) : Request :=
  plain options config (writeToFile path e) (.file path)

/-- Wraps code as the options and the mode ask. It fails if a result file cannot be made or if the
result is to be read from a path that is not text; a file that was made is then removed again. -/
def prepare (temporary : TemporaryFiles) (source : Source) (options : EvalOptions) (config : Config)
    (files : Files) : Except EvaluationError Request × Files :=
  let e := payload options source.toExpr
  if !options.readsResult then (.ok (plain options config e .ignored), files)
  else
    match options.resultFile with
    | some (.path path) =>
      match path.text? with
      | some path => (.ok (throughFile options config e path), files)
      | none => (.error (.pathNotText path), files)
    | some .auto =>
      match temporary.create "emacs-result-" ".json" files with
      | (.error e, files) => (.error (.file e), files)
      | (.ok path, files) =>
        match path.text? with
        | some name => (.ok { throughFile options config e name with held := some path }, files)
        | none => (.error (.pathNotText path), temporary.remove path files)
    | none =>
      if config.isBatch then (.ok (plain options config (.call "princ" [e]) .stdout), files)
      else (.ok (plain options config e .printed), files)

def commandLine (request : Request) : List String :=
  request.baseCommand ++ "--eval" :: request.expr.render :: request.extraArgs

/-- One who has a request lets go of it, while `others` have copies. The file that was made for it goes
with the last of them. -/
def drop (temporary : TemporaryFiles) (others : Nat) (request : Request) (files : Files) : Files :=
  match request.held, others with
  | some path, 0 => temporary.remove path files
  | _, _ => files

end Request

end ElispBridge
