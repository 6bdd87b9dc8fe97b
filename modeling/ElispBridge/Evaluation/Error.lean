import ElispBridge.Evaluation.Files
import ElispBridge.Evaluation.Path
/-!
What can go wrong in configuring and running an evaluation.
-/

namespace ElispBridge

inductive EvaluationError where
  | badSettings
  | file (e : FileError)
  | invalidReturnMode (name : String)
  | evaluator (message : String)
  | pathNotText (path : Path)
  | malformedOutput (text : String)
deriving DecidableEq, Inhabited

namespace FileError

def message : FileError → String
  | notFound => "no such file or directory"
  | isDirectory => "is a directory"
  | notDirectory => "not a directory"
  | invalidText => "the file is not valid UTF-8"
  | invalidPath => "the path contains a zero character"
  | longName => "the name is too long"
  | other message => message

end FileError

namespace EvaluationError

def message : EvaluationError → String
  | badSettings => "invalid config"
  | file e => "io error: " ++ e.message
  | invalidReturnMode name =>
    "return mode must be one of \"value\", \"process\", \"both\" or \"none\", got " ++
      Text.Diagnostic.quote name
  | evaluator text => "evaluator failed: " ++ text
  | pathNotText path => "result file path is not valid UTF-8: " ++ path.shown
  | malformedOutput text => "malformed output from emacsclient: " ++ Text.Diagnostic.quote text

end EvaluationError

end ElispBridge
