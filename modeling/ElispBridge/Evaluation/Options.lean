import ElispBridge.Evaluation.Error
/-!
Options of a single evaluation.
-/

namespace ElispBridge

/-- What is wanted back: the value of the code, the output of the process, both or nothing. -/
inductive ReturnMode where
  | value
  | process
  | both
  | none
deriving DecidableEq, Inhabited

namespace ReturnMode

def name : ReturnMode → String
  | value => "value"
  | process => "process"
  | both => "both"
  | none => "none"

def ofName? (s : String) : Option ReturnMode :=
  if s = "value" then some value
  else if s = "process" then some process
  else if s = "both" then some both
  else if s = "none" then some none
  else Option.none

def parse (s : String) : Except EvaluationError ReturnMode :=
  match ofName? s with
  | some mode => .ok mode
  | Option.none => .error (.invalidReturnMode s)

def ignoresValue : ReturnMode → Bool
  | process | none => true
  | value | both => false

@[simp] theorem ofName?_name (mode : ReturnMode) : ofName? mode.name = some mode := by
  cases mode <;> decide

end ReturnMode

/-- The file that a result goes through: one made for the evaluation, or one of the caller's. -/
inductive ResultFile where
  | auto
  | path (p : Path)
deriving DecidableEq, Inhabited

structure EvalOptions where
  /-- Errors are reported inside the result and do not end the process. -/
  catchErrors : Bool := true
  ret : ReturnMode := .value
  /-- The code evaluates to JSON text already. -/
  isJson : Bool := false
  resultFile : Option ResultFile := none
  /-- Arguments after the code. -/
  extraArgs : List String := []
deriving DecidableEq, Inhabited

def EvalOptions.withExtraArgs (options : EvalOptions) (args : List String) : EvalOptions :=
  { options with extraArgs := options.extraArgs ++ args }

def EvalOptions.readsResult (options : EvalOptions) : Bool :=
  options.catchErrors || !options.ret.ignoresValue

end ElispBridge
