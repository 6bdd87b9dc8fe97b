import ElispBridge.Evaluation.Request
import ElispBridge.Text.Blank
import ElispBridge.Text.Quoted
/-!
Evaluations one after the other on a host, which makes temporary files and runs command lines in a world
of files and may change that. Every command line it is given is recorded.
-/

namespace ElispBridge

/-- Runs a command line: its standard output or a message of failure, and the files it leaves. -/
abbrev Evaluator := List String → Files → Except String String × Files

structure Host where
  temporary : TemporaryFiles
  evaluator : Evaluator

structure World where
  files : Files
  /-- The command lines that were run, in order. -/
  calls : List (List String) := []
deriving Inhabited

namespace World

def call (evaluator : Evaluator) (commandLine : List String) (world : World) :
    Except EvaluationError String × World :=
  let (answer, files) := evaluator commandLine world.files
  let world := { files, calls := world.calls ++ [commandLine] }
  match answer with
  | .ok stdout => (.ok stdout, world)
  | .error message => (.error (.evaluator message), world)

end World

/-- The string that a printed literal stands for. -/
def readLiteral (printed : String) : Except EvaluationError String :=
  match Text.Quoted.decode printed.toList with
  | some s => .ok (String.ofList s)
  | none => .error (.malformedOutput printed)

/-- The string in a printed literal, with blanks around it. -/
def readPrinted (stdout : String) : Except EvaluationError String :=
  readLiteral (String.ofList (Text.trim stdout.toList))

def Output.collect (output : Output) (stdout : String) (files : Files) :
    Except EvaluationError String :=
  match output with
  | .ignored | .stdout => .ok stdout
  | .printed => readPrinted stdout
  | .file path =>
    match files.readText path with
    | .ok text => .ok text
    | .error e => .error (.file e)

def Request.send (request : Request) (evaluator : Evaluator) (world : World) :
    Except EvaluationError String × World :=
  match world.call evaluator request.commandLine with
  | (.error e, world) => (.error e, world)
  | (.ok stdout, world) => (request.output.collect stdout world.files, world)

namespace Config

def run (config : Config) (args : List String) (evaluator : Evaluator) (world : World) :
    Except EvaluationError String × World :=
  world.call evaluator (config.baseCommand ++ args)

/-- Prepares a request, sends it and lets go of it. -/
def eval (config : Config) (source : Source) (options : EvalOptions) (host : Host) (world : World) :
    Except EvaluationError String × World :=
  match Request.prepare host.temporary source options config world.files with
  | (.error e, files) => (.error e, { world with files })
  | (.ok request, files) =>
    let (result, world) := request.send host.evaluator { world with files }
    (result, { world with files := request.drop host.temporary 0 world.files })

end Config

/-- A configuration in a world. -/
structure Session where
  config : Config
  world : World
deriving Inhabited

namespace Session

def run (args : List String) (evaluator : Evaluator) (session : Session) :
    Except EvaluationError String × Session :=
  let (result, world) := session.config.run args evaluator session.world
  (result, { session with world })

def eval (source : Source) (options : EvalOptions) (host : Host) (session : Session) :
    Except EvaluationError String × Session :=
  let (result, world) := session.config.eval source options host session.world
  (result, { session with world })

def send (request : Request) (evaluator : Evaluator) (session : Session) :
    Except EvaluationError String × Session :=
  let (result, world) := request.send evaluator session.world
  (result, { session with world })

end Session

end ElispBridge
