/-!
How the evaluating program is reached: a fresh batch process, or a client of a running server.
-/

namespace ElispBridge

inductive Mode where
  | batch
  | client (server : Option String)
deriving DecidableEq, Inhabited

structure Config where
  program : String := "emacs"
  mode : Mode := .batch
  args : List String := []
deriving DecidableEq, Inhabited

namespace Config

def batch : Config := {}

def client : Config := { program := "emacsclient", mode := .client none }

def clientFor (server : String) : Config := { client with mode := .client (some server) }

def withProgram (config : Config) (program : String) : Config := { config with program }

def withArgs (config : Config) (args : List String) : Config :=
  { config with args := config.args ++ args }

def isBatch (config : Config) : Bool := config.mode == .batch

end Config

def Mode.args : Mode → List String
  | batch => ["--batch"]
  | client (some server) => ["-s", server]
  | client none => []

def Config.baseCommand (config : Config) : List String :=
  config.program :: (config.mode.args ++ config.args)

end ElispBridge
