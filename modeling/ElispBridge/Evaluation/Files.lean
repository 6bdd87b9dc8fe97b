/-!
A small file system: directories and files by their place under the root, and a working directory.
-/

namespace ElispBridge

inductive FileError where
  | notFound
  | isDirectory
  | notDirectory
  | invalidText
  | invalidPath
  | longName
  | other (message : String)
deriving DecidableEq, Inhabited

abbrev Place := List String

structure Files where
  working : Place
  directories : List Place
  contents : List (Place × ByteArray) := []
deriving Inhabited

namespace Files

def temporary : Place := ["tmp"]

/-- Nothing but an empty working directory and the one for temporary files. -/
def fresh : Files :=
  { working := temporary ++ ["work"], directories := [[], temporary, temporary ++ ["work"]] }

def maxName : Nat := 255

def maxPath : Nat := 4095

/-- Goes on from a place, which has to be a directory, by the names of a path. -/
def walk (files : Files) (place : Place) : List String → Except FileError Place
  | [] => .ok place
  | name :: rest =>
    if place ∈ files.directories then
      if name = "" ∨ name = "." then walk files place rest
      else if name = ".." then walk files place.dropLast rest
      else if maxName < name.utf8ByteSize then .error .longName
      else walk files (place ++ [name]) rest
    else if (files.contents.lookup place).isSome then .error .notDirectory
    else .error .notFound

def names (path : String) : List String := (path.toList.splitOn '/').map String.ofList

/-- The place that a path leads to. The path is absolute if it starts with a slash, and it holds no
zero character. -/
def resolve (files : Files) (path : String) : Except FileError Place :=
  if path.toList.contains '\x00' then .error .invalidPath
  else if path = "" then .error .notFound
  else if maxPath < path.utf8ByteSize then .error .longName
  else walk files (if path.startsWith '/' then [] else files.working) (names path)

/-- What a path that ends in a slash or a dot leads to is a directory. -/
def namesDirectory (path : String) : Bool :=
  (names path).getLast? ∈ [some "", some ".", some ".."]

def read (files : Files) (path : String) : Except FileError ByteArray :=
  match files.resolve path with
  | .error e => .error e
  | .ok place =>
    if place ∈ files.directories then .error .isDirectory
    else
      match files.contents.lookup place with
      | none => .error .notFound
      | some bytes => if namesDirectory path then .error .notDirectory else .ok bytes

def readText (files : Files) (path : String) : Except FileError String :=
  match files.read path with
  | .error e => .error e
  | .ok bytes =>
    match String.fromUTF8? bytes with
    | some text => .ok text
    | none => .error .invalidText

def forget (place : Place) (files : Files) : Files :=
  { files with contents := files.contents.filter fun (p, _) => p != place }

def write (files : Files) (path : String) (bytes : ByteArray) : Except FileError Files :=
  match files.resolve path with
  | .error e => .error e
  | .ok place =>
    if place ∈ files.directories ∨ namesDirectory path then .error .isDirectory
    else .ok { files with contents := (place, bytes) :: (files.forget place).contents }

def remove (files : Files) (path : String) : Files :=
  match files.resolve path with
  | .error _ => files
  | .ok place => files.forget place

end Files

end ElispBridge
