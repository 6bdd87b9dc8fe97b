import ElispBridge.Binary64.Basic
/-!
TOML documents: values, and tables put together statement by statement under the rule that nothing
is defined twice. A table remembers how it came about, because that decides what may still be added.
-/

namespace ElispBridge.Toml

/-- How a table came about: by its own header, as the parent in a header of another, by a dotted key,
or in braces. -/
inductive Origin where
  | header
  | parent
  | dottedKey
  | braces
deriving DecidableEq, Inhabited

inductive Value where
  | string (s : String)
  | integer (n : Int)
  | float (x : Binary64)
  | boolean (b : Bool)
  | datetime (text : String)
  | array (items : List Value)
  | table (origin : Origin) (entries : List (String × Value))
  | tables (items : List Value)
deriving Inhabited

abbrev Entries := List (String × Value)

namespace Entries

def find? (key : String) (entries : Entries) : Option Value := entries.lookup key

/-- Replaces the entry of that key, or adds one at the end. -/
def set (key : String) (value : Value) : Entries → Entries
  | [] => [(key, value)]
  | (k, v) :: rest => if k = key then (key, value) :: rest else (k, v) :: set key value rest

def erase (key : String) (entries : Entries) : Entries := entries.filter fun (k, _) => k != key

/-- Edits the table at the end of a path, and makes the tables on the way that are missing. The way
goes through the last table of an array of tables, but through no other value; by a dotted key it
does not go through a table that has a header. -/
def editAt {α : Type} (dotted : Bool) (edit : Origin → Entries → Option (α × Entries)) :
    (path : List String) → Origin → Entries → Option (α × Entries)
  | [], origin, entries => edit origin entries
  | key :: path, _, entries =>
    match find? key entries with
    | none =>
      let origin := if dotted then .dottedKey else .parent
      (editAt dotted edit path origin []).map fun (a, inner) =>
        (a, set key (.table origin inner) entries)
    | some (.table origin inner) =>
      if origin = .braces ∨ (dotted ∧ origin = .header) then none
      else
        (editAt dotted edit path origin inner).map fun (a, inner) =>
          (a, set key (.table origin inner) entries)
    | some (.tables items) =>
      match items.getLast? with
      | some (.table origin inner) =>
        (editAt dotted edit path origin inner).map fun (a, inner) =>
          (a, set key (.tables (items.dropLast ++ [.table origin inner])) entries)
      | _ => none
    | some _ => none

/-- Adds a value under a key, dotted if `path` is not empty. Only a table that dotted keys made takes
values by a dotted key, and it takes them in no other way. -/
def assign (path : List String) (key : String) (value : Value) (origin : Origin)
    (entries : Entries) : Option Entries :=
  let add (origin : Origin) (entries : Entries) : Option (Unit × Entries) :=
    if (origin == .dottedKey) == path.isEmpty then none
    else if (find? key entries).isSome then none
    else some ((), entries ++ [(key, value)])
  (editAt true add path origin entries).map (·.2)

def ofAssignments (assignments : List (List String × String × Value)) : Option Entries :=
  assignments.foldlM (fun entries (path, key, value) => assign path key value .braces entries) []

end Entries

inductive Statement where
  | table (path : List String) (key : String)
  | tableItem (path : List String) (key : String)
  | assign (path : List String) (key : String) (value : Value)
deriving Inhabited

/-- A document that is being put together: the table whose statements are being read is kept apart,
with the place it goes to, which is nowhere for the outermost table. -/
structure Draft where
  root : Entries := []
  place : Option (List String × String × Bool) := none
  current : Entries := []

namespace Draft

/-- Puts the current table into its place, which is the end of an array of tables if it is an item. -/
def close (draft : Draft) : Option Entries :=
  match draft.place with
  | none => some draft.current
  | some (path, key, isItem) =>
    let table := Value.table .header draft.current
    let put (_ : Origin) (entries : Entries) : Option (Unit × Entries) :=
      match isItem, entries.find? key with
      | true, some (.tables items) => some ((), entries.set key (.tables (items ++ [table])))
      | false, none => some ((), entries.set key table)
      | _, _ => none
    (Entries.editAt false put path .header draft.root).map (·.2)

/-- A header may name a table that is there so far only as a parent, whose entries it keeps. -/
def openTable (path : List String) (key : String) (root : Entries) : Option Draft :=
  let take (_ : Origin) (entries : Entries) : Option (Entries × Entries) :=
    match entries.find? key with
    | none => some ([], entries)
    | some (.table .parent inner) => some (inner, entries.erase key)
    | some _ => none
  (Entries.editAt false take path .header root).map fun (current, root) =>
    { root, place := some (path, key, false), current }

def openItem (path : List String) (key : String) (root : Entries) : Option Draft :=
  let make (_ : Origin) (entries : Entries) : Option (Unit × Entries) :=
    match entries.find? key with
    | none => some ((), entries.set key (.tables []))
    | some (.tables _) => some ((), entries)
    | some _ => none
  (Entries.editAt false make path .header root).map fun (_, root) =>
    { root, place := some (path, key, true), current := [] }

def step (draft : Draft) : Statement → Option Draft
  | .table path key => draft.close.bind (openTable path key)
  | .tableItem path key => draft.close.bind (openItem path key)
  | .assign path key value =>
    (draft.current.assign path key value .header).map fun current => { draft with current }

end Draft

def Entries.ofStatements (statements : List Statement) : Option Entries :=
  (statements.foldlM Draft.step {}).bind Draft.close

end ElispBridge.Toml
