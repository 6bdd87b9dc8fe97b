import ElispBridge.Proofs.Datum.Evaluation
/-!
A big-step semantics of the forms that are put around code before it is evaluated: constants, variables,
`progn`, `setq`, `let`, `condition-case` with a clause for errors, and calls of a few functions. The rest
is left open. Some functions are a library's own, and code of any other form does what the library says.
-/

namespace ElispBridge

namespace Lisp

inductive Value where
  | literal (value : Literal)
  | symbol (name : String)
  | cons (car cdr : Value)
  | object (identity : Nat)
deriving DecidableEq, Inhabited

protected def Value.nil : Value := .symbol "nil"

def Value.string (s : String) : Value := .literal (.string s)

def Value.list (vs : List Value) : Value := vs.foldr .cons .nil

/-- An error that was signalled. -/
structure Signal where
  condition : Value
  data : Value
deriving DecidableEq, Inhabited

/-- What a handler finds in its variable. -/
def Signal.value (s : Signal) : Value := .cons s.condition s.data

def Signal.voidVariable (name : String) : Signal := ⟨.symbol "void-variable", .list [.symbol name]⟩

abbrev Outcome := Except Signal Value

/-- The variables with their values, and the world, which is all else that code can act on. -/
structure State (World : Type) where
  bound : String → Option Value
  world : World

namespace State

variable {World : Type}

def set (name : String) (v : Option Value) (st : State World) : State World :=
  { st with bound := fun x => if x = name then v else st.bound x }

def assign (name : String) : Outcome → State World → State World
  | .ok v, st => st.set name (some v)
  | .error _, st => st

def bind : List (String × Value) → State World → State World
  | [], st => st
  | (name, v) :: rest, st => bind rest (st.set name (some v))

/-- Gives each of the variables the value that it has in `old`. -/
def restore (old : State World) : List String → State World → State World
  | [], st => st
  | name :: rest, st => restore old rest (st.set name (old.bound name))

@[simp] theorem bound_set_self (name : String) (v : Option Value) (st : State World) :
    (st.set name v).bound name = v := by
  simp only [set, ↓reduceIte]

theorem bound_set_of_ne {name other : String} (ne : other ≠ name) (v : Option Value)
    (st : State World) : (st.set name v).bound other = st.bound other := by
  simp only [set, ne, ↓reduceIte]

@[simp] theorem set_bound (name : String) (st : State World) :
    st.set name (st.bound name) = st := by
  have same : (fun x => if x = name then st.bound name else st.bound x) = st.bound := by
    funext x
    split
    · rename_i eq
      rw [eq]
    · rfl
  rw [set, same]

@[simp] theorem set_set (name : String) (v w : Option Value) (st : State World) :
    (st.set name v).set name w = st.set name w := by
  have same : (fun x => if x = name then w else (st.set name v).bound x) =
      fun x => if x = name then w else st.bound x := by
    funext x
    split
    · rfl
    · rename_i ne
      exact bound_set_of_ne ne v st
  rw [set, same]
  rfl

theorem set_comm {name other : String} (ne : name ≠ other) (v w : Option Value) (st : State World) :
    (st.set name v).set other w = (st.set other w).set name v := by
  have same : (fun x => if x = other then w else (st.set name v).bound x) =
      fun x => if x = name then v else (st.set other w).bound x := by
    funext x
    by_cases first : x = name
    · subst first
      simp only [ne, ↓reduceIte, bound_set_self]
    · rw [bound_set_of_ne first, if_neg first]
      rfl
  rw [set, same]
  rfl

end State

inductive Primitive where
  | list
  | car
  | cdr
  | format
  | require
  | jsonEncode
  | jsonEncodePlist
  | errorMessageString
deriving DecidableEq, Inhabited

def Primitive.ofName? (name : String) : Option Primitive :=
  if name = "list" then some list
  else if name = "car" then some car
  else if name = "cdr" then some cdr
  else if name = "format" then some format
  else if name = "require" then some require
  else if name = "json-encode" then some jsonEncode
  else if name = "json-encode-plist" then some jsonEncodePlist
  else if name = "error-message-string" then some errorMessageString
  else none

/-- What the forms leave open. -/
structure Library (World : Type) where
  jsonEncode : Value → Except Signal String
  jsonEncodePlist : Value → String
  errorMessage : Value → String
  /-- What `%s` puts for a value that is neither a string nor a symbol. -/
  shown : Value → String
  /-- What a function gives for arguments that the rules below do not cover. -/
  misapplied : Primitive → List Value → Outcome
  /-- What code of no known form does: from one state to an outcome and another state. -/
  foreign : Expr → State World → Outcome → State World → Prop

/-- A template with its `%s` filled in; it may have no other directives. -/
def fill : List Char → List String → Option (List Char)
  | [], _ => some []
  | '%' :: 's' :: rest, text :: texts => (fill rest texts).map (text.toList ++ ·)
  | '%' :: _, _ => none
  | c :: rest, texts => (fill rest texts).map (c :: ·)

namespace Library

variable {World : Type} (lib : Library World)

/-- What `%s` puts for a value. -/
def text : Value → String
  | .literal (.string s) => s
  | .symbol name => name
  | v => lib.shown v

def apply : Primitive → List Value → Outcome
  | .list, vs => .ok (.list vs)
  | .car, [.cons car _] => .ok car
  | .cdr, [.cons _ cdr] => .ok cdr
  | .format, .literal (.string template) :: vs =>
    match fill template.toList (vs.map lib.text) with
    | some s => .ok (.string (String.ofList s))
    | none => lib.misapplied .format (.string template :: vs)
  | .require, [feature] => .ok feature
  | .jsonEncode, [v] => (lib.jsonEncode v).map .string
  | .jsonEncodePlist, [v] => .ok (.string (lib.jsonEncodePlist v))
  | .errorMessageString, [v] => .ok (.string (lib.errorMessage v))
  | f, vs => lib.misapplied f vs

theorem apply_format {template : String} (vs : List Value) {text : String}
    (filled : fill template.toList (vs.map lib.text) = some text.toList) :
    lib.apply .format (.string template :: vs) = .ok (.string text) := by
  simp only [apply, Value.string, filled, String.ofList_toList]

end Library

/-- An expression as the evaluator takes it apart. -/
inductive Form where
  | constant (v : Value)
  | lookup (name : String)
  | apply (f : Primitive) (args : List Expr)
  | progn (body : List Expr)
  | setq (name : String) (value : Expr)
  | letForm (bindings : List (String × Expr)) (body : List Expr)
  | conditionCase (name : String) (guarded : Expr) (handler : List Expr)
  | foreign

mutual

/-- The value of an expression in a quotation, which holds no other marks. -/
def held? : Expr → Option Value
  | .literal l => some (.literal l)
  | .symbol s => some (.symbol s.name)
  | .cons car cdr =>
    match held? car, held? cdr with
    | some car, some cdr => some (.cons car cdr)
    | _, _ => none
  | .list items => (allHeld? items).map .list
  | .quoted inner => held? inner
  | .raw _ => none

def allHeld? : List Expr → Option (List Value)
  | [] => some []
  | e :: rest =>
    match held? e, allHeld? rest with
    | some v, some vs => some (v :: vs)
    | _, _ => none

end

def boundName? : Expr → Option String
  | .symbol s => if Object.isConstantName s.name then none else some s.name
  | _ => none

def bindings? : List Expr → Option (List (String × Expr))
  | [] => some []
  | .list [name, e] :: rest =>
    match boundName? name, bindings? rest with
    | some name, some rest => some ((name, e) :: rest)
    | _, _ => none
  | _ => none

namespace Form

def ofSetq : List Expr → Form
  | [target, value] =>
    match boundName? target with
    | some name => setq name value
    | none => foreign
  | _ => foreign

def ofLet : List Expr → Form
  | .list bindings :: body =>
    match bindings? bindings with
    | some bindings => letForm bindings body
    | none => foreign
  | _ => foreign

def ofConditionCase : List Expr → Form
  | [target, guarded, .list (.symbol condition :: handler)] =>
    match boundName? target with
    | some name => if condition.name = "error" then conditionCase name guarded handler else foreign
    | none => foreign
  | _ => foreign

def ofCall (function : String) (args : List Expr) : Form :=
  if function = "progn" then progn args
  else if function = "setq" then ofSetq args
  else if function = "let" then ofLet args
  else if function = "condition-case" then ofConditionCase args
  else
    match Primitive.ofName? function with
    | some f => apply f args
    | none => foreign

def ofExpr : Expr → Form
  | .literal l => constant (.literal l)
  | .symbol s => if Object.isConstantName s.name then constant (.symbol s.name) else lookup s.name
  | .quoted inner =>
    match held? inner with
    | some v => constant v
    | none => foreign
  | .list [] => constant .nil
  | .list (.symbol function :: args) => ofCall function.name args
  | _ => foreign

end Form

/-- The value of a sequence of forms is that of the last one. -/
def lastValue (vs : List Value) : Value := vs.getLastD .nil

section Evaluation

variable {World : Type} (lib : Library World)

mutual

/-- `Eval lib e st out st'`: from the state `st` the evaluation of `e` comes to the outcome `out` and
leaves the state `st'`. -/
inductive Eval : Expr → State World → Outcome → State World → Prop
  | constant {e : Expr} {v : Value} {st : State World} :
    Form.ofExpr e = .constant v → Eval e st (.ok v) st
  | lookup {e : Expr} {name : String} {v : Value} {st : State World} :
    Form.ofExpr e = .lookup name → st.bound name = some v → Eval e st (.ok v) st
  | unbound {e : Expr} {name : String} {st : State World} :
    Form.ofExpr e = .lookup name → st.bound name = none →
    Eval e st (.error (.voidVariable name)) st
  | apply {e : Expr} {f : Primitive} {args : List Expr} {vs : Except Signal (List Value)}
    {st st' : State World} : Form.ofExpr e = .apply f args → EvalAll args st vs st' →
    Eval e st (vs.bind (lib.apply f)) st'
  | progn {e : Expr} {body : List Expr} {vs : Except Signal (List Value)} {st st' : State World} :
    Form.ofExpr e = .progn body → EvalAll body st vs st' → Eval e st (vs.map lastValue) st'
  | setq {e value : Expr} {name : String} {out : Outcome} {st st' : State World} :
    Form.ofExpr e = .setq name value → Eval value st out st' → Eval e st out (st'.assign name out)
  | letSignal {e : Expr} {bindings : List (String × Expr)} {body : List Expr} {s : Signal}
    {st st' : State World} : Form.ofExpr e = .letForm bindings body →
    EvalAll (bindings.map Prod.snd) st (.error s) st' → Eval e st (.error s) st'
  | letForm {e : Expr} {bindings : List (String × Expr)} {body : List Expr} {values : List Value}
    {vs : Except Signal (List Value)} {st mid st' : State World} :
    Form.ofExpr e = .letForm bindings body → EvalAll (bindings.map Prod.snd) st (.ok values) mid →
    EvalAll body (mid.bind ((bindings.map Prod.fst).zip values)) vs st' →
    Eval e st (vs.map lastValue) (.restore mid (bindings.map Prod.fst) st')
  | passed {e guarded : Expr} {name : String} {handler : List Expr} {v : Value} {st st' : State World} :
    Form.ofExpr e = .conditionCase name guarded handler → Eval guarded st (.ok v) st' →
    Eval e st (.ok v) st'
  | caught {e guarded : Expr} {name : String} {handler : List Expr} {s : Signal}
    {vs : Except Signal (List Value)} {st mid st' : State World} :
    Form.ofExpr e = .conditionCase name guarded handler → Eval guarded st (.error s) mid →
    EvalAll handler (mid.bind [(name, s.value)]) vs st' →
    Eval e st (vs.map lastValue) (.restore mid [name] st')
  | foreign {e : Expr} {out : Outcome} {st st' : State World} :
    Form.ofExpr e = .foreign → lib.foreign e st out st' → Eval e st out st'

/-- Evaluation in turn, up to the first error. -/
inductive EvalAll : List Expr → State World → Except Signal (List Value) → State World → Prop
  | nil {st : State World} : EvalAll [] st (.ok []) st
  | signal {e : Expr} {rest : List Expr} {s : Signal} {st st' : State World} :
    Eval e st (.error s) st' → EvalAll (e :: rest) st (.error s) st'
  | cons {e : Expr} {rest : List Expr} {v : Value} {vs : Except Signal (List Value)}
    {st mid st' : State World} : Eval e st (.ok v) mid → EvalAll rest mid vs st' →
    EvalAll (e :: rest) st (vs.map (v :: ·)) st'

end

/-- What an expression of the form can do, in terms of what its parts do. -/
def Runs : Form → State World → Outcome → State World → Expr → Prop
  | .constant v, st, out, st', _ => out = .ok v ∧ st' = st
  | .lookup name, st, out, st', _ =>
    (match st.bound name with
      | some v => out = .ok v
      | none => out = .error (.voidVariable name)) ∧ st' = st
  | .apply f args, st, out, st', _ => ∃ vs, EvalAll lib args st vs st' ∧ out = vs.bind (lib.apply f)
  | .progn body, st, out, st', _ => ∃ vs, EvalAll lib body st vs st' ∧ out = vs.map lastValue
  | .setq name value, st, out, st', _ => ∃ mid, Eval lib value st out mid ∧ st' = mid.assign name out
  | .letForm bindings body, st, out, st', _ =>
    ∃ values mid, EvalAll lib (bindings.map Prod.snd) st values mid ∧
      match values with
      | .error s => out = .error s ∧ st' = mid
      | .ok values => ∃ vs last, EvalAll lib body (mid.bind ((bindings.map Prod.fst).zip values)) vs last ∧
        out = vs.map lastValue ∧ st' = .restore mid (bindings.map Prod.fst) last
  | .conditionCase name guarded handler, st, out, st', _ =>
    ∃ result mid, Eval lib guarded st result mid ∧
      match result with
      | .ok v => out = .ok v ∧ st' = mid
      | .error s => ∃ vs last, EvalAll lib handler (mid.bind [(name, s.value)]) vs last ∧
        out = vs.map lastValue ∧ st' = .restore mid [name] last
  | .foreign, st, out, st', e => lib.foreign e st out st'

variable {lib : Library World}

/-- An evaluation is a run of the form that the expression has. -/
theorem eval_iff {e : Expr} {st st' : State World} {out : Outcome} :
    Eval lib e st out st' ↔ Runs lib (Form.ofExpr e) st out st' e := by
  constructor
  · intro h
    cases h with
    | constant form =>
      rw [form]
      exact ⟨rfl, rfl⟩
    | lookup form bound =>
      rw [form, Runs, bound]
      exact ⟨rfl, rfl⟩
    | unbound form free =>
      rw [form, Runs, free]
      exact ⟨rfl, rfl⟩
    | apply form args =>
      rw [form]
      exact ⟨_, args, rfl⟩
    | progn form body =>
      rw [form]
      exact ⟨_, body, rfl⟩
    | setq form value =>
      rw [form]
      exact ⟨_, value, rfl⟩
    | letSignal form values =>
      rw [form]
      exact ⟨_, _, values, rfl, rfl⟩
    | letForm form values body =>
      rw [form]
      exact ⟨_, _, values, _, _, body, rfl, rfl⟩
    | passed form guarded =>
      rw [form]
      exact ⟨_, _, guarded, rfl, rfl⟩
    | caught form guarded handler =>
      rw [form]
      exact ⟨_, _, guarded, _, _, handler, rfl, rfl⟩
    | foreign form does =>
      rw [form]
      exact does
  · generalize form : Form.ofExpr e = f
    intro h
    cases f with
    | constant v =>
      rcases h with ⟨rfl, rfl⟩
      exact .constant form
    | lookup name =>
      rcases h with ⟨found, rfl⟩
      split at found
      · rename_i bound
        subst found
        exact .lookup form bound
      · rename_i free
        subst found
        exact .unbound form free
    | apply f args =>
      rcases h with ⟨vs, args, rfl⟩
      exact .apply form args
    | progn body =>
      rcases h with ⟨vs, body, rfl⟩
      exact .progn form body
    | setq name value =>
      rcases h with ⟨mid, value, rfl⟩
      exact .setq form value
    | letForm bindings body =>
      obtain ⟨values, mid, evaluated, h⟩ := h
      cases values with
      | error s =>
        rcases h with ⟨rfl, rfl⟩
        exact .letSignal form evaluated
      | ok values =>
        rcases h with ⟨vs, last, body, rfl, rfl⟩
        exact .letForm form evaluated body
    | conditionCase name guarded handler =>
      obtain ⟨result, mid, evaluated, h⟩ := h
      cases result with
      | ok v =>
        rcases h with ⟨rfl, rfl⟩
        exact .passed form evaluated
      | error s =>
        rcases h with ⟨vs, last, handler, rfl, rfl⟩
        exact .caught form evaluated handler
    | foreign => exact .foreign form h

theorem evalAll_nil {st st' : State World} {vs : Except Signal (List Value)} :
    EvalAll lib [] st vs st' ↔ vs = .ok [] ∧ st' = st := by
  constructor
  · intro h
    cases h
    exact ⟨rfl, rfl⟩
  · rintro ⟨rfl, rfl⟩
    exact .nil

theorem evalAll_cons {e : Expr} {rest : List Expr} {st st' : State World}
    {vs : Except Signal (List Value)} :
    EvalAll lib (e :: rest) st vs st' ↔
      ∃ out mid, Eval lib e st out mid ∧
        match out with
        | .error s => vs = .error s ∧ st' = mid
        | .ok v => ∃ vs', EvalAll lib rest mid vs' st' ∧ vs = vs'.map (v :: ·) := by
  constructor
  · intro h
    cases h with
    | signal head => exact ⟨_, _, head, rfl, rfl⟩
    | cons head rest => exact ⟨_, _, head, _, rest, rfl⟩
  · rintro ⟨out, mid, head, h⟩
    cases out with
    | error s =>
      rcases h with ⟨rfl, rfl⟩
      exact .signal head
    | ok v =>
      rcases h with ⟨vs', rest, rfl⟩
      exact .cons head rest

end Evaluation

end Lisp

end ElispBridge
