import ElispBridge.Build.Snippet
import ElispBridge.Proofs.Lisp.Effects
/-!
What the form that catches errors evaluates to. Around code that leaves the form's own two variables
alone it does what the code does and nothing else, and its value is the text of an object: with the
value of the code, or with a report of the error, be it one of the code or one of encoding its value.
-/

namespace ElispBridge.Lisp

variable {World : Type} {lib : Library World}

/-- The text of an object with the two members. -/
def objectText (value error : String) : String :=
  "\x7b\"value\": " ++ value ++ ", \"error\": " ++ error ++ "\x7d"

namespace Library

/-- The symbol, data and message of an error, as JSON. -/
def errorText (lib : Library World) (s : Signal) : String :=
  lib.jsonEncodePlist (.list [.symbol ":symbol", s.condition, .symbol ":data", s.data, .symbol ":msg",
    .string (lib.errorMessage s.value)])

/-- What becomes of an outcome when its value is to be JSON text, which it may be already. -/
def encode (lib : Library World) (encoded : Bool) : Outcome → Outcome
  | .ok v => if encoded then .ok v else (lib.jsonEncode v).map .string
  | .error s => .error s

/-- The value and the error that an outcome is reported with. -/
def members (lib : Library World) : Outcome → Value × String
  | .ok v => (v, "null")
  | .error s => (.string "null", lib.errorText s)

/-- The state with the report of an error in the second variable. -/
def noted (lib : Library World) : Outcome → State World → State World
  | .ok _, st => st
  | .error s, st => st.set "err-enc" (some (.string (lib.errorText s)))

def report (lib : Library World) (out : Outcome) : String :=
  objectText (lib.text (lib.members out).1) (lib.members out).2

end Library

open ElispBridge.Snippet ElispBridge.Expr

/-- The state with the two variables of the form that catches errors bound. -/
def State.holding (value : Value) (error : String) (st : State World) : State World :=
  (st.set "value-enc" (some value)).set "err-enc" (some (.string error))

section Holding

variable {v : Value} {error : String} {st : State World}

theorem holding_set_value (w : Value) :
    (st.holding v error).set "value-enc" (some w) = st.holding w error := by
  rw [State.holding, State.set_comm (show "err-enc" ≠ "value-enc" by decide), State.set_set]
  rfl

theorem noted_holding (out : Outcome) (w : Value) :
    (lib.noted out (st.holding v "null")).set "value-enc" (some w) =
      st.holding w (lib.members out).2 := by
  cases out with
  | ok _ => exact holding_set_value w
  | error s =>
    have reported : lib.noted (.error s) (st.holding v "null") = st.holding v (lib.errorText s) := by
      rw [Library.noted, State.holding, State.set_set]
      rfl
    rw [reported]
    exact holding_set_value w

theorem eval_holding_iff {e : Expr} {last : State World} {out : Outcome}
    (value : Untouched lib e "value-enc") (reported : Untouched lib e "err-enc") :
    Eval lib e (st.holding v error) out last ↔
      ∃ last', Eval lib e st out last' ∧ last = last'.holding v error := by
  rw [State.holding, reported.eval_set_iff]
  constructor
  · rintro ⟨mid, evaluated, rfl⟩
    rcases value.eval_set_iff.mp evaluated with ⟨last', evaluated', rfl⟩
    exact ⟨last', evaluated', rfl⟩
  · rintro ⟨last', evaluated, rfl⟩
    exact ⟨_, value.eval_set _ evaluated, rfl⟩

theorem restore_holding {old : State World} (v : Value) (error : String)
    (value : st.bound "value-enc" = old.bound "value-enc")
    (reported : st.bound "err-enc" = old.bound "err-enc") :
    State.restore old ["value-enc", "err-enc"] (st.holding v error) = st := by
  simp only [State.restore, State.holding]
  rw [State.set_comm (show "err-enc" ≠ "value-enc" by decide), State.set_set, State.set_set, ← value,
    State.set_bound, ← reported, State.set_bound]

end Holding

theorem gives_requireJson (st : State World) : Gives lib st requireJson (.symbol "json") := by
  have name : Gives lib st (named "json").quote (.symbol "json") := gives_constant rfl st
  exact gives_apply rfl (.cons name .nil) rfl

theorem gives_errorReport {st : State World} {s : Signal} (bound : st.bound "err" = some s.value) :
    Gives lib st errorReport (.string (lib.errorText s)) := by
  have err : Gives lib st (named "err") s.value := gives_lookup rfl bound
  have condition : Gives lib st (call "car" [named "err"]) s.condition :=
    gives_apply rfl (.cons err .nil) rfl
  have data : Gives lib st (call "cdr" [named "err"]) s.data := gives_apply rfl (.cons err .nil) rfl
  have message : Gives lib st (call "error-message-string" [named "err"])
      (.string (lib.errorMessage s.value)) := gives_apply rfl (.cons err .nil) rfl
  have keyword (name : String) (form : Form.ofExpr (named name) = .constant (.symbol name)) :
      Gives lib st (named name) (.symbol name) := gives_constant form st
  have fields := List.Forall₂.cons (keyword ":symbol" rfl) (.cons condition
    (.cons (keyword ":data" rfl) (.cons data (.cons (keyword ":msg" rfl) (.cons message .nil)))))
  exact gives_apply rfl (.cons (gives_apply rfl fields rfl) .nil) rfl

theorem fill_resultFormat (value error : String) :
    fill resultFormat.toList [value, error] = some (objectText value error).toList := by
  simp [resultFormat, fill, objectText]

theorem gives_format (st : State World) (v : Value) (error : String) :
    Gives lib (st.holding v error)
      (call "format" [string resultFormat, named "value-enc", named "err-enc"])
      (.string (objectText (lib.text v) error)) := by
  have template : Gives lib (st.holding v error) (string resultFormat) (.string resultFormat) :=
    gives_constant rfl _
  have value : Gives lib (st.holding v error) (named "value-enc") v := by
    apply gives_lookup rfl
    rw [State.holding, State.bound_set_of_ne (by decide), State.bound_set_self]
  have reported : Gives lib (st.holding v error) (named "err-enc") (.string error) := by
    apply gives_lookup rfl
    rw [State.holding, State.bound_set_self]
  refine gives_apply rfl (.cons template (.cons value (.cons reported .nil))) ?_
  exact lib.apply_format [v, .string error] (fill_resultFormat (lib.text v) error)

/-- The handler leaves a report of the error in the second variable and has the value `null`. -/
theorem evalAll_handler_iff {st last : State World} {s : Signal} {outs : Except Signal (List Value)}
    (bound : st.bound "err" = some s.value) :
    EvalAll lib [call "setq" [named "err-enc", errorReport], string "null"] st outs last ↔
      outs = .ok [.string (lib.errorText s), .string "null"] ∧
        last = st.set "err-enc" (some (.string (lib.errorText s))) := by
  have report : Gives lib st errorReport (.string (lib.errorText s)) := gives_errorReport bound
  have null (st : State World) : Gives lib st (string "null") (.string "null") := gives_constant rfl st
  rw [evalAll_cons_of_reaches (reaches_setq rfl report)]
  constructor
  · rintro ⟨vs, rest, rfl⟩
    rcases (evalAll_of_gives (.cons (null _) .nil)).mp rest with ⟨rfl, rfl⟩
    exact ⟨rfl, rfl⟩
  · rintro ⟨rfl, rfl⟩
    exact ⟨_, (evalAll_of_gives (.cons (null _) .nil)).mpr ⟨rfl, rfl⟩, rfl⟩

theorem form_guard (guarded : Expr) :
    Form.ofExpr (guard guarded) = .conditionCase "err" guarded
      [call "setq" [named "err-enc", errorReport], string "null"] := rfl

/-- An error is replaced by the text `null`, and noted. -/
theorem eval_guard_iff {guarded : Expr} {st last : State World} {out : Outcome} :
    Eval lib (guard guarded) st out last ↔ ∃ result mid, Eval lib guarded st result mid ∧
      out = .ok (lib.members result).1 ∧ last = lib.noted result mid := by
  rw [eval_iff, form_guard, Runs]
  apply exists_congr
  intro result
  apply exists_congr
  intro mid
  apply and_congr_right
  intro _
  cases result with
  | ok v => exact Iff.rfl
  | error s =>
    have bound : (mid.bind [("err", s.value)]).bound "err" = some s.value := by
      simp only [State.bind, State.bound_set_self]
    -- the variable of the handler is bound around it only
    have restored (text : Option Value) :
        State.restore mid ["err"] ((mid.bind [("err", s.value)]).set "err-enc" text) =
          mid.set "err-enc" text := by
      simp only [State.bind, State.restore]
      rw [State.set_comm (show "err-enc" ≠ "err" by decide), State.set_set, State.set_bound]
    simp only [evalAll_handler_iff bound]
    constructor
    · rintro ⟨vs, last', ⟨rfl, rfl⟩, rfl, rfl⟩
      exact ⟨rfl, restored _⟩
    · rintro ⟨rfl, rfl⟩
      exact ⟨_, _, ⟨rfl, rfl⟩, rfl, (restored _).symm⟩

theorem eval_encode_iff {e : Expr} {encoded : Bool} {st last : State World} {out : Outcome} :
    Eval lib (if encoded then e else call "json-encode" [e]) st out last ↔
      ∃ result, Eval lib e st result last ∧ out = lib.encode encoded result := by
  cases encoded with
  | true =>
    have same (result : Outcome) : lib.encode true result = result := by cases result <;> rfl
    simp only [same, ↓reduceIte, exists_eq_right']
  | false =>
    have form : Form.ofExpr (call "json-encode" [e]) = .apply .jsonEncode [e] := rfl
    simp only [Bool.false_eq_true, ↓reduceIte]
    have applied (result : Outcome) :
        (result.map (· :: [])).bind (lib.apply .jsonEncode) = lib.encode false result := by
      cases result <;> rfl
    rw [eval_iff, form, Runs]
    constructor
    · rintro ⟨vs, evaluated, rfl⟩
      obtain ⟨result, value, rfl⟩ := (evalAll_cons_of_gives fun _ => .nil).mp evaluated
      exact ⟨result, value, applied result⟩
    · rintro ⟨result, evaluated, rfl⟩
      have args := (evalAll_cons_of_gives fun _ => .nil).mpr ⟨result, evaluated, rfl⟩
      exact ⟨_, args, (applied result).symm⟩

theorem eval_assign_iff (encoded : Bool) (v : Value) {e : Expr} {st last : State World} {out : Outcome}
    (value : Untouched lib e "value-enc") (reported : Untouched lib e "err-enc") :
    Eval lib (call "setq" [named "value-enc", guard (if encoded then e else call "json-encode" [e])])
        (st.holding v "null") out last ↔
      ∃ result last', Eval lib e st result last' ∧
        let members := lib.members (lib.encode encoded result)
        out = .ok members.1 ∧ last = last'.holding members.1 members.2 := by
  have form (g : Expr) : Form.ofExpr (call "setq" [named "value-enc", g]) = .setq "value-enc" g := rfl
  rw [eval_iff, form, Runs]
  simp only [eval_guard_iff, eval_encode_iff, eval_holding_iff value reported]
  constructor
  · rintro ⟨mid, ⟨guarded, last', ⟨result, ⟨after, evaluated, rfl⟩, rfl⟩, rfl, rfl⟩, rfl⟩
    exact ⟨result, after, evaluated, rfl, noted_holding _ _⟩
  · rintro ⟨result, after, evaluated, rfl, rfl⟩
    exact ⟨_, ⟨_, _, ⟨result, ⟨after, evaluated, rfl⟩, rfl⟩, rfl, rfl⟩, (noted_holding _ _).symm⟩

/-- The forms within the bindings of the two variables. -/
def catchingBody (e : Expr) (encoded : Bool) : List Expr :=
  [requireJson,
    call "setq" [named "value-enc", guard (if encoded then e else call "json-encode" [e])],
    call "format" [string resultFormat, named "value-enc", named "err-enc"]]

theorem evalAll_catchingBody_iff (encoded : Bool) (v : Value) {e : Expr} {st last : State World}
    {outs : Except Signal (List Value)} (value : Untouched lib e "value-enc")
    (reported : Untouched lib e "err-enc") :
    EvalAll lib (catchingBody e encoded) (st.holding v "null") outs last ↔
      ∃ result last', Eval lib e st result last' ∧
        let members := lib.members (lib.encode encoded result)
        outs = .ok [.symbol "json", members.1, .string (objectText (lib.text members.1) members.2)] ∧
          last = last'.holding members.1 members.2 := by
  rw [catchingBody, evalAll_cons_of_reaches (gives_requireJson _)]
  constructor
  · rintro ⟨vs, rest, rfl⟩
    obtain ⟨out, mid, assigned, h⟩ := evalAll_cons.mp rest
    obtain ⟨result, last', evaluated, rfl, rfl⟩ := (eval_assign_iff encoded v value reported).mp assigned
    obtain ⟨vs, format, rfl⟩ := h
    obtain ⟨rfl, rfl⟩ := (evalAll_of_gives (.cons (gives_format _ _ _) .nil)).mp format
    exact ⟨result, last', evaluated, rfl, rfl⟩
  · rintro ⟨result, last', evaluated, rfl, rfl⟩
    have assigned := (eval_assign_iff encoded v value reported).mpr ⟨result, last', evaluated, rfl, rfl⟩
    refine ⟨.ok [_, _], evalAll_cons.mpr ⟨_, _, assigned, .ok [_], ?_, rfl⟩, rfl⟩
    exact (evalAll_of_gives (.cons (gives_format _ _ _) .nil)).mpr ⟨rfl, rfl⟩

theorem form_catchErrorsJson (e : Expr) (encoded : Bool) :
    Form.ofExpr (catchErrorsJson e encoded) =
      .letForm [("value-enc", .nil), ("err-enc", string "null")] (catchingBody e encoded) := rfl

/-- The form has the value that reports the outcome of the code, signals no error, and leaves the state
that one evaluation of the code leaves. -/
theorem eval_catchErrorsJson_iff {e : Expr} {encoded : Bool} {st last : State World} {out : Outcome}
    (value : Untouched lib e "value-enc") (reported : Untouched lib e "err-enc") :
    Eval lib (catchErrorsJson e encoded) st out last ↔
      ∃ result, Eval lib e st result last ∧
        out = .ok (.string (lib.report (lib.encode encoded result))) := by
  have initial : List.Forall₂ (Gives lib st) [.nil, string "null"] [.nil, .string "null"] :=
    .cons (gives_constant rfl st) (.cons (gives_constant rfl st) .nil)
  rw [eval_iff, form_catchErrorsJson, Runs]
  constructor
  · rintro ⟨values, mid, inits, h⟩
    obtain ⟨rfl, rfl⟩ := (evalAll_of_gives initial).mp inits
    obtain ⟨vs, after, body, rfl, rfl⟩ := h
    obtain ⟨result, last', evaluated, rfl, rfl⟩ :=
      (evalAll_catchingBody_iff encoded .nil value reported).mp body
    refine ⟨result, ?_, rfl⟩
    simp only [List.map_cons, List.map_nil]
    rw [restore_holding _ _ (value.bound_eq evaluated) (reported.bound_eq evaluated)]
    exact evaluated
  · rintro ⟨result, evaluated, rfl⟩
    have body := (evalAll_catchingBody_iff encoded .nil value reported).mpr
      ⟨result, last, evaluated, rfl, rfl⟩
    refine ⟨_, _, (evalAll_of_gives initial).mpr ⟨rfl, rfl⟩, _, _, body, rfl, ?_⟩
    exact (restore_holding _ _ (value.bound_eq evaluated) (reported.bound_eq evaluated)).symm

theorem report_encode_ok (encoded : Bool) (v : Value) :
    lib.report (lib.encode encoded (.ok v)) =
      match if encoded then .ok (lib.text v) else lib.jsonEncode v with
      | .ok text => objectText text "null"
      | .error s => objectText "null" (lib.errorText s) := by
  cases encoded with
  | true => rfl
  | false =>
    simp only [Library.encode, Bool.false_eq_true, ↓reduceIte]
    cases lib.jsonEncode v <;> rfl

/-- A library with one function of unknown form, which gives a number when it is called first and signals
an error after that. The world is the number of calls. -/
def counting : Library Nat where
  jsonEncode v :=
    if v = .literal (.int 1) then .ok "1"
    else if v = .nil then .ok "null"
    else .error ⟨.symbol "json-error", .list [v]⟩
  jsonEncodePlist _ := "\x7b\"symbol\":\"error\",\"data\":[\"no\"],\"msg\":\"no\"\x7d"
  errorMessage _ := "no"
  shown _ := "(1)"
  misapplied _ vs := .error ⟨.symbol "wrong-number-of-arguments", .list vs⟩
  foreign _ st out last := last = { st with world := st.world + 1 } ∧ out = answer st.world
where
  answer : Nat → Outcome
    | 0 => .ok (.literal (.int 1))
    | _ + 1 => .error ⟨.symbol "error", .list [.string "no"]⟩

theorem untouched_counting {e : Expr} (form : Form.ofExpr e = .foreign) (name : String) :
    Untouched counting e name := by
  intro v st out last evaluated
  rw [eval_iff, form, Runs] at evaluated
  rcases evaluated with ⟨rfl, called⟩
  refine ⟨{ st with world := st.world + 1 }, ?_, rfl⟩
  rw [eval_iff, form, Runs]
  exact ⟨rfl, called⟩

/-- Every evaluation of the form is one of the code, and reports its value, an error of encoding the
value, or an error of the code. -/
theorem eval_catchErrorsJson {e : Expr} {encoded : Bool} {st last : State World} {out : Outcome}
    (value : Untouched lib e "value-enc") (reported : Untouched lib e "err-enc") :
    Eval lib (catchErrorsJson e encoded) st out last ↔
      (∃ v, Eval lib e st (.ok v) last ∧
        out = .ok (.string (match if encoded then .ok (lib.text v) else lib.jsonEncode v with
          | .ok text => objectText text "null"
          | .error s => objectText "null" (lib.errorText s)))) ∨
      ∃ s, Eval lib e st (.error s) last ∧
        out = .ok (.string (objectText "null" (lib.errorText s))) := by
  rw [eval_catchErrorsJson_iff value reported]
  constructor
  · rintro ⟨result, evaluated, rfl⟩
    cases result with
    | ok v => exact .inl ⟨v, evaluated, by rw [report_encode_ok]⟩
    | error s => exact .inr ⟨s, evaluated, rfl⟩
  · rintro (⟨v, evaluated, rfl⟩ | ⟨s, evaluated, rfl⟩)
    · exact ⟨.ok v, evaluated, by rw [report_encode_ok]⟩
    · exact ⟨.error s, evaluated, rfl⟩

/-- One call is made each time, and the error of the second one is reported. -/
theorem eval_catchErrorsJson_counting :
    let start (calls : Nat) : State Nat := ⟨fun _ => none, calls⟩
    let form := catchErrorsJson (.raw "(f)") false
    Untouched counting (.raw "(f)") "value-enc" ∧ Untouched counting (.raw "(f)") "err-enc" ∧
      Reaches counting (start 0) form (.string "\x7b\"value\": 1, \"error\": null\x7d") (start 1) ∧
      Reaches counting (start 1) form (.string ("\x7b\"value\": null, \"error\": " ++
        "\x7b\"symbol\":\"error\",\"data\":[\"no\"],\"msg\":\"no\"\x7d" ++ "\x7d")) (start 2) := by
  intro start form
  have value : Untouched counting (.raw "(f)") "value-enc" := untouched_counting rfl _
  have reported : Untouched counting (.raw "(f)") "err-enc" := untouched_counting rfl _
  refine ⟨value, reported, ?_, ?_⟩
  · intro out last
    rw [eval_catchErrorsJson value reported]
    constructor
    · rintro (⟨v, evaluated, rfl⟩ | ⟨s, evaluated, rfl⟩)
      · obtain ⟨rfl, answered⟩ := eval_iff.mp evaluated
        cases answered
        exact ⟨rfl, rfl⟩
      · cases (eval_iff.mp evaluated).2
    · rintro ⟨rfl, rfl⟩
      exact .inl ⟨_, eval_iff.mpr ⟨rfl, rfl⟩, rfl⟩
  · intro out last
    rw [eval_catchErrorsJson value reported]
    constructor
    · rintro (⟨v, evaluated, rfl⟩ | ⟨s, evaluated, rfl⟩)
      · cases (eval_iff.mp evaluated).2
      · obtain ⟨rfl, answered⟩ := eval_iff.mp evaluated
        cases answered
        exact ⟨rfl, rfl⟩
    · rintro ⟨rfl, rfl⟩
      exact .inr ⟨_, eval_iff.mpr ⟨rfl, rfl⟩, rfl⟩

end ElispBridge.Lisp
