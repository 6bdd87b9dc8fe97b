import ElispBridge.Proofs.Evaluation.Route
import ElispBridge.Proofs.Evaluation.Sending
import ElispBridge.Proofs.Json.Grammar
import ElispBridge.Proofs.Lisp.CaughtErrors
/-!
The result of a request that catches errors. It is an object whose two members are JSON, save where the
value is ignored and said to be JSON already: the nil that stands for the value is then not encoded.
-/

namespace ElispBridge.Request

open Lisp

variable {World : Type} {lib : Library World}

/-- What a library's functions that encode give is JSON, and nil is encoded as `null`. -/
structure Encodes (lib : Library World) : Prop where
  value : ∀ v text, lib.jsonEncode v = .ok text → Json.IsText text
  plist : ∀ v, Json.IsText (lib.jsonEncodePlist v)
  nil : lib.jsonEncode .nil = .ok "null"

/-- A value that is the text of an object whose two members are JSON. -/
def Reported (out : Outcome) : Prop :=
  ∃ value error, out = .ok (.string (objectText value error)) ∧ Json.IsText value ∧ Json.IsText error

/-- The outcome of code with the value dropped where it is ignored. -/
def kept (ignoring : Bool) : Outcome → Outcome
  | .ok v => .ok (if ignoring then .nil else v)
  | .error s => .error s

section ObjectText

open Json.Grammar

theorem isText_objectText {value error : String} (v : Json.IsText value) (e : Json.IsText error) :
    Json.IsText (objectText value error) := by
  have valueName : StringText ('"' :: ("value".toList ++ ['"'])) :=
    stringText_of_plain (by decide)
  have errorName : StringText ('"' :: ("error".toList ++ ['"'])) :=
    stringText_of_plain (by decide)
  have spacedValue : SpacedText (' ' :: value.toList) := v.cons rfl
  have spacedError : SpacedText (' ' :: error.toList) := e.cons rfl
  have first := MemberText.named blanks_nil valueName blanks_nil spacedValue
  have second := MemberText.named blanks_space errorName blanks_nil spacedError
  have object := (ValueText.object (.more first (.one second))).spacedText
  simpa [Json.IsText, objectText] using object

theorem Reported.isText {out : Outcome} (h : Reported out) :
    ∃ text, out = .ok (.string text) ∧ Json.IsText text := by
  obtain ⟨value, error, same, isValue, isError⟩ := h
  exact ⟨objectText value error, same, isText_objectText isValue isError⟩

/-- Whatever the members are taken to be, nil is not JSON. -/
theorem not_reported_nil (error : String) : ¬ Reported (.ok (.string (objectText "nil" error))) := by
  rintro ⟨value, error', same, text, -⟩
  simp only [Value.string, Except.ok.injEq, Value.literal.injEq, Literal.string.injEq] at same
  have chars := congrArg String.toList same
  simp only [objectText, String.toList_append, List.append_assoc, List.append_right_inj] at chars
  rw [Json.IsText] at text
  cases valueChars : value.toList with
  | nil => exact text.ne_nil valueChars
  | cons c cs =>
    rw [valueChars] at chars
    rcases List.cons.inj chars with ⟨rfl, tails⟩
    obtain ⟨behind, rfl⟩ := text.null_of_start valueChars
    cases tails

end ObjectText

theorem eval_drop_iff {e : Expr} {st last : State World} {out : Outcome} :
    Eval lib (.call "progn" [e, .nil]) st out last ↔
      ∃ result, Eval lib e st result last ∧ out = kept true result := by
  have form : Form.ofExpr (.call "progn" [e, .nil]) = .progn [e, .nil] := rfl
  have nil (st : State World) : List.Forall₂ (Gives lib st) [.nil] [.nil] :=
    .cons (gives_constant rfl st) .nil
  have dropped (result : Outcome) : (result.map (· :: [.nil])).map lastValue = kept true result := by
    cases result <;> rfl
  rw [eval_iff, form, Runs]
  constructor
  · rintro ⟨vs, evaluated, rfl⟩
    obtain ⟨result, code, rfl⟩ := (evalAll_cons_of_gives nil).mp evaluated
    exact ⟨result, code, dropped result⟩
  · rintro ⟨result, code, rfl⟩
    exact ⟨_, (evalAll_cons_of_gives nil).mpr ⟨result, code, rfl⟩, (dropped result).symm⟩

theorem eval_kept_iff (ignoring : Bool) {e : Expr} {st last : State World} {out : Outcome} :
    Eval lib (if ignoring then .call "progn" [e, .nil] else e) st out last ↔
      ∃ result, Eval lib e st result last ∧ out = kept ignoring result := by
  cases ignoring with
  | true => exact eval_drop_iff
  | false =>
    have same (result : Outcome) : kept false result = result := by cases result <;> rfl
    simp only [same, Bool.false_eq_true, ↓reduceIte, exists_eq_right']

theorem untouched_kept {e : Expr} {name : String} (ignoring : Bool) (h : Untouched lib e name) :
    Untouched lib (if ignoring then .call "progn" [e, .nil] else e) name := by
  intro v st out last evaluated
  obtain ⟨result, value, rfl⟩ := (eval_kept_iff ignoring).mp evaluated
  obtain ⟨last', value', rfl⟩ := h.eval_set_iff.mp value
  exact ⟨last', (eval_kept_iff ignoring).mpr ⟨result, value', rfl⟩, rfl⟩

section Encodes

variable (encodes : Encodes lib)
include encodes

theorem isText_error (out : Outcome) : Json.IsText (lib.members out).2 := by
  cases out with
  | ok _ => exact Json.isText_null
  | error s => exact encodes.plist _

theorem reported_of_isText {out : Outcome} (h : Json.IsText (lib.text (lib.members out).1)) :
    Reported (.ok (.string (lib.report out))) := ⟨_, _, rfl, h, isText_error encodes out⟩

theorem reported_encode (v : Value) : Reported (.ok (.string (lib.report (lib.encode false (.ok v))))) := by
  apply reported_of_isText encodes
  cases encoded : lib.jsonEncode v with
  | ok text =>
    have value : lib.encode false (.ok v) = .ok (.string text) := by
      simp only [Library.encode, encoded, Bool.false_eq_true, ↓reduceIte]
      rfl
    rw [value]
    exact encodes.value v text encoded
  | error s =>
    have signal : lib.encode false (.ok v) = .error s := by
      simp only [Library.encode, encoded, Bool.false_eq_true, ↓reduceIte]
      rfl
    rw [signal]
    exact Json.isText_null

theorem reported_report_iff {ignoring encoded : Bool} {result : Outcome}
    (json : encoded = true → ∀ v, result = .ok v → ∃ text, v = .string text ∧ Json.IsText text) :
    Reported (.ok (.string (lib.report (lib.encode encoded (kept ignoring result))))) ↔
      ¬ (ignoring = true ∧ encoded = true ∧ ∃ v, result = .ok v) := by
  cases result with
  | error s =>
    have reported : Reported (.ok (.string (lib.report (.error s)))) :=
      reported_of_isText encodes Json.isText_null
    simpa [kept, Library.encode] using reported
  | ok v =>
    cases encoded with
    | false => simpa [kept] using reported_encode encodes _
    | true =>
      cases ignoring with
      | true =>
        have dropped : ¬ Reported (.ok (.string (lib.report (lib.encode true (.ok .nil))))) :=
          not_reported_nil "null"
        simpa [kept] using dropped
      | false =>
        obtain ⟨text, rfl, isText⟩ := json rfl v rfl
        have reported : Reported (.ok (.string (lib.report (.ok (.string text))))) :=
          reported_of_isText encodes isText
        simpa [kept, Library.encode] using reported

end Encodes

theorem payload_of_catchErrors {options : EvalOptions} (catches : options.catchErrors = true) (e : Expr) :
    payload options e = Snippet.catchErrorsJson
      (if options.ret.ignoresValue then .call "progn" [e, .nil] else e) options.isJson := by
  simp only [payload, catches, ↓reduceIte]

theorem eval_payload_iff {options : EvalOptions} (catches : options.catchErrors = true) {e : Expr}
    {st last : State World} {out : Outcome} (value : Untouched lib e "value-enc")
    (reported : Untouched lib e "err-enc") :
    Eval lib (payload options e) st out last ↔
      ∃ result, Eval lib e st result last ∧
        let outcome := kept options.ret.ignoresValue result
        out = .ok (.string (lib.report (lib.encode options.isJson outcome))) := by
  rw [payload_of_catchErrors catches,
    eval_catchErrorsJson_iff (untouched_kept _ value) (untouched_kept _ reported)]
  constructor
  · rintro ⟨outcome, evaluated, rfl⟩
    obtain ⟨result, code, rfl⟩ := (eval_kept_iff _).mp evaluated
    exact ⟨result, code, rfl⟩
  · rintro ⟨result, code, rfl⟩
    exact ⟨_, (eval_kept_iff _).mpr ⟨result, code, rfl⟩, rfl⟩

/-- A library whose code of unknown form does nothing and has a JSON text as its value. -/
def encoding : Library Nat :=
  { counting with
    jsonEncodePlist := fun _ => "\x7b\x7d"
    foreign := fun _ st out last => last = st ∧ out = .ok (.string "1") }

theorem isText_one : Json.IsText "1" := by
  have digits : Json.Grammar.Digits ['1'] := ⟨List.cons_ne_nil _ _, List.all_eq_true.mp rfl⟩
  exact (Json.Grammar.ValueText.whole (.digits (by decide) digits) .none .none).spacedText

theorem encodes_encoding : Encodes encoding where
  value v text encoded := by
    simp only [encoding, counting] at encoded
    split at encoded
    · cases encoded
      exact isText_one
    · split at encoded
      · cases encoded
        exact Json.isText_null
      · cases encoded
  plist _ := show Json.IsText "\x7b\x7d" from
    (Json.Grammar.ValueText.emptyObject Json.Grammar.blanks_nil).spacedText
  nil := rfl

theorem eval_encoding_iff {text : String} {st last : State Nat} {out : Outcome} :
    Eval encoding (.raw text) st out last ↔ last = st ∧ out = .ok (.string "1") := eval_iff

theorem untouched_encoding (text name : String) : Untouched encoding (.raw text) name := by
  intro v st out last evaluated
  rcases eval_encoding_iff.mp evaluated with ⟨rfl, rfl⟩
  exact ⟨st, eval_encoding_iff.mpr ⟨rfl, rfl⟩, rfl⟩

theorem json_encoding (text : String) (st : State Nat) (v : Value) (last : State Nat)
    (evaluated : Eval encoding (.raw text) st (.ok v) last) :
    ∃ text, v = .string text ∧ Json.IsText text := by
  cases (eval_encoding_iff.mp evaluated).2
  exact ⟨"1", rfl, isText_one⟩

/-- With the errors caught, the form has a value wherever the code comes to an end, and the value is an
object of two JSON texts unless the code has a value that is ignored though it is JSON already. -/
theorem reported_iff_of_prepare {temporary : TemporaryFiles} {source : Source} {options : EvalOptions}
    {config : Config} {files after : Files} {request : Request} (catches : options.catchErrors = true)
    (prepared : prepare temporary source options config files = (.ok request, after))
    (encodes : Encodes lib) (value : Untouched lib source.toExpr "value-enc")
    (reported : Untouched lib source.toExpr "err-enc")
    (json : options.isJson = true → ∀ st v last, Eval lib source.toExpr st (.ok v) last →
      ∃ text, v = .string text ∧ Json.IsText text) :
    ∃ core, Route options config core request.expr request.output ∧
      (∀ st result last, Eval lib source.toExpr st result last → ∃ out, Eval lib core st out last) ∧
      ∀ st out last, Eval lib core st out last → ∃ result, Eval lib source.toExpr st result last ∧
        (Reported out ↔
          ¬ (options.ret.ignoresValue = true ∧ options.isJson = true ∧ ∃ v, result = .ok v)) := by
  have reads : options.readsResult = true := by simp only [EvalOptions.readsResult, catches, Bool.true_or]
  refine ⟨payload options source.toExpr, (route_of_prepare reads prepared).1, ?_, ?_⟩
  · intro st result last code
    exact ⟨_, (eval_payload_iff catches value reported).mpr ⟨result, code, rfl⟩⟩
  · intro st out last evaluated
    obtain ⟨result, code, rfl⟩ := (eval_payload_iff catches value reported).mp evaluated
    refine ⟨result, code, reported_report_iff encodes ?_⟩
    rintro isJson v rfl
    exact json isJson st v last code

/-- A value that is JSON already is reported where it is wanted. -/
theorem reported_wanted_json :
    let options : EvalOptions := { isJson := true }
    let source := Source.raw "(json-encode 1)"
    let start : State Nat := ⟨fun _ => none, 0⟩
    let temporary := TemporaryFiles.named "/tmp" "Zq3"
    ∃ request core out, prepare temporary source options .batch .fresh = (.ok request, .fresh) ∧
      Route options .batch core request.expr request.output ∧
      Eval encoding core start out start ∧ Reported out := by
  intro options source start temporary
  have catches : options.catchErrors = true := rfl
  have prepared : prepare temporary source options .batch .fresh = (.ok _, .fresh) := rfl
  obtain ⟨core, route, ends, reports⟩ := reported_iff_of_prepare catches prepared encodes_encoding
    (untouched_encoding _ _) (untouched_encoding _ _) fun _ => json_encoding _
  obtain ⟨out, evaluated⟩ := ends start _ start (eval_encoding_iff.mpr ⟨rfl, rfl⟩)
  obtain ⟨result, -, reported⟩ := reports start out start evaluated
  refine ⟨_, core, out, prepared, route, evaluated, reported.mpr ?_⟩
  rintro ⟨ignored, -⟩
  cases ignored

/-- Where the value is ignored, the same code has the result `{"value": nil, "error": null}`. -/
theorem not_reported_ignored_json :
    let options : EvalOptions := { ret := .process, isJson := true }
    let source := Source.raw "(json-encode 1)"
    let start : State Nat := ⟨fun _ => none, 0⟩
    let temporary := TemporaryFiles.named "/tmp" "Zq3"
    Encodes encoding ∧ Untouched encoding source.toExpr "value-enc" ∧
      Untouched encoding source.toExpr "err-enc" ∧
      (∀ st v last, Eval encoding source.toExpr st (.ok v) last →
        ∃ text, v = .string text ∧ Json.IsText text) ∧
      ∃ request core out, prepare temporary source options .batch .fresh = (.ok request, .fresh) ∧
        Route options .batch core request.expr request.output ∧
        Eval encoding core start out start ∧
        out = .ok (.string "\x7b\"value\": nil, \"error\": null\x7d") ∧ ¬ Reported out := by
  intro options source start temporary
  have value : Untouched encoding source.toExpr "value-enc" := untouched_encoding _ _
  have reported : Untouched encoding source.toExpr "err-enc" := untouched_encoding _ _
  refine ⟨encodes_encoding, value, reported, json_encoding _, ?_⟩
  have catches : options.catchErrors = true := rfl
  have prepared : prepare temporary source options .batch .fresh = (.ok _, .fresh) := rfl
  have code : Eval encoding source.toExpr start (.ok (.string "1")) start :=
    eval_encoding_iff.mpr ⟨rfl, rfl⟩
  have evaluated := (eval_payload_iff catches value reported).mpr ⟨_, code, rfl⟩
  exact ⟨_, _, _, prepared, (route_of_prepare rfl prepared).1, evaluated, rfl,
    not_reported_nil "null"⟩

end ElispBridge.Request
