import ElispBridge.Proofs.Evaluation.Route
import ElispBridge.Proofs.Evaluation.Sending
/-!
Code reaches the evaluator as it is written, once and in a place where it is evaluated. What is put around
an expression is text before it and text behind it, the same for every expression, and the expression
stands between the two as code.
-/

namespace ElispBridge

open Request (chars_call)

namespace Source

mutual

/-- Code as it is written: a sequence is a `progn` of its items. -/
def text : Source → String
  | .raw text => text
  | .expr e => e.render
  | .sequence items => "(progn" ++ texts items ++ ")"

def texts : List Source → String
  | [] => ""
  | item :: rest => " " ++ item.text ++ texts rest

end

end Source

def Output.path? : Output → Option String
  | .file path => some path
  | .ignored | .stdout | .printed => none

theorem Expr.spacedTail_append (ctx : Context) (items more : List Expr) :
    Expr.spacedTail ctx (items ++ more) = Expr.spacedTail ctx items ++ Expr.spacedTail ctx more := by
  simp only [Expr.spacedTail_eq_flatMap, List.flatMap_append]

namespace Source

mutual

theorem chars_toExpr : ∀ source : Source, source.toExpr.chars .code = source.text.toList
  | .raw text => by rw [toExpr, Source.text, Expr.chars]
  | .expr e => by rw [toExpr, Source.text, Expr.render, String.toList_ofList]
  | .sequence items => by
    have opening : "(progn".toList = '(' :: "progn".toList := by decide
    rw [toExpr, Source.text, chars_call (by decide), spacedTail_toExprs items]
    simp only [String.toList_append, opening, List.cons_append]
    rfl

theorem spacedTail_toExprs :
    ∀ items : List Source, Expr.spacedTail .code (toExprs items) = (texts items).toList
  | [] => rfl
  | item :: rest => by
    rw [toExprs, texts, Expr.spacedTail, chars_toExpr item, spacedTail_toExprs rest]
    simp only [String.toList_append, List.append_assoc]
    rfl

end

end Source

/-- Around any expression `wrap` puts the same text, with the expression as code inside. -/
def Surrounds (wrap : Expr → Expr) : Prop :=
  ∃ before behind, ∀ e, (wrap e).chars .code = before ++ e.chars .code ++ behind

namespace Surrounds

theorem refl : Surrounds id := by
  refine ⟨[], [], ?_⟩
  intro e
  simp only [id, List.nil_append, List.append_nil]

theorem comp {outer inner : Expr → Expr} (ho : Surrounds outer) (hi : Surrounds inner) :
    Surrounds (outer ∘ inner) := by
  rcases ho with ⟨before, behind, around⟩
  rcases hi with ⟨before', behind', around'⟩
  refine ⟨before ++ before', behind' ++ behind, ?_⟩
  intro e
  simp only [Function.comp_apply, around, around', List.append_assoc]

/-- An argument of a call is code, with the arguments next to it as they are. -/
theorem argument {function : String} (named : function ≠ "") (left right : List Expr) :
    Surrounds fun e => .call function (left ++ e :: right) := by
  refine ⟨'(' :: (function.toList ++ Expr.spacedTail .code left ++ [' ']),
    Expr.spacedTail .code right ++ [')'], ?_⟩
  intro e
  simp only [chars_call named, Expr.spacedTail_append, Expr.spacedTail, List.cons_append, List.append_assoc,
    List.nil_append]

end Surrounds

open ElispBridge.Expr ElispBridge.Snippet

theorem surrounds_encodeJson : Surrounds encodeJson :=
  .comp (.argument (show "progn" ≠ "" by decide) [requireJson] [])
    (.argument (show "json-encode" ≠ "" by decide) [] [])

theorem surrounds_guard : Surrounds guard :=
  .argument (show "condition-case" ≠ "" by decide) [named "err"]
    [call "error" [call "setq" [named "err-enc", errorReport], string "null"]]

theorem surrounds_catchErrorsJson (encoded : Bool) : Surrounds (catchErrorsJson · encoded) := by
  have value : Surrounds fun e => if encoded then e else call "json-encode" [e] := by
    cases encoded with
    | false => exact .argument (show "json-encode" ≠ "" by decide) [] []
    | true => exact .refl
  have assigned : Surrounds fun e => call "setq" [named "value-enc", e] :=
    .argument (show "setq" ≠ "" by decide) [named "value-enc"] []
  have bound : Surrounds fun e => call "let"
      [list [list [named "value-enc", .nil], list [named "err-enc", string "null"]], requireJson, e,
        call "format" [string resultFormat, named "value-enc", named "err-enc"]] :=
    .argument (show "let" ≠ "" by decide) [_, requireJson] [_]
  -- From the outside in: the variables, the assignment of the value, the guard, the encoding.
  exact bound.comp (assigned.comp (surrounds_guard.comp value))

namespace Request

theorem surrounds_payload (options : EvalOptions) : Surrounds (payload options) := by
  show Surrounds fun e => payload options e
  have unwanted : Surrounds fun e => call "progn" [e, .nil] :=
    .argument (show "progn" ≠ "" by decide) [] [.nil]
  cases catches : options.catchErrors with
  | false =>
    cases kept : options.ret.ignoresValue || options.isJson with
    | false =>
      simp only [payload, catches, kept, Bool.false_eq_true, ↓reduceIte]
      exact surrounds_encodeJson
    | true =>
      simp only [payload, catches, kept, Bool.false_eq_true, ↓reduceIte]
      exact .refl
  | true =>
    cases ignored : options.ret.ignoresValue with
    | false =>
      simp only [payload, catches, ignored, Bool.false_eq_true, ↓reduceIte]
      exact surrounds_catchErrorsJson options.isJson
    | true =>
      simp only [payload, catches, ignored, ↓reduceIte]
      exact (surrounds_catchErrorsJson options.isJson).comp unwanted

theorem surrounds_writeToFile (path : String) : Surrounds (writeToFile path) :=
  .comp (.argument (show "with-temp-file" ≠ "" by decide) [string path] [])
    (.argument (show "insert" ≠ "" by decide) [] [])

theorem surrounds_princ : Surrounds fun e => call "princ" [e] :=
  .argument (show "princ" ≠ "" by decide) [] []

/-- What is put around an expression, by the options, the mode and the path of the result. -/
def around (options : EvalOptions) (mode : Mode) (path : Option String) : Expr → Expr :=
  if options.readsResult then
    match path with
    | some name => writeToFile name ∘ payload options
    | none => if mode = .batch then (call "princ" [·]) ∘ payload options else payload options
  else id

theorem surrounds_around (options : EvalOptions) (mode : Mode) (path : Option String) :
    Surrounds (around options mode path) := by
  have core := surrounds_payload options
  unfold around
  split
  · split
    · exact (surrounds_writeToFile _).comp core
    · split
      · exact surrounds_princ.comp core
      · exact core
  · exact .refl

theorem Decision.form_eq {temporary : TemporaryFiles} {options : EvalOptions} {mode : Mode}
    {files after : Files} {e form : Expr} {output : Output} {held : Option Path}
    (h : Decision temporary options mode files e form output held after) :
    form = around options mode output.path? e := by
  cases h with
  | unread lets ignores =>
    have reads := EvalOptions.readsResult_eq_false_iff.mpr ⟨lets, ignores⟩
    simp only [around, reads, Bool.false_eq_true, ↓reduceIte, id]
  | callerFile core | ownFile core =>
    rcases core_iff.mp core with ⟨reads, rfl⟩
    simp only [around, reads, Output.path?, ↓reduceIte]
    rfl
  | stdout core _ mode =>
    rcases core_iff.mp core with ⟨reads, rfl⟩
    simp only [around, reads, mode, Output.path?, ↓reduceIte, Function.comp_apply]
  | printed core _ mode =>
    rcases core_iff.mp core with ⟨reads, rfl⟩
    simp only [around, reads, mode, Output.path?, ↓reduceIte]

/-- For given options, mode and path of the result, the evaluated form is the code as it is written
between two texts, whatever the code, and wherever the host puts a file that it makes for the result. -/
theorem commandLine_verbatim (options : EvalOptions) (mode : Mode) (path : Option String) :
    ∃ before behind : String, ∀ (temporary : TemporaryFiles) (source : Source) (config : Config)
      (files after : Files) (request : Request), config.mode = mode → request.output.path? = path →
      prepare temporary source options config files = (.ok request, after) →
      request.expr.render = before ++ source.text ++ behind ∧
        request.commandLine =
          config.baseCommand ++ ["--eval", before ++ source.text ++ behind] ++ options.extraArgs := by
  rcases surrounds_around options mode path with ⟨before, behind, around⟩
  refine ⟨String.ofList before, String.ofList behind, ?_⟩
  rintro temporary source config files after request rfl rfl prepared
  rcases decision_of_prepare prepared with ⟨decision, base, extra⟩
  have form : request.expr.render = String.ofList before ++ source.text ++ String.ofList behind := by
    apply String.toList_inj.mp
    rw [Expr.render, decision.form_eq, around, source.chars_toExpr]
    simp only [String.toList_ofList, String.toList_append]
  refine ⟨form, ?_⟩
  rw [commandLine, base, extra, form, List.append_assoc]
  rfl

/-- Text, a list that begins with a cell, a cell whose quotation keeps its mark, and an empty sequence, with
a file made for the result in a directory of the host's own. -/
theorem commandLine_verbatim_cells :
    let temporary := TemporaryFiles.named "/tmp/work" "Zq3"
    let options : EvalOptions := { resultFile := some .auto, extraArgs := ["-x"] }
    let source := Source.sequence [.raw "(f)", .expr (.list [.cons (named "a") (.int 1)]),
      .expr (.cons (.int 1) (.quoted (named "x"))), .sequence []]
    let written := "(progn (f) ((a . 1)) (cons 1 'x) (progn))"
    ∃ (before behind : String) (request : Request) (after : Files),
      prepare temporary source options .batch .fresh = (.ok request, after) ∧
        request.output.path? = some "/tmp/work/emacs-result-Zq3.json" ∧
        request.expr.render = before ++ written ++ behind ∧
        request.commandLine = ["emacs", "--batch", "--eval", before ++ written ++ behind, "-x"] := by
  intro temporary options source written
  have core : Core options source.toExpr (Snippet.catchErrorsJson source.toExpr false) :=
    .caught rfl (EvalOptions.ignoresValue_eq_false_iff.mp rfl)
  obtain ⟨after, created⟩ : ∃ after, temporary.create "emacs-result-" ".json" .fresh =
      (.ok (.ofString "/tmp/work/emacs-result-Zq3.json"), after) := ⟨_, rfl⟩
  have decision : Decision temporary options Config.batch.mode .fresh source.toExpr _ _ _ after :=
    .ownFile core rfl created
  have prepared := prepare_of_decision decision
  have code : source.text = written := by decide
  rcases commandLine_verbatim options .batch (some "/tmp/work/emacs-result-Zq3.json") with
    ⟨before, behind, around⟩
  have both := around temporary source .batch .fresh after _ rfl rfl prepared
  rw [code] at both
  exact ⟨before, behind, _, after, prepared, rfl, both.1, both.2⟩

end Request

end ElispBridge
