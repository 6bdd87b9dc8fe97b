import ElispBridge.Proofs.Evaluation.Decision
/-!
The three ways a result takes: through a file, through standard output as it is, or through standard
output as a printed literal. A prepared request whose result is read takes exactly one of them, and the
text of its form shows which.
-/

namespace ElispBridge.Request

/-- A form around `core` and the place where its result will be, as options and mode decide. -/
inductive Route (options : EvalOptions) (config : Config) (core : Expr) : Expr → Output → Prop
  | file {path : String} : options.resultFile.isSome = true →
    Route options config core (writeToFile path core) (.file path)
  | stdout : options.resultFile = none → config.isBatch = true →
    Route options config core (.call "princ" [core]) .stdout
  | printed : options.resultFile = none → config.isBatch = false → Route options config core core .printed

variable {temporary : TemporaryFiles} {source : Source} {options : EvalOptions} {config : Config}
  {files after : Files} {request : Request}

theorem route_of_prepare (reads : options.readsResult = true)
    (h : prepare temporary source options config files = (.ok request, after)) :
    Route options config (payload options source.toExpr) request.expr request.output ∧
      request.baseCommand = config.baseCommand ∧ request.extraArgs = options.extraArgs := by
  rcases decision_of_prepare h with ⟨decision, commands⟩
  refine ⟨?_, commands⟩
  have payload_of_core {core : Expr} (h : Core options source.toExpr core) :
      core = payload options source.toExpr := (core_iff.mp h).2
  obtain ⟨expr, base, extra, output, held⟩ := request
  cases decision with
  | unread lets ignores =>
    rw [EvalOptions.readsResult_eq_false_iff.mpr ⟨lets, ignores⟩] at reads
    cases reads
  | callerFile core target | ownFile core target =>
    cases payload_of_core core
    exact .file (by rw [target]; rfl)
  | stdout core target batch =>
    cases payload_of_core core
    exact .stdout target (Config.isBatch_iff.mpr batch)
  | printed core target client =>
    cases payload_of_core core
    exact .printed target (eq_false_of_ne_true (mt Config.isBatch_iff.mp client))

theorem commandLine_eq (reads : options.readsResult = true)
    (h : prepare temporary source options config files = (.ok request, after)) :
    request.commandLine = config.baseCommand ++ "--eval" :: request.expr.render :: options.extraArgs := by
  rcases route_of_prepare reads h with ⟨-, base, extra⟩
  rw [commandLine, base, extra]

/-- A call of a named function starts with its name and has its arguments as code. -/
theorem chars_call {function : String} (named : function ≠ "") (args : List Expr) :
    (Expr.call function args).chars .code =
      '(' :: (function.toList ++ Expr.spacedTail .code args ++ [')']) := by
  have plain : ∀ car cdr, Expr.named function ≠ .cons car cdr := nofun
  have name : (Expr.named function).chars .code = function.toList := by
    rw [Expr.named, Expr.chars, Symbol.chars, if_neg named]
  rw [Expr.call, Expr.chars_list_of_ne_cons plain, name]

theorem render_writeToFile (path : String) (e : Expr) :
    (writeToFile path e).render = "(with-temp-file " ++
      String.ofList (Text.Quoted.encode path.toList) ++ " (insert " ++ e.render ++ "))" := by
  have start : "(with-temp-file ".toList = '(' :: ("with-temp-file".toList ++ [' ']) := by decide
  have inner : " (insert ".toList = ' ' :: '(' :: ("insert".toList ++ [' ']) := by decide
  have closing : "))".toList = [')', ')'] := by decide
  apply String.toList_inj.mp
  simp only [Expr.render, writeToFile, String.toList_ofList, String.toList_append, start, inner, closing]
  rw [chars_call (by decide)]
  simp only [Expr.spacedTail, Expr.string, Expr.chars, Literal.chars,
    chars_call (show "insert" ≠ "" by decide), List.cons_append, List.nil_append, List.append_nil,
    List.append_assoc]

theorem render_princ (e : Expr) : (Expr.call "princ" [e]).render = "(princ " ++ e.render ++ ")" := by
  have start : "(princ ".toList = '(' :: ("princ".toList ++ [' ']) := by decide
  have closing : ")".toList = [')'] := by decide
  apply String.toList_inj.mp
  simp only [Expr.render, String.toList_ofList, String.toList_append, start, closing,
    chars_call (show "princ" ≠ "" by decide), Expr.spacedTail, List.cons_append, List.nil_append,
    List.append_nil, List.append_assoc]

end ElispBridge.Request
