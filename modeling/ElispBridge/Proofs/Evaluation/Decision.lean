import ElispBridge.Evaluation.Request
import ElispBridge.Proofs.Evaluation.FileRoundTrip
/-!
What a request asks for, as a table with a row for each case: the form around the code, where its result
goes, and the path that the request holds. Preparing code answers by the table, and fails only where the
result is to go through a file that cannot be made or whose path is not text.
-/

namespace ElispBridge

theorem Config.isBatch_iff {config : Config} : config.isBatch = true ↔ config.mode = .batch := beq_iff_eq

/-- The value of the code is not wanted. -/
def EvalOptions.Ignores (options : EvalOptions) : Prop := options.ret = .process ∨ options.ret = .none

theorem EvalOptions.ignoresValue_iff {options : EvalOptions} :
    options.ret.ignoresValue = true ↔ options.Ignores := by
  unfold EvalOptions.Ignores
  cases options.ret <;> decide

theorem EvalOptions.ignoresValue_eq_false_iff {options : EvalOptions} :
    options.ret.ignoresValue = false ↔ ¬ options.Ignores := by
  rw [← EvalOptions.ignoresValue_iff, Bool.not_eq_true]

theorem EvalOptions.readsResult_iff {options : EvalOptions} :
    options.readsResult = true ↔ options.catchErrors = true ∨ ¬ options.Ignores := by
  rw [EvalOptions.readsResult, Bool.or_eq_true, Bool.not_eq_true', EvalOptions.ignoresValue_eq_false_iff]

theorem EvalOptions.readsResult_eq_false_iff {options : EvalOptions} :
    options.readsResult = false ↔ options.catchErrors = false ∧ options.Ignores := by
  rw [EvalOptions.readsResult, Bool.or_eq_false_iff, Bool.not_eq_false', EvalOptions.ignoresValue_iff]

namespace Request

/-- The form whose value is the result, if the result is read. -/
inductive Core (options : EvalOptions) (e : Expr) : Expr → Prop
  | caughtIgnored : options.catchErrors = true → options.Ignores →
    Core options e (Snippet.catchErrorsJson (.call "progn" [e, .nil]) options.isJson)
  | caught : options.catchErrors = true → ¬ options.Ignores →
    Core options e (Snippet.catchErrorsJson e options.isJson)
  | asIs : options.catchErrors = false → ¬ options.Ignores → options.isJson = true → Core options e e
  | encoded : options.catchErrors = false → ¬ options.Ignores → options.isJson = false →
    Core options e
      (.call "progn" [.call "require" [.quoted (.named "json")], .call "json-encode" [e]])

variable {temporary : TemporaryFiles}

/-- The form, the place of its result, the path held for that, and the files afterwards. -/
inductive Decision (temporary : TemporaryFiles) (options : EvalOptions) (mode : Mode) (files : Files)
    (e : Expr) : Expr → Output → (held : Option Path) → (after : Files) → Prop
  | unread : options.catchErrors = false → options.Ignores →
    Decision temporary options mode files e e .ignored none files
  | callerFile {core : Expr} {name : String} : Core options e core →
    options.resultFile = some (.path (.ofString name)) →
    Decision temporary options mode files e
      (.call "with-temp-file" [.string name, .call "insert" [core]]) (.file name) none files
  | ownFile {core : Expr} {name : String} {after : Files} : Core options e core →
    options.resultFile = some .auto →
    temporary.create "emacs-result-" ".json" files = (.ok (.ofString name), after) →
    Decision temporary options mode files e
      (.call "with-temp-file" [.string name, .call "insert" [core]]) (.file name)
      (some (.ofString name)) after
  | stdout {core : Expr} : Core options e core → options.resultFile = none → mode = .batch →
    Decision temporary options mode files e (.call "princ" [core]) .stdout none files
  | printed {core : Expr} : Core options e core → options.resultFile = none → mode ≠ .batch →
    Decision temporary options mode files e core .printed none files

/-- What is wrong with the file that a result is to go through, and the files afterwards. -/
inductive Refusal (temporary : TemporaryFiles) (options : EvalOptions) (files : Files) :
    EvaluationError → (after : Files) → Prop
  | callerFile {path : Path} : options.resultFile = some (.path path) → (∀ name, path ≠ .ofString name) →
    Refusal temporary options files (.pathNotText path) files
  | notMade {error : FileError} {after : Files} : options.resultFile = some .auto →
    temporary.create "emacs-result-" ".json" files = (.error error, after) →
    Refusal temporary options files (.file error) after
  | ownFile {path : Path} {made : Files} : options.resultFile = some .auto →
    temporary.create "emacs-result-" ".json" files = (.ok path, made) → (∀ name, path ≠ .ofString name) →
    Refusal temporary options files (.pathNotText path) (temporary.remove path made)

theorem core_iff {options : EvalOptions} {e core : Expr} :
    Core options e core ↔ options.readsResult = true ∧ core = payload options e := by
  constructor
  · intro h
    cases h with
    | caughtIgnored catches ignores =>
      have ignored := EvalOptions.ignoresValue_iff.mpr ignores
      refine ⟨EvalOptions.readsResult_iff.mpr (.inl catches), ?_⟩
      simp only [payload, catches, ignored, ↓reduceIte]
    | caught catches wanted =>
      have kept := EvalOptions.ignoresValue_eq_false_iff.mpr wanted
      refine ⟨EvalOptions.readsResult_iff.mpr (.inl catches), ?_⟩
      simp only [payload, catches, kept, Bool.false_eq_true, ↓reduceIte]
    | asIs lets wanted json =>
      refine ⟨EvalOptions.readsResult_iff.mpr (.inr wanted), ?_⟩
      simp only [payload, lets, json, Bool.or_true, Bool.false_eq_true, ↓reduceIte]
    | encoded lets wanted value =>
      have kept := EvalOptions.ignoresValue_eq_false_iff.mpr wanted
      refine ⟨EvalOptions.readsResult_iff.mpr (.inr wanted), ?_⟩
      simp only [payload, lets, kept, value, Bool.or_false, Bool.false_eq_true, ↓reduceIte]
      rfl
  · rintro ⟨reads, rfl⟩
    unfold payload
    split
    · rename_i catches
      split
      · rename_i ignored
        exact .caughtIgnored catches (EvalOptions.ignoresValue_iff.mp ignored)
      · rename_i kept
        exact .caught catches (mt EvalOptions.ignoresValue_iff.mpr kept)
    · rename_i lets
      have wanted := (EvalOptions.readsResult_iff.mp reads).resolve_left lets
      have kept := EvalOptions.ignoresValue_eq_false_iff.mpr wanted
      rw [kept, Bool.false_or]
      split
      · rename_i json
        exact .asIs (eq_false_of_ne_true lets) wanted json
      · rename_i value
        exact .encoded (eq_false_of_ne_true lets) wanted (eq_false_of_ne_true value)

theorem prepare_of_unread {options : EvalOptions} (unread : options.readsResult = false)
    (temporary : TemporaryFiles) (source : Source) (config : Config) (files : Files) :
    prepare temporary source options config files =
      (.ok (plain options config source.toExpr .ignored), files) := by
  rcases EvalOptions.readsResult_eq_false_iff.mp unread with ⟨lets, ignores⟩
  have ignored := EvalOptions.ignoresValue_iff.mpr ignores
  simp only [prepare, unread, payload, lets, ignored, Bool.true_or, Bool.not_false, Bool.false_eq_true,
    ↓reduceIte]

theorem decision_of_prepare {source : Source} {options : EvalOptions} {config : Config}
    {files after : Files} {request : Request}
    (h : prepare temporary source options config files = (.ok request, after)) :
    Decision temporary options config.mode files source.toExpr request.expr request.output request.held
        after ∧
      request.baseCommand = config.baseCommand ∧ request.extraArgs = options.extraArgs := by
  cases reads : options.readsResult with
  | false =>
    rcases EvalOptions.readsResult_eq_false_iff.mp reads with ⟨lets, ignores⟩
    cases (prepare_of_unread reads temporary source config files).symm.trans h
    exact ⟨.unread lets ignores, rfl, rfl⟩
  | true =>
    have core : Core options source.toExpr (payload options source.toExpr) := core_iff.mpr ⟨reads, rfl⟩
    simp only [prepare, reads, Bool.not_true, Bool.false_eq_true, ↓reduceIte] at h
    split at h
    · rename_i path target
      split at h
      · rename_i name text
        rw [Path.text?_eq_some_iff.mp text] at target
        cases h
        exact ⟨.callerFile core target, rfl, rfl⟩
      · cases h
    · rename_i target
      split at h
      · cases h
      · rename_i path made created
        split at h
        · rename_i name text
          rw [Path.text?_eq_some_iff.mp text] at created h
          cases h
          exact ⟨.ownFile core target created, rfl, rfl⟩
        · cases h
    · rename_i target
      split at h
      · rename_i batch
        cases h
        exact ⟨.stdout core target (Config.isBatch_iff.mp batch), rfl, rfl⟩
      · rename_i client
        cases h
        exact ⟨.printed core target (mt Config.isBatch_iff.mpr client), rfl, rfl⟩

theorem prepare_of_decision {source : Source} {options : EvalOptions} {config : Config}
    {files after : Files} {form : Expr} {output : Output} {held : Option Path}
    (h : Decision temporary options config.mode files source.toExpr form output held after) :
    prepare temporary source options config files =
      (.ok ⟨form, config.baseCommand, options.extraArgs, output, held⟩, after) := by
  cases h with
  | unread lets ignores =>
    exact prepare_of_unread (EvalOptions.readsResult_eq_false_iff.mpr ⟨lets, ignores⟩) temporary source
      config files
  | callerFile core target =>
    rcases core_iff.mp core with ⟨reads, rfl⟩
    simp only [prepare, reads, target, Path.text?_ofString, Bool.not_true, Bool.false_eq_true, ↓reduceIte]
    rfl
  | ownFile core target created =>
    rcases core_iff.mp core with ⟨reads, rfl⟩
    simp only [prepare, reads, target, created, Path.text?_ofString, Bool.not_true, Bool.false_eq_true,
      ↓reduceIte]
    rfl
  | stdout core target mode =>
    rcases core_iff.mp core with ⟨reads, rfl⟩
    have batch := Config.isBatch_iff.mpr mode
    simp only [prepare, reads, target, batch, Bool.not_true, Bool.false_eq_true, ↓reduceIte]
    rfl
  | printed core target mode =>
    rcases core_iff.mp core with ⟨reads, rfl⟩
    have client := eq_false_of_ne_true (mt Config.isBatch_iff.mp mode)
    simp only [prepare, reads, target, client, Bool.not_true, Bool.false_eq_true, ↓reduceIte]
    rfl

theorem prepare_eq_ok_iff {source : Source} {options : EvalOptions} {config : Config}
    {files after : Files} {request : Request} :
    prepare temporary source options config files = (.ok request, after) ↔
      Decision temporary options config.mode files source.toExpr request.expr request.output request.held
          after ∧
        request.baseCommand = config.baseCommand ∧ request.extraArgs = options.extraArgs := by
  constructor
  · exact decision_of_prepare
  · rintro ⟨decision, base, extra⟩
    rw [prepare_of_decision decision, ← base, ← extra]

theorem refusal_of_prepare {source : Source} {options : EvalOptions} {config : Config}
    {files after : Files} {error : EvaluationError}
    (h : prepare temporary source options config files = (.error error, after)) :
    options.readsResult = true ∧ Refusal temporary options files error after := by
  cases reads : options.readsResult with
  | false => cases (prepare_of_unread reads temporary source config files).symm.trans h
  | true =>
    refine ⟨rfl, ?_⟩
    simp only [prepare, reads, Bool.not_true, Bool.false_eq_true, ↓reduceIte] at h
    split at h
    · rename_i path target
      split at h
      · cases h
      · rename_i noText
        cases h
        exact .callerFile target (Path.text?_eq_none_iff.mp noText)
    · rename_i target
      split at h
      · rename_i failed
        cases h
        exact .notMade target failed
      · rename_i created
        split at h
        · cases h
        · rename_i noText
          cases h
          exact .ownFile target created (Path.text?_eq_none_iff.mp noText)
    · split at h
      · cases h
      · cases h

theorem prepare_of_refusal {source : Source} {options : EvalOptions} {config : Config}
    {files after : Files} {error : EvaluationError} (reads : options.readsResult = true)
    (h : Refusal temporary options files error after) :
    prepare temporary source options config files = (.error error, after) := by
  cases h with
  | callerFile target noText =>
    simp only [prepare, reads, target, Path.text?_eq_none_iff.mpr noText, Bool.not_true,
      Bool.false_eq_true, ↓reduceIte]
  | notMade target failed =>
    simp only [prepare, reads, target, failed, Bool.not_true, Bool.false_eq_true, ↓reduceIte]
  | ownFile target created noText =>
    simp only [prepare, reads, target, created, Path.text?_eq_none_iff.mpr noText, Bool.not_true,
      Bool.false_eq_true, ↓reduceIte]

theorem prepare_eq_error_iff {source : Source} {options : EvalOptions} {config : Config}
    {files after : Files} {error : EvaluationError} :
    prepare temporary source options config files = (.error error, after) ↔
      (options.catchErrors = true ∨ ¬ options.Ignores) ∧ Refusal temporary options files error after := by
  rw [← EvalOptions.readsResult_iff]
  constructor
  · exact refusal_of_prepare
  · rintro ⟨reads, refusal⟩
    exact prepare_of_refusal reads refusal

/-- With a path of the caller's own, only that path can be refused. -/
theorem refusal_path_iff {options : EvalOptions} {files after : Files} {path : Path}
    {error : EvaluationError} (target : options.resultFile = some (.path path)) :
    Refusal temporary options files error after ↔
      (∀ name, path ≠ .ofString name) ∧ error = .pathNotText path ∧ after = files := by
  constructor
  · intro h
    cases h with
    | callerFile same noText =>
      cases target.symm.trans same
      exact ⟨noText, rfl, rfl⟩
    | notMade own | ownFile own => cases target.symm.trans own
  · rintro ⟨noText, rfl, rfl⟩
    exact .callerFile target noText

/-- Preparing code has the answer of the table: a request exactly where there is a row for it, with the
rest of its command line as configured, and an error exactly where the result is to be read and something
is wrong with its file. For a file of the caller's that is a path which is not text. A result that is not
read goes nowhere, whatever the file and the mode, and no file is made for it. -/
theorem prepare_decides (temporary : TemporaryFiles) (source : Source) (options : EvalOptions)
    (config : Config) (files : Files) :
    (∀ request after, prepare temporary source options config files = (.ok request, after) ↔
      Decision temporary options config.mode files source.toExpr request.expr request.output request.held
          after ∧
        request.baseCommand = config.baseCommand ∧ request.extraArgs = options.extraArgs) ∧
    (∀ error after, prepare temporary source options config files = (.error error, after) ↔
      (options.catchErrors = true ∨ ¬ options.Ignores) ∧ Refusal temporary options files error after) ∧
    (∀ path, options.resultFile = some (.path path) → ∀ error after,
      prepare temporary source options config files = (.error error, after) ↔
        (options.catchErrors = true ∨ ¬ options.Ignores) ∧ (∀ name, path ≠ .ofString name) ∧
          error = .pathNotText path ∧ after = files) ∧
    (options.catchErrors = false → options.Ignores → ∀ resultFile mode, ∃ request,
      prepare temporary source { options with resultFile } { config with mode } files =
          (.ok request, files) ∧
        request.expr = source.toExpr ∧ request.output = .ignored) := by
  refine ⟨fun _ _ => prepare_eq_ok_iff, fun _ _ => prepare_eq_error_iff, ?_, ?_⟩
  · intro path target error after
    rw [prepare_eq_error_iff, refusal_path_iff target]
  · intro lets ignores resultFile mode
    exact ⟨_, prepare_of_decision (.unread lets ignores), rfl, rfl⟩

end Request

end ElispBridge
