import ElispBridge.Evaluation.Session
import ElispBridge.Proofs.Evaluation.Decision
/-!
What comes of a request that is sent, and what becomes of the file that was made for it. A host that keeps
to the laws of temporary files makes it where there was none, and when the evaluation has come to its end,
whatever its outcome, the file is gone. Code that cannot be prepared leaves no trace.
-/

namespace ElispBridge

/-- What is answered to a reply. -/
def Output.answer (output : Output) (left : Files) : Except String String → Except EvaluationError String
  | .ok text => output.collect text left
  | .error message => .error (.evaluator message)

theorem World.call_eq {evaluator : Evaluator} {commandLine : List String} {world : World}
    {reply : Except String String} {left : Files}
    (replied : evaluator commandLine world.files = (reply, left)) :
    world.call evaluator commandLine =
      (Output.stdout.answer left reply, { files := left, calls := world.calls ++ [commandLine] }) := by
  rw [World.call, replied]
  cases reply <;> rfl

theorem Request.send_eq {request : Request} {evaluator : Evaluator} {world : World}
    {reply : Except String String} {left : Files}
    (replied : evaluator request.commandLine world.files = (reply, left)) :
    request.send evaluator world =
      (request.output.answer left reply,
        { files := left, calls := world.calls ++ [request.commandLine] }) := by
  rw [Request.send, World.call_eq replied]
  cases reply <;> rfl

namespace Config

variable {source : Source} {options : EvalOptions} {config : Config} {host : Host} {world : World}

theorem eval_of_error {error : EvaluationError} {after : Files}
    (h : Request.prepare host.temporary source options config world.files = (.error error, after)) :
    config.eval source options host world = (.error error, { world with files := after }) := by
  rw [eval, h]

theorem eval_of_ok {request : Request} {given left : Files} {reply : Except String String}
    (h : Request.prepare host.temporary source options config world.files = (.ok request, given))
    (replied : host.evaluator request.commandLine given = (reply, left)) :
    config.eval source options host world =
      (request.output.answer left reply,
        { files := request.drop host.temporary 0 left,
          calls := world.calls ++ [request.commandLine] }) := by
  have sent : request.send host.evaluator { world with files := given } = _ := Request.send_eq replied
  rw [eval, h]
  simp only [sent]

end Config

theorem Files.read_remove (files : Files) (path : String) (bytes : ByteArray) :
    (files.remove path).read path ≠ .ok bytes := by
  cases found : files.resolve path with
  | error e => simp only [remove, read, found, ne_eq, reduceCtorEq, not_false_eq_true]
  | ok place =>
    have resolved : (files.forget place).resolve path = .ok place :=
      @resolve_of_directories files (files.forget place) rfl rfl path place found
    have absent : (files.forget place).contents.lookup place = none := by
      rw [List.lookup_eq_none_iff]
      rintro ⟨other, content⟩ member
      have kept : other ≠ place := bne_iff_ne.mp (List.mem_filter.mp member).2
      exact bne_iff_ne.mpr kept.symm
    simp only [remove, read, found, resolved, absent]
    split <;> simp only [ne_eq, reduceCtorEq, not_false_eq_true]

theorem Files.forget_of_absent {files : Files} {place : Place} (absent : files.contents.lookup place = none) :
    files.forget place = files := by
  unfold forget
  rw [List.filter_eq_self.mpr]
  rintro ⟨other, content⟩ member
  have ne := List.lookup_eq_none_iff.mp absent (other, content) member
  exact bne_iff_ne.mpr (bne_iff_ne.mp ne).symm

theorem Files.remove_write {files after : Files} {path : String} {content : ByteArray}
    (missing : ∀ bytes, files.read path ≠ .ok bytes) (written : files.write path content = .ok after) :
    after.remove path = files := by
  rcases write_cases written with ⟨place, found, file, plainName, shape⟩
  have absent : files.contents.lookup place = none := by
    cases content : files.contents.lookup place with
    | none => rfl
    | some bytes =>
      refine absurd ?_ (missing bytes)
      simp only [read, found, file, content, plainName, Bool.false_eq_true, ↓reduceIte]
  have directories : after.directories = files.directories := by rw [shape]
  have working : after.working = files.working := by rw [shape]
  have restored : after.forget place = files := by
    rw [shape, forget_of_absent absent]
    unfold forget
    simp only [List.filter_cons, bne_self_eq_false, Bool.false_eq_true, ↓reduceIte]
    exact forget_of_absent absent
  rw [remove, resolve_of_directories directories working found]
  exact restored

namespace TemporaryFiles

/-- What a host keeps to. A file is made, empty, where there is none, and what cannot be made leaves
everything as it was. A file that is removed is gone, and one that is removed at once leaves no trace. -/
structure Lawful (temporary : TemporaryFiles) : Prop where
  fresh {start ending name : String} {files after : Files} (bytes : ByteArray) :
    temporary.create start ending files = (.ok (.ofString name), after) → files.read name ≠ .ok bytes
  empty {start ending name : String} {files after : Files} :
    temporary.create start ending files = (.ok (.ofString name), after) → after.read name = .ok .empty
  failed {start ending : String} {files after : Files} {error : FileError} :
    temporary.create start ending files = (.error error, after) → after = files
  removed (name : String) (files : Files) (bytes : ByteArray) :
    (temporary.remove (.ofString name) files).read name ≠ .ok bytes
  undone {start ending : String} {files after : Files} {path : Path} :
    temporary.create start ending files = (.ok path, after) → temporary.remove path after = files

/-- Files whose names have the same text between start and ending, all in one directory. Where there is
such a file already, none is made. -/
def named (directory middle : String) : TemporaryFiles where
  create start ending files :=
    let name := directory ++ "/" ++ start ++ middle ++ ending
    match files.read name with
    | .ok _ => (.error (.other "the file exists"), files)
    | .error _ =>
      match files.write name .empty with
      | .ok after => (.ok (.ofString name), after)
      | .error error => (.error error, files)
  remove path files :=
    match path.text? with
    | some name => files.remove name
    | none => files

theorem named_create {directory middle start ending name : String} {files after : Files}
    {error : FileError} (path : directory ++ "/" ++ start ++ middle ++ ending = name)
    (missing : files.read name = .error error) (written : files.write name .empty = .ok after) :
    (named directory middle).create start ending files = (.ok (.ofString name), after) := by
  simp only [named, path, missing, written]

theorem named_cases {directory middle start ending : String} {files after : Files}
    {made : Except FileError Path}
    (h : (named directory middle).create start ending files = (made, after)) :
    let name := directory ++ "/" ++ start ++ middle ++ ending
    (made = .ok (.ofString name) ∧ (∀ bytes, files.read name ≠ .ok bytes) ∧
      files.write name .empty = .ok after) ∨
    ((∃ error, made = .error error) ∧ after = files) := by
  intro name
  simp only [named] at h
  split at h
  · cases h
    exact .inr ⟨⟨_, rfl⟩, rfl⟩
  · rename_i missing
    split at h
    · rename_i written
      cases h
      refine .inl ⟨rfl, ?_, written⟩
      intro bytes read
      cases missing.symm.trans read
    · cases h
      exact .inr ⟨⟨_, rfl⟩, rfl⟩

theorem lawful_named (directory middle : String) : (named directory middle).Lawful where
  fresh bytes created := by
    rcases named_cases created with ⟨same, missing, -⟩ | ⟨⟨_, failed⟩, -⟩
    · rw [Path.ofString_injective (Except.ok.inj same)]
      exact missing bytes
    · cases failed
  empty created := by
    rcases named_cases created with ⟨same, -, written⟩ | ⟨⟨_, failed⟩, -⟩
    · rw [Path.ofString_injective (Except.ok.inj same)]
      exact Files.read_write written
    · cases failed
  failed created := by
    rcases named_cases created with ⟨same, -⟩ | ⟨-, unchanged⟩
    · cases same
    · exact unchanged
  removed name files bytes := by
    simp only [named, Path.text?_ofString]
    exact Files.read_remove files name bytes
  undone created := by
    rcases named_cases created with ⟨same, missing, written⟩ | ⟨⟨_, failed⟩, -⟩
    · cases same
      simp only [named, Path.text?_ofString]
      exact Files.remove_write missing written
    · cases failed

end TemporaryFiles

namespace Request

theorem held_of_auto {temporary : TemporaryFiles} {source : Source} {options : EvalOptions}
    {config : Config} {files given : Files} {request : Request} (own : options.resultFile = some .auto)
    (reads : options.readsResult = true)
    (h : prepare temporary source options config files = (.ok request, given)) :
    ∃ name, request.output = .file name ∧ request.held = some (.ofString name) ∧
      temporary.create "emacs-result-" ".json" files = (.ok (.ofString name), given) := by
  rcases decision_of_prepare h with ⟨decision, -⟩
  obtain ⟨expr, base, extra, output, held⟩ := request
  cases decision with
  | unread lets ignores =>
    rw [EvalOptions.readsResult_eq_false_iff.mpr ⟨lets, ignores⟩] at reads
    cases reads
  | ownFile _ _ created => exact ⟨_, rfl, rfl, created⟩
  | callerFile _ target | stdout _ target | printed _ target => cases own.symm.trans target

theorem files_of_error {temporary : TemporaryFiles} {source : Source} {options : EvalOptions}
    {config : Config} {files after : Files} {error : EvaluationError} (lawful : temporary.Lawful)
    (h : prepare temporary source options config files = (.error error, after)) : after = files := by
  cases (refusal_of_prepare h).2 with
  | callerFile => rfl
  | notMade _ failed => exact lawful.failed failed
  | ownFile _ created => exact lawful.undone created

end Request

/-- The file made for an evaluation is nobody else's: there was none before, and there is none when the
evaluation is over, be it with a result or with an error. -/
theorem Config.eval_own_file {source : Source} {options : EvalOptions} {config : Config} {host : Host}
    {world : World} {request : Request} {given : Files} (lawful : host.temporary.Lawful)
    (own : options.resultFile = some .auto) (reads : options.readsResult = true)
    (h : Request.prepare host.temporary source options config world.files = (.ok request, given)) :
    ∃ name, request.output = .file name ∧ given.read name = .ok .empty ∧
      ∀ bytes, world.files.read name ≠ .ok bytes ∧
        (config.eval source options host world).2.files.read name ≠ .ok bytes := by
  rcases Request.held_of_auto own reads h with ⟨name, target, held, created⟩
  refine ⟨name, target, lawful.empty created, ?_⟩
  intro bytes
  refine ⟨lawful.fresh bytes created, ?_⟩
  rw [eval_of_ok h rfl]
  simp only [Request.drop, held]
  exact lawful.removed name _ bytes

end ElispBridge
