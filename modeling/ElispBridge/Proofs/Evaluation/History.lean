import ElispBridge.Proofs.Evaluation.Sending
/-!
Whole runs of a session. `Happens` says what one operation does: which command line it has run, if any, what
it answers and which files there are afterwards; `History` says it of a sequence of operations. A session
performs a sequence in exactly the way of its history, records the command lines of it and nothing else, and
stays configured as it was.
-/

namespace ElispBridge

/-- What a session is asked to do. A request may have been prepared under any configuration. -/
inductive Operation where
  | run (args : List String)
  | eval (source : Source) (options : EvalOptions)
  | send (request : Request)

namespace Session

def perform (host : Host) : Operation → Session → Except EvaluationError String × Session
  | .run args, session => session.run args host.evaluator
  | .eval source options, session => session.eval source options host
  | .send request, session => session.send request host.evaluator

/-- Performs operations one after the other, each on a host of its own: one that has a state is another
host at each of them. -/
def performAll : List (Operation × Host) → Session → List (Except EvaluationError String) × Session
  | [], session => ([], session)
  | (operation, host) :: rest, session =>
    let (answer, session) := session.perform host operation
    let (answers, session) := performAll rest session
    (answer :: answers, session)

end Session

/-- The answer that comes of a reply of the evaluator and of the files that it leaves. A failure is the
answer whatever the output would be and whatever is in the files. -/
inductive Answers (left : Files) : Output → Except String String → Except EvaluationError String → Prop
  | failed (output : Output) (message : String) :
    Answers left output (.error message) (.error (.evaluator message))
  | ignored (stdout : String) : Answers left .ignored (.ok stdout) (.ok stdout)
  | stdout (stdout : String) : Answers left .stdout (.ok stdout) (.ok stdout)
  | printed {stdout : String} {s : List Char} :
    Text.Quoted.decode (Text.trim stdout.toList) = some s →
    Answers left .printed (.ok stdout) (.ok (String.ofList s))
  | malformed {stdout : String} :
    Text.Quoted.decode (Text.trim stdout.toList) = none →
    Answers left .printed (.ok stdout)
      (.error (.malformedOutput (String.ofList (Text.trim stdout.toList))))
  | written {path text : String} (stdout : String) : left.read path = .ok text.toUTF8 →
    Answers left (.file path) (.ok stdout) (.ok text)
  | unreadable {path : String} {error : FileError} (stdout : String) : left.readText path = .error error →
    Answers left (.file path) (.ok stdout) (.error (.file error))

/-- One operation: its answer, the command line it has run and the files afterwards. -/
inductive Happens (config : Config) (host : Host) (files : Files) :
    Operation → Except EvaluationError String → Option (List String) → Files → Prop
  | run {args : List String} {reply : Except String String} {left : Files}
    {answer : Except EvaluationError String} :
    host.evaluator (config.baseCommand ++ args) files = (reply, left) → Answers left .stdout reply answer →
    Happens config host files (.run args) answer (some (config.baseCommand ++ args)) left
  | refused {source : Source} {options : EvalOptions} {error : EvaluationError} {after : Files} :
    Request.prepare host.temporary source options config files = (.error error, after) →
    Happens config host files (.eval source options) (.error error) none after
  | eval {source : Source} {options : EvalOptions} {request : Request} {given left : Files}
    {reply : Except String String} {answer : Except EvaluationError String} :
    Request.prepare host.temporary source options config files = (.ok request, given) →
    host.evaluator request.commandLine given = (reply, left) →
    Answers left request.output reply answer →
    Happens config host files (.eval source options) answer (some request.commandLine)
      (request.drop host.temporary 0 left)
  | send {request : Request} {reply : Except String String} {left : Files}
    {answer : Except EvaluationError String} :
    host.evaluator request.commandLine files = (reply, left) → Answers left request.output reply answer →
    Happens config host files (.send request) answer (some request.commandLine) left

/-- A sequence of operations: their answers and the command lines they have run, one by one. -/
inductive History (config : Config) : Files → List (Operation × Host) →
    List (Except EvaluationError String) → List (Option (List String)) → Files → Prop
  | nil (files : Files) : History config files [] [] [] files
  | cons {files reached after : Files} {operation : Operation} {host : Host}
    {rest : List (Operation × Host)} {answer : Except EvaluationError String}
    {answers : List (Except EvaluationError String)} {called : Option (List String)}
    {others : List (Option (List String))} :
    Happens config host files operation answer called reached →
    History config reached rest answers others after →
    History config files ((operation, host) :: rest) (answer :: answers) (called :: others) after

theorem answers_iff {left : Files} {output : Output} {reply : Except String String}
    {answer : Except EvaluationError String} :
    Answers left output reply answer ↔ output.answer left reply = answer := by
  constructor
  · intro h
    cases h with
    | failed | ignored | stdout => rfl
    | printed decoded | malformed decoded =>
      simp only [Output.answer, Output.collect, readPrinted, readLiteral, String.toList_ofList, decoded]
    | written stdout read =>
      simp only [Output.answer, Output.collect, Files.readText_eq_ok_iff.mpr read]
    | unreadable stdout read => simp only [Output.answer, Output.collect, read]
  · rintro rfl
    cases reply with
    | error message => exact .failed output message
    | ok stdout =>
      cases output with
      | ignored => exact .ignored stdout
      | stdout => exact .stdout stdout
      | printed =>
        simp only [Output.answer, Output.collect, readPrinted, readLiteral, String.toList_ofList]
        split
        · rename_i decoded
          exact .printed decoded
        · rename_i refused
          exact .malformed refused
      | file path =>
        simp only [Output.answer, Output.collect]
        split
        · rename_i read
          exact .written stdout (Files.readText_eq_ok_iff.mp read)
        · rename_i read
          exact .unreadable stdout read

namespace Session

theorem perform_of_happens {session : Session} {host : Host} {operation : Operation}
    {answer : Except EvaluationError String} {called : Option (List String)} {after : Files}
    (h : Happens session.config host session.world.files operation answer called after) :
    session.perform host operation =
      (answer, { session with world := { files := after, calls := session.world.calls ++ called.toList } }) := by
  cases h with
  | run replied answers =>
    simp only [perform, Session.run, Config.run, World.call_eq replied, answers_iff.mp answers,
      Option.toList_some]
  | refused prepared =>
    simp only [perform, Session.eval, Config.eval_of_error prepared, Option.toList_none, List.append_nil]
  | eval prepared replied answers =>
    simp only [perform, Session.eval, Config.eval_of_ok prepared replied, answers_iff.mp answers,
      Option.toList_some]
  | send replied answers =>
    simp only [perform, Session.send, Request.send_eq replied, answers_iff.mp answers,
      Option.toList_some]

end Session

theorem exists_happens (config : Config) (host : Host) (files : Files) (operation : Operation) :
    ∃ answer called after, Happens config host files operation answer called after := by
  cases operation with
  | run args => exact ⟨_, _, _, .run rfl (answers_iff.mpr rfl)⟩
  | eval source options =>
    cases prepared : Request.prepare host.temporary source options config files with
    | mk result given =>
      cases result with
      | error error => exact ⟨_, _, _, .refused prepared⟩
      | ok request => exact ⟨_, _, _, .eval prepared rfl (answers_iff.mpr rfl)⟩
  | send request => exact ⟨_, _, _, .send rfl (answers_iff.mpr rfl)⟩

theorem exists_history (config : Config) (files : Files) (operations : List (Operation × Host)) :
    ∃ answers called after, History config files operations answers called after := by
  induction operations generalizing files with
  | nil => exact ⟨[], [], files, .nil files⟩
  | cons entry rest ih =>
    rcases entry with ⟨operation, host⟩
    rcases exists_happens config host files operation with ⟨answer, called, reached, first⟩
    rcases ih reached with ⟨answers, others, after, history⟩
    exact ⟨_, _, after, .cons first history⟩

namespace Session

theorem performAll_of_history {session : Session} {operations : List (Operation × Host)}
    {answers : List (Except EvaluationError String)} {called : List (Option (List String))} {after : Files}
    (h : History session.config session.world.files operations answers called after) :
    session.performAll operations =
      (answers, { session with
        world := { files := after, calls := session.world.calls ++ called.flatMap Option.toList } }) := by
  induction operations generalizing session answers called after with
  | nil =>
    cases h
    rw [performAll, List.flatMap_nil, List.append_nil]
  | cons entry rest ih =>
    cases h with
    | @cons _ reached _ operation host _ answer answers called others first history =>
      -- the rest is performed by the session that the first operation leaves
      let next : Session :=
        { session with world := { files := reached, calls := session.world.calls ++ called.toList } }
      have others : next.performAll rest = _ := ih history
      rw [performAll, perform_of_happens first]
      simp only [next] at others ⊢
      simp only [others, List.flatMap_cons, List.append_assoc]

/-- A session performs operations exactly in the way of their history, on any hosts. The command lines of it
are recorded in order and no other ones: one for each operation, but none for code that cannot be prepared,
be it for want of a file or for a path that is not text. The configuration stays as it is. -/
theorem performAll_iff_history {session after : Session} {operations : List (Operation × Host)}
    {answers : List (Except EvaluationError String)} :
    session.performAll operations = (answers, after) ↔
      after.config = session.config ∧ ∃ called,
        History session.config session.world.files operations answers called after.world.files ∧
          after.world.calls = session.world.calls ++ called.flatMap Option.toList := by
  constructor
  · intro performed
    rcases exists_history session.config session.world.files operations with ⟨_, called, _, history⟩
    cases (performAll_of_history history).symm.trans performed
    exact ⟨rfl, called, history, rfl⟩
  · rintro ⟨config, called, history, calls⟩
    obtain ⟨_, files, _⟩ := after
    rw [performAll_of_history history, ← config, ← calls]

end Session

end ElispBridge
