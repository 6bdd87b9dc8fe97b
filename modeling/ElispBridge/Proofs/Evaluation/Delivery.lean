import ElispBridge.Proofs.Evaluation.Route
import ElispBridge.Proofs.Evaluation.Sending
import ElispBridge.Proofs.Text.Framing
import ElispBridge.Proofs.Text.Printed
/-!
A text that the evaluator delivers as the form on the command line asks is the result of the
evaluation, on each of the three ways and whatever the text holds.
-/

namespace ElispBridge

/-- The command line has `form` evaluated. -/
def Asks (config : Config) (options : EvalOptions) (commandLine : List String) (form : String) : Prop :=
  commandLine = config.baseCommand ++ "--eval" :: form :: options.extraArgs

def fileForm (literal x : String) : String := "(with-temp-file " ++ literal ++ " (insert " ++ x ++ "))"

def stdoutForm (x : String) : String := "(princ " ++ x ++ ")"

/-- The answer of an evaluator and the files it leaves deliver `text`: to the file that the literal in
the form names, as the last thing it writes, and with any output; or on standard output as it is; or
there as a printed literal between blanks. -/
structure Delivers (config : Config) (options : EvalOptions) (text : String)
    (commandLine : List String) (answer : Except String String × Files) : Prop where
  file : options.resultFile.isSome = true → ∀ literal x name,
    Asks config options commandLine (fileForm literal x) →
    Text.Quoted.decode literal.toList = some name →
    ∃ stdout reached, answer.1 = .ok stdout ∧
      Files.write reached (String.ofList name) text.toUTF8 = .ok answer.2
  stdout : options.resultFile = none → config.isBatch = true → ∀ x,
    Asks config options commandLine (stdoutForm x) → answer.1 = .ok text
  printed : options.resultFile = none → config.isBatch = false →
    ∃ stdout, answer.1 = .ok stdout ∧ Text.Prints text.toList stdout.toList

theorem fileForm_name {literal literal' x x' : String} {name name' : List Char}
    (same : fileForm literal x = fileForm literal' x')
    (h : Text.Quoted.decode literal.toList = some name)
    (h' : Text.Quoted.decode literal'.toList = some name') : name = name' := by
  have texts := congrArg String.toList same
  unfold fileForm at texts
  simp only [String.toList_append, List.append_assoc, List.append_right_inj] at texts
  rcases Text.Quoted.eq_of_decode_append h h' texts with ⟨names, -⟩
  exact names

theorem Asks.form_eq {config : Config} {options : EvalOptions} {commandLine : List String}
    {form form' : String} (h : Asks config options commandLine form)
    (h' : Asks config options commandLine form') : form = form' := by
  have tails := List.append_cancel_left (h.symm.trans h')
  simp only [List.cons.injEq, true_and, and_true] at tails
  exact tails

theorem decode_literal (path : String) :
    Text.Quoted.decode (String.ofList (Text.Quoted.encode path.toList)).toList = some path.toList := by
  rw [String.toList_ofList]
  exact (Text.Quoted.spelled_escape path.toList).decode

theorem delivers_of_written {options : EvalOptions} {config : Config} {core : Expr} {path text : String}
    {commandLine : List String} {reached files : Files} (stdout : String)
    (target : options.resultFile.isSome = true)
    (asks : Asks config options commandLine (Request.writeToFile path core).render)
    (written : reached.write path text.toUTF8 = .ok files) :
    Delivers config options text commandLine (.ok stdout, files) := by
  rw [Request.render_writeToFile] at asks
  refine ⟨?_, ?_, ?_⟩
  · intro _ literal x name other decoded
    have same := fileForm_name (asks.form_eq other) (decode_literal path) decoded
    rw [← same, String.ofList_toList]
    exact ⟨stdout, reached, rfl, written⟩
  · intro absent
    rw [absent] at target
    cases target
  · intro absent
    rw [absent] at target
    cases target

theorem readPrinted_of_prints {text stdout : String} (h : Text.Prints text.toList stdout.toList) :
    readPrinted stdout = .ok text := by
  simp only [readPrinted, readLiteral, String.toList_ofList, Text.decode_trim_of_prints h,
    String.ofList_toList]

theorem collect_of_delivers {options : EvalOptions} {config : Config} {core form : Expr}
    {output : Output} {text : String} {commandLine : List String}
    {answer : Except String String × Files} (route : Request.Route options config core form output)
    (asks : Asks config options commandLine form.render)
    (delivers : Delivers config options text commandLine answer) :
    ∃ stdout, answer.1 = .ok stdout ∧ output.collect stdout answer.2 = .ok text := by
  cases route with
  | @file path target =>
    rw [Request.render_writeToFile] at asks
    obtain ⟨stdout, reached, answered, written⟩ :=
      delivers.file target _ _ _ asks (decode_literal path)
    rw [String.ofList_toList] at written
    refine ⟨stdout, answered, ?_⟩
    simp only [Output.collect, Files.readText_write written]
  | stdout target batch =>
    rw [Request.render_princ] at asks
    exact ⟨text, delivers.stdout target batch _ asks, rfl⟩
  | printed target client =>
    -- blanks around the literal are trimmed, those inside it are part of the text
    rcases delivers.printed target client with ⟨stdout, answered, prints⟩
    exact ⟨stdout, answered, readPrinted_of_prints prints⟩

theorem answer_of_delivers {options : EvalOptions} {config : Config} {core form : Expr} {output : Output}
    {text : String} {commandLine : List String} {answer : Except String String × Files}
    (route : Request.Route options config core form output)
    (asks : Asks config options commandLine form.render)
    (delivers : Delivers config options text commandLine answer) :
    output.answer answer.2 answer.1 = .ok text := by
  rcases collect_of_delivers route asks delivers with ⟨stdout, answered, collected⟩
  rw [answered]
  exact collected

/-- Whatever is delivered as the form asks is the result of the evaluation, unchanged, wherever the host
puts a file that it makes for the result. Such a file is removed when its text has been read. -/
theorem eval_delivered {source : Source} {options : EvalOptions} {config : Config} {host : Host}
    {world : World} {text : String} {request : Request} {files : Files}
    (reads : options.readsResult = true)
    (prepared : Request.prepare host.temporary source options config world.files = (.ok request, files))
    (delivers : Delivers config options text request.commandLine
      (host.evaluator request.commandLine files)) :
    (config.eval source options host world).1 = .ok text ∧
      (options.resultFile = some .auto → ∃ name, request.output = .file name ∧
        (config.eval source options host world).2.files =
          host.temporary.remove (.ofString name) (host.evaluator request.commandLine files).2) := by
  rcases Request.route_of_prepare reads prepared with ⟨route, -⟩
  have asks := Request.commandLine_eq reads prepared
  rw [Config.eval_of_ok prepared rfl]
  refine ⟨answer_of_delivers route asks delivers, ?_⟩
  intro own
  rcases Request.held_of_auto own reads prepared with ⟨name, target, held, -⟩
  refine ⟨name, target, ?_⟩
  simp only [Request.drop, held]

/-- Through a file whose name holds a quote and a newline, through one that the host makes, and through a
client that escapes one quote of a text with blanks at both ends. -/
theorem eval_delivered_file_client :
    let text := " \"\n\x017\\ "
    let path := "a\"\n.json"
    let own := "/tmp/emacs-result-Zq3.json"
    let toFile : EvalOptions := { resultFile := some (.path (Path.ofString path)) }
    let toOwn : EvalOptions := { resultFile := some .auto }
    let plain : EvalOptions := { catchErrors := false, ret := .both }
    let writer (name : String) : Evaluator := fun _ files =>
      match files.write name text.toUTF8 with
      | .ok after => (.ok "noise", after)
      | .error _ => (.error "full", files)
    let printer : Evaluator := fun _ files => (.ok "\n\" \\\"\n\\0017\\\\ \" \u3000", files)
    let host (evaluator : Evaluator) : Host := ⟨.named "/tmp" "Zq3", evaluator⟩
    let given (config : Config) (options : EvalOptions) (evaluator : Evaluator) : Prop :=
      ∃ request files,
        Request.prepare (.named "/tmp" "Zq3") (.raw "(f)") options config .fresh = (.ok request, files) ∧
        Delivers config options text request.commandLine (evaluator request.commandLine files)
    (given .batch toFile (writer path) ∧
      (Config.batch.eval (.raw "(f)") toFile (host (writer path)) { files := .fresh }).1 = .ok text) ∧
    (given .client toOwn (writer own) ∧
      (Config.client.eval (.raw "(f)") toOwn (host (writer own)) { files := .fresh }).1 = .ok text) ∧
    (given (.clientFor "work") plain printer ∧
      ((Config.clientFor "work").eval (.raw "(f)") plain (host printer) { files := .fresh }).1 =
        .ok text) := by
  intro text path own toFile toOwn plain writer printer host given
  refine ⟨?_, ?_, ?_⟩
  · let request := Request.throughFile toFile .batch (Request.payload toFile (.raw "(f)")) path
    have prepared : Request.prepare (.named "/tmp" "Zq3") (.raw "(f)") toFile .batch .fresh =
        (.ok request, .fresh) := by
      simp only [Request.prepare, EvalOptions.readsResult, toFile, Path.text?_ofString]
      rfl
    have writable (bytes : ByteArray) : ∃ after, Files.fresh.write "a\"\n.json" bytes = .ok after :=
      ⟨_, rfl⟩
    obtain ⟨after, written⟩ : ∃ after, Files.fresh.write path text.toUTF8 = .ok after :=
      writable text.toUTF8
    have answered : writer path request.commandLine .fresh = (.ok "noise", after) := by
      simp only [writer, written]
    have asks := Request.commandLine_eq rfl prepared
    have delivers := delivers_of_written "noise" rfl asks written
    rw [← answered] at delivers
    exact ⟨⟨request, .fresh, prepared, delivers⟩,
      (@eval_delivered _ _ _ (host (writer path)) _ _ _ _ rfl prepared delivers).1⟩
  · have writable (bytes : ByteArray) :
        ∃ after, Files.fresh.write "/tmp/emacs-result-Zq3.json" bytes = .ok after := ⟨_, rfl⟩
    obtain ⟨made, empty⟩ : ∃ made, Files.fresh.write own .empty = .ok made := writable .empty
    have missing : Files.fresh.read "/tmp/emacs-result-Zq3.json" = .error .notFound := rfl
    have created : (TemporaryFiles.named "/tmp" "Zq3").create "emacs-result-" ".json" .fresh =
        (.ok (.ofString own), made) := TemporaryFiles.named_create (by decide) missing empty
    let request : Request :=
      { Request.throughFile toOwn .client (Request.payload toOwn (.raw "(f)")) own with
        held := some (.ofString own) }
    have prepared : Request.prepare (.named "/tmp" "Zq3") (.raw "(f)") toOwn .client .fresh =
        (.ok request, made) := by
      simp only [Request.prepare, EvalOptions.readsResult, toOwn, created, Path.text?_ofString]
      rfl
    obtain ⟨after, written⟩ := Files.exists_write empty text.toUTF8
    have answered : writer own request.commandLine made = (.ok "noise", after) := by
      simp only [writer, written]
    have asks := Request.commandLine_eq rfl prepared
    have delivers := delivers_of_written "noise" rfl asks written
    rw [← answered] at delivers
    exact ⟨⟨request, made, prepared, delivers⟩,
      (@eval_delivered _ _ _ (host (writer own)) _ _ _ _ rfl prepared delivers).1⟩
  · have itself : ∀ c ∈ [' ', '\n', '7'], Text.PrintsChar c [c] := by
      intro c mem
      exact .itself (by rintro rfl; revert mem; decide) (by rintro rfl; revert mem; decide)
    have quote : Text.PrintsChar '"' ['\\', '"'] := .backslashed (.inl rfl)
    have control : Text.PrintsChar '\x01' ['\\', '0', '0', '1'] := .octal (by decide)
    have backslash : Text.PrintsChar '\\' ['\\', '\\'] := .backslashed (.inr rfl)
    have space := itself ' ' (by decide)
    have lineEnd := itself '\n' (by decide)
    have seven := itself '7' (by decide)
    have body : Text.PrintsBody " \"\n\x017\\ ".toList " \\\"\n\\0017\\\\ ".toList :=
      .cons space (.cons quote (.cons lineEnd (.cons control (.cons seven (.cons backslash
        (.cons space .nil))))))
    have before : ∀ c ∈ ['\n'], Text.isBlank c = true := List.all_eq_true.mp rfl
    have behind : ∀ c ∈ [' ', '\u3000'], Text.isBlank c = true := List.all_eq_true.mp rfl
    have prints := Text.Prints.literal before behind body
    have delivers (commandLine : List String) :
        Delivers (.clientFor "work") plain text commandLine (printer commandLine .fresh) := by
      refine ⟨?_, ?_, ?_⟩
      · intro target
        cases target
      · intro _ batch
        cases batch
      · intro _ _
        exact ⟨_, rfl, prints⟩
    exact ⟨⟨_, _, rfl, delivers _⟩, (@eval_delivered _ _ _ (host printer) _ _ _ _ rfl rfl (delivers _)).1⟩

end ElispBridge
