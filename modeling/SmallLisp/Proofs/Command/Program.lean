import SmallLisp.Proofs.Containment.Command
import SmallLisp.Proofs.Session.Texts
/-!
Several files as one program.

Texts with line feeds between them are read as one text after the other, and the session in which a
file has been evaluated is the one in which the next file is.  Main statement: a command without a
shell does with several files what it does with one file that holds all their texts.  It evaluates
the forms in order and echoes each value before it goes on, up to the first form that fails.
-/

namespace SmallLisp

/-- What is read of texts with line feeds between them. -/
theorem parse_join {sources : List Text} {programs : List (List Value)}
    (h : List.Forall₂ (fun source forms => parse source = .ok forms) sources programs) :
    parse (Text.join "\n" sources) = .ok programs.flatten := by
  induction h with
  | nil => rfl
  | @cons source forms rest others hsource hrest ih =>
    cases hrest with
    | nil => simpa [Text.join] using hsource
    | @cons second forms' rest others hsecond hrest =>
      have hjoin : Text.join "\n" (source :: second :: rest) =
          source ++ "\n" ++ Text.join "\n" (second :: rest) := by
        simp [Text.join, List.intercalate, List.intersperse]
      rw [hjoin]
      exact parse_append_lineFeed hsource ih

namespace Session

/-- Forms of which each yields a value that is shown before the next form is evaluated: the texts of
the values, and the session that the forms leave. -/
inductive Echoes (tracing : Bool) : List Value → Session → List Text → Session → Prop
  | nil (session : Session) : Echoes tracing [] session [] session
  | cons {form v : Value} {forms : List Value} {shown : Text} {texts : List Text}
      {session next final : Session} :
      session.perform (evaluateIn tracing form session.global) = (.ok v, next) →
      v.display next.store = .ok shown → Echoes tracing forms next texts final →
      Echoes tracing (form :: forms) session (shown :: texts) final

/-- What becomes of forms that are evaluated and echoed in order: all of them are, or those before
the first that fails, after which no form is evaluated. -/
inductive Unfolds (tracing : Bool) (forms : List Value) (session : Session) :
    Run Text → Session → Prop
  | complete {texts : List Text} {final : Session} : Echoes tracing forms session texts final →
      Unfolds tracing forms session { results := texts } final
  | stopped {before after : List Value} {form : Value} {texts : List Text} {e : Failure}
      {reached final : Session} : forms = before ++ form :: after →
      Echoes tracing before session texts reached →
      reached.perform (evaluateForm tracing (fun s v => v.display s) reached.global form) =
        (.error e, final) →
      Unfolds tracing forms session { results := texts, failure := some e } final

/-- A form before others that unfold. -/
theorem Unfolds.cons {tracing : Bool} {form v : Value} {forms : List Value} {shown : Text}
    {session next final : Session} {run : Run Text}
    (hform : session.perform (evaluateIn tracing form session.global) = (.ok v, next))
    (hshown : v.display next.store = .ok shown) (h : Unfolds tracing forms next run final) :
    Unfolds tracing (form :: forms) session { run with results := shown :: run.results } final := by
  cases h with
  | complete hforms => exact .complete (.cons hform hshown hforms)
  | stopped hsplit hbefore hfails =>
    rw [hsplit, ← List.cons_append]
    exact .stopped rfl (.cons hform hshown hbefore) hfails

theorem unfolds_evaluateForms (tracing : Bool) (forms : List Value) (session : Session) :
    Unfolds tracing forms session
      (evaluateForms tracing (fun s v => v.display s) forms session).1
      (evaluateForms tracing (fun s v => v.display s) forms session).2 := by
  induction forms generalizing session with
  | nil => exact .complete (.nil session)
  | cons form rest ih =>
    cases hform : session.perform (evaluateIn tracing form session.global) with
    | mk result next =>
      cases result with
      | error e =>
        have hfails : session.perform
            (evaluateForm tracing (fun s v => v.display s) session.global form) =
              (.error e, next) :=
          perform_evaluateForm_error hform
        rw [evaluateForms_cons_error hfails]
        exact .stopped (List.nil_append _).symm (.nil session) hfails
      | ok v =>
        have hobserve := perform_evaluateForm_ok (fun s v => Value.display s v) hform
        cases hshown : v.display next.store with
        | error e =>
          rw [hshown] at hobserve
          rw [evaluateForms_cons_error hobserve]
          exact .stopped (List.nil_append _).symm (.nil session) hobserve
        | ok shown =>
          rw [hshown] at hobserve
          rw [evaluateForms_cons_ok hobserve]
          exact (ih next).cons hform hshown

end Session

namespace Command

/-- A file of the given name that holds a text. -/
structure HoldsText (files : FileSource) (name source : Text) : Prop where
  isFileName : IsFileName name
  holds : ∃ bytes, files (Path.ofText name) = .ok bytes ∧ textOfBytes bytes = .ok source

/-- The outcome of files after a run of their forms, which a failure ends in the file `name`. -/
def FileRun.ofRun (name : Text) (run : Run Text) (final : Session) : FileRun where
  events := run.results.map ShellEvent.echo
  report := (run.failure.bind Failure.report?).map (name ++ ": " ++ ·)
  failure := if (run.failure.bind Failure.report?).isSome then none else run.failure
  session := final

/-- How a command without a shell ends after a run of its forms. -/
def endingOf (failure : Option Failure) : Ending :=
  failure.elim (.exit 0) fun e => if e = .integerTooLong then .failed e else .exit 1

/-- Two commands that do the same, except that the report of a failure may name another file: the
first names one of `names`, the second names `name`. -/
structure SameButNames (names : List Text) (name : Text) (first second : Progress) : Prop where
  stdout : first.stdout = second.stdout
  ending : first.ending = second.ending
  session : first.session = second.session
  stderr : first.stderr = second.stderr ∨ ∃ trace failing text, failing ∈ names ∧
    first.stderr = trace ++ (failing ++ ": " ++ text ++ "\n") ∧
    second.stderr = trace ++ (name ++ ": " ++ text ++ "\n")

section Files

variable {tracing : Bool} {files : FileSource} {name source : Text} {names sources : List Text}
  {programs : List (List Value)} {session : Session}

theorem HoldsText.runFile_eq (h : HoldsText files name source) {forms : List Value}
    (hparse : parse source = .ok forms) {run : Run Text} {final : Session}
    (hrun : Session.evaluateForms tracing (fun s v => v.display s) forms session = (run, final)) :
    runFile tracing files name session =
      { FileRun.ofRun name run final with report := run.failure.bind Failure.report? } := by
  obtain ⟨bytes, hfile, hsource⟩ := h.holds
  rw [h.isFileName.runFile_of_source hfile hsource, runText,
    Session.evaluateAll_of_parse hparse, hrun]
  rfl

/-- A file whose run fails is the last that is evaluated. -/
theorem HoldsText.runFiles_cons_of_fails (h : HoldsText files name source) {forms : List Value}
    (hparse : parse source = .ok forms) {run : Run Text} {final : Session}
    (hrun : Session.evaluateForms tracing (fun s v => v.display s) forms session = (run, final))
    {e : Failure} (hfails : run.failure = some e) (rest : List Text) :
    runFiles tracing files (name :: rest) session = .ofRun name run final := by
  have hfile := h.runFile_eq hparse hrun
  cases hreport : e.report? with
  | some text =>
    have hreported : (runFile tracing files name session).report = some text := by
      rw [hfile, hfails]
      exact hreport
    rw [runFiles_cons_of_report hreported, hfile]
    simp [FileRun.ofRun, hfails, hreport]
  | none =>
    have hunreported : (runFile tracing files name session).report = none := by
      rw [hfile, hfails]
      exact hreport
    have hescapes : (runFile tracing files name session).failure = some e := by
      rw [hfile]
      simp [FileRun.ofRun, hfails, hreport]
    rw [runFiles_cons_of_failure hunreported hescapes, hfile]
    simp [FileRun.ofRun, hfails, hreport]

/-- The outcome of several files is that of one run of all their forms.  A failure is reported under
the name of one of the files. -/
theorem exists_runFiles_eq (hfiles : List.Forall₂ (HoldsText files) names sources)
    (hparse : List.Forall₂ (fun source forms => parse source = .ok forms) sources programs)
    {run : Run Text} {final : Session}
    (hrun : Session.evaluateForms tracing (fun s v => v.display s) programs.flatten session =
      (run, final)) :
    ∃ name, (run.failure ≠ none → name ∈ names) ∧
      runFiles tracing files names session = .ofRun name run final := by
  induction hfiles generalizing programs session run final with
  | nil =>
    cases hparse
    cases hrun
    exact ⟨[], fun hne => absurd rfl hne, rfl⟩
  | @cons name source rest others hfirst _ ih =>
    cases hparse with
    | @cons _ forms _ programs hforms hothers =>
      cases hone : Session.evaluateForms tracing (fun s v => Value.display s v) forms session with
      | mk first next =>
        rw [List.flatten_cons, Session.evaluateForms_append, hone, Run.andThen] at hrun
        cases hfailure : first.failure with
        | some e =>
          simp only [hfailure] at hrun
          obtain ⟨rfl, rfl⟩ := Prod.mk.inj hrun
          exact ⟨name, fun _ => List.mem_cons_self,
            hfirst.runFiles_cons_of_fails hforms hone hfailure rest⟩
        | none =>
          have hfile := hfirst.runFile_eq hforms hone
          have hsucceeds : (runFile tracing files name session).Succeeds := by
            rw [hfile]
            simp [FileRun.Succeeds, FileRun.ofRun, hfailure]
          cases htwo : Session.evaluateForms tracing (fun s v => Value.display s v)
              programs.flatten next with
          | mk second last =>
            simp only [hfailure, htwo] at hrun
            obtain ⟨rfl, rfl⟩ := Prod.mk.inj hrun
            obtain ⟨failing, hmem, hrest⟩ := ih hothers htwo
            refine ⟨failing, fun hne => List.mem_cons_of_mem _ (hmem hne), ?_⟩
            rw [runFiles_cons_of_succeeds hsucceeds, hfile]
            simp only [FileRun.ofRun] at hrest ⊢
            rw [hrest, List.map_append]

end Files

section Requests

variable {request : Request} {env : Environment} {files joined : FileSource} {name : Text}
  {session final : Session} {run : Run Text}

/-- What a request without a shell has come to after its files. -/
theorem run_of_ofRun (hrepl : request.noRepl = true)
    (hloaded : loaded request env files = .ok session)
    (hrun : runFiles (request.debug || env.tracing) files request.files session =
      .ofRun name run final)
    (hordinary : ∀ e, run.failure = some e → e.IsOrdinary) (input : List Text) :
    Command.run request env files input =
      { stdout := ShellEvent.joinedText (run.results.map ShellEvent.echo)
        stderr := traceText final.takeLog.1 ++
          reportText ((run.failure.bind Failure.report?).map (name ++ ": " ++ ·))
        ending := some (endingOf run.failure)
        session := final.takeLog.2 } := by
  have hprepare := prepare_of_loaded hloaded hrun
  have hending : (prepare request env files).ending = some (endingOf run.failure) := by
    rw [hprepare]
    cases hfailure : run.failure with
    | none => simp [FileRun.ofRun, endingOf, hfailure, hrepl]
    | some e =>
      rcases (hordinary e hfailure).report? with rfl | ⟨text, htext⟩
      · simp [FileRun.ofRun, endingOf, hfailure, Failure.report?]
      · have hshort : e ≠ .integerTooLong := by
          rintro rfl
          cases htext
        simp [FileRun.ofRun, endingOf, hfailure, htext, hshort]
  rw [run_of_ending hending input, ← hending, hprepare]
  rfl

/-- A command whose prelude is not loaded does not look at its files. -/
theorem run_of_not_loaded {e : Failure} (h : loaded request env files = .error e)
    (hprelude : preludeOf request env joined = preludeOf request env files)
    (names input : List Text) :
    Command.run { request with files := names } env joined input =
      Command.run request env files input := by
  have hending := ending_prepare_of_not_loaded h
  have hprepare : prepare { request with files := names } env joined =
      prepare request env files := by
    simp only [preludeOf] at hprelude
    simp only [loaded, preludeOf] at h
    simp only [prepare, hprelude]
    cases hread : if request.noPrelude then .ok none else env.prelude files with
    | error e' => rfl
    | ok prelude =>
      rw [hread] at h
      cases hstart : Session.start (request.debug || env.tracing) prelude with
      | mk failure session =>
        simp only [bind, Except.bind, hstart] at h
        cases failure with
        | none => cases h
        | some e' => simp only [hstart, Option.isSome_some, if_true]
  rw [run_of_ending (hprepare ▸ hending) input, run_of_ending hending input, hprepare]

/-- Several files are one program.  A command without a shell does with them what it does with one
file that holds their texts with line feeds between them, whatever prelude is asked for.  It echoes
the values of all their forms in order, each before the next form is evaluated, and ends with code
zero; or it ends at the first form that fails, with code one unless that is for an integer with too
many digits. -/
theorem run_sameButNames (hrepl : request.noRepl = true)
    (hprelude : preludeOf request env joined = preludeOf request env files)
    {sources : List Text} {programs : List (List Value)}
    (hfiles : List.Forall₂ (HoldsText files) request.files sources)
    (hparse : List.Forall₂ (fun source forms => parse source = .ok forms) sources programs)
    (hjoined : HoldsText joined name (Text.join "\n" sources)) (input : List Text) :
    SameButNames request.files name (Command.run request env files input)
        (Command.run { request with files := [name] } env joined input) ∧
      ∀ session, loaded request env files = .ok session → ∃ run final,
        Session.Unfolds (request.debug || env.tracing) programs.flatten session run final ∧
        (Command.run request env files input).stdout =
          ShellEvent.joinedText (run.results.map ShellEvent.echo) ∧
        (Command.run request env files input).ending = some (endingOf run.failure) ∧
        (Command.run request env files input).session = final.takeLog.2 := by
  cases hloaded : loaded request env files with
  | error e =>
    rw [run_of_not_loaded hloaded hprelude]
    exact ⟨⟨rfl, rfl, rfl, Or.inl rfl⟩, by rintro session ⟨⟩⟩
  | ok session =>
    have hloaded' : loaded { request with files := [name] } env joined = .ok session := by
      rw [← hloaded]
      exact congrArg (· >>= _) hprelude
    cases hrun : Session.evaluateForms (request.debug || env.tracing)
        (fun s v => Value.display s v) programs.flatten session with
    | mk run final =>
      obtain ⟨failing, hmem, hseveral⟩ := exists_runFiles_eq hfiles hparse hrun
      have hflat : Session.evaluateForms (request.debug || env.tracing)
          (fun s v => Value.display s v) [programs.flatten].flatten session = (run, final) := by
        rw [List.flatten_singleton, hrun]
      obtain ⟨name', hname', hone⟩ := exists_runFiles_eq
        (.cons hjoined .nil) (.cons (parse_join hparse) .nil) hflat
      have hordinary := ((native_of_loaded hloaded).evaluateDisplays
        (request.debug || env.tracing) (Text.join "\n" sources)).2
      rw [Session.evaluateAll_of_parse (parse_join hparse), hrun] at hordinary
      have hfirst := run_of_ofRun hrepl hloaded hseveral hordinary input
      have hrepl' : ({ request with files := [name] } : Request).noRepl = true := hrepl
      have hsecond := run_of_ofRun hrepl' hloaded' hone hordinary input
      have hunfolds := Session.unfolds_evaluateForms (request.debug || env.tracing)
        programs.flatten session
      rw [hrun] at hunfolds
      rw [hfirst, hsecond]
      refine ⟨⟨rfl, rfl, rfl, ?_⟩, ?_⟩
      · cases hreport : run.failure.bind Failure.report? with
        | none => exact Or.inl rfl
        | some text =>
          have hfails : run.failure ≠ none := by
            intro hnone
            rw [hnone] at hreport
            cases hreport
          obtain rfl := List.mem_singleton.mp (hname' hfails)
          exact Or.inr ⟨_, failing, text, hmem hfails, rfl, rfl⟩
      · rintro _ ⟨⟩
        exact ⟨run, final, hunfolds, rfl, rfl, rfl⟩

end Requests

/-- Two files, of which the second fails at its second form, and the file of their texts. -/
def twoFiles : Files where
  contents := [(["a"], "(define x 1)".toUTF8), (["b"], "x (car x) x".toUTF8),
    (["ab"], "(define x 1)\nx (car x) x".toUTF8)]

/-- The command on the two files, without a prelude and without a shell. -/
def twoFilesRequest : Request where
  files := ["a", "b"]
  noPrelude := true
  noRepl := true

/-- The form after the one that fails is evaluated in neither case. -/
theorem run_sameButNames_twoFiles :
    ∃ sources programs, twoFilesRequest.noRepl = true ∧
      preludeOf twoFilesRequest {} twoFiles.source = .ok none ∧
      List.Forall₂ (HoldsText twoFiles.source) twoFilesRequest.files sources ∧
      List.Forall₂ (fun source forms => parse source = .ok forms) sources programs ∧
      HoldsText twoFiles.source "ab" (Text.join "\n" sources) ∧
      SameButNames twoFilesRequest.files "ab"
        (Command.run twoFilesRequest {} twoFiles.source [])
        (Command.run { twoFilesRequest with files := ["ab"] } {} twoFiles.source []) ∧
      (Command.run twoFilesRequest {} twoFiles.source []).stdout = "==> 1\n==> 1\n" ∧
      (Command.run twoFilesRequest {} twoFiles.source []).ending = some (.exit 1) := by
  have hfiles : List.Forall₂ (HoldsText twoFiles.source) twoFilesRequest.files
      ["(define x 1)", "x (car x) x"] :=
    .cons ⟨⟨by decide +kernel, by decide +kernel⟩, _, rfl, by decide +kernel⟩
      (.cons ⟨⟨by decide +kernel, by decide +kernel⟩, _, rfl, by decide +kernel⟩ .nil)
  have hparse : List.Forall₂ (fun source forms => parse source = .ok forms)
      ["(define x 1)", "x (car x) x"]
      [[.list [.symbol "define", .symbol "x", .integer 1]],
        [.symbol "x", .list [.symbol "car", .symbol "x"], .symbol "x"]] :=
    .cons rfl (.cons rfl .nil)
  have hjoined : HoldsText twoFiles.source "ab"
      (Text.join "\n" ["(define x 1)", "x (car x) x"]) :=
    ⟨⟨by decide +kernel, by decide +kernel⟩, _, rfl, by decide +kernel⟩
  have hrepl : twoFilesRequest.noRepl = true := rfl
  have hprelude : preludeOf twoFilesRequest {} twoFiles.source =
      preludeOf twoFilesRequest {} twoFiles.source := rfl
  have hsame := (run_sameButNames hrepl hprelude hfiles hparse hjoined []).1
  exact ⟨_, _, hrepl, rfl, hfiles, hparse, hjoined, hsame, by decide +kernel, by decide +kernel⟩

end Command

end SmallLisp
