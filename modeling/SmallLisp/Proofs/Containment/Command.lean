import SmallLisp.CommandLine
import SmallLisp.Proofs.Containment.Shell
/-!
Which failures the command contains.

Main statement: the command reports the first file that does not succeed and ends with code one,
unless the name is not that of a file, the bytes are no text or an integer has too many digits.  A
prelude that fails ends it at once.
-/

namespace SmallLisp

namespace Command

/-- Whether files have been evaluated without a failure. -/
def FileRun.Succeeds (run : FileRun) : Prop :=
  run.report = none ∧ run.failure = none

/-- A name that the operating system takes for that of a file. -/
structure IsFileName (name : Text) : Prop where
  encoded : name.byteCount? ≠ none
  noNull : name.contains '\x00' = false

/-- The failures of a file that the command does not report. -/
inductive Escapes (tracing : Bool) (files : FileSource) (name : Text) (session : Session) :
    Failure → Prop
  | notEncoded : name.byteCount? = none → Escapes tracing files name session .surrogateInPath
  | null : name.byteCount? ≠ none → name.contains '\x00' = true →
      Escapes tracing files name session .nullInPath
  /-- The bytes are no text. -/
  | undecoded {bytes : ByteArray} : IsFileName name → files (Path.ofText name) = .ok bytes →
      String.fromUTF8? bytes = none → Escapes tracing files name session .notUtf8
  /-- An integer in the text, among its values or in a message has too many digits. -/
  | overlong {bytes : ByteArray} {source : Text} : IsFileName name →
      files (Path.ofText name) = .ok bytes → textOfBytes bytes = .ok source →
      (session.evaluateAll tracing (fun s v => v.display s) source).1.failure =
        some .integerTooLong →
      Escapes tracing files name session .integerTooLong

section Files

variable {tracing : Bool} {files : FileSource} {session : Session} {name : Text}

theorem runText_of_native (h : session.Native) (source : Text) :
    (runText tracing source session).session.Native ∧
      ∀ e, (runText tracing source session).failure = some e ↔
        e = .integerTooLong ∧
          (session.evaluateAll tracing (fun s v => v.display s) source).1.failure =
            some .integerTooLong := by
  obtain ⟨hnative, hordinary⟩ := h.evaluateDisplays tracing source
  refine ⟨hnative, fun e => ?_⟩
  simp only [runText]
  cases hfailure : (session.evaluateAll tracing (fun s v => v.display s) source).1.failure with
  | none => simp
  | some e' =>
    rcases (hordinary e' hfailure).report? with rfl | ⟨text, htext⟩
    · simp [Failure.report?, eq_comm]
    · have hshort : e' ≠ .integerTooLong := by
        rintro rfl
        cases htext
      simp [htext, hshort]

theorem runFile_of_not_encoded (h : name.byteCount? = none) :
    runFile tracing files name session = { failure := some .surrogateInPath, session } := by
  simp [runFile, h]

theorem runFile_of_null (h : name.byteCount? ≠ none) (hnull : name.contains '\x00' = true) :
    runFile tracing files name session = { failure := some .nullInPath, session } := by
  simp only [runFile, Option.isNone_iff_eq_none, h, hnull, if_true, if_false]

namespace IsFileName

variable {bytes : ByteArray}

theorem runFile_of_error (h : IsFileName name) {fault : FileFault}
    (hfile : files (Path.ofText name) = .error fault) :
    runFile tracing files name session =
      { report := some (fault.report (Path.ofText name)), session } := by
  simp only [runFile, Option.isNone_iff_eq_none, h.encoded, h.noNull, hfile, Bool.false_eq_true,
    if_false]

theorem runFile_of_undecoded (h : IsFileName name) (hfile : files (Path.ofText name) = .ok bytes)
    (hbytes : String.fromUTF8? bytes = none) :
    runFile tracing files name session = { failure := some .notUtf8, session } := by
  simp only [runFile, Option.isNone_iff_eq_none, h.encoded, h.noNull, hfile, textOfBytes, hbytes,
    Bool.false_eq_true, if_false]

theorem runFile_of_source (h : IsFileName name) (hfile : files (Path.ofText name) = .ok bytes)
    {source : Text} (hsource : textOfBytes bytes = .ok source) :
    runFile tracing files name session = runText tracing source session := by
  simp only [runFile, Option.isNone_iff_eq_none, h.encoded, h.noNull, hfile, hsource,
    Bool.false_eq_true, if_false]

end IsFileName

/-- What a name leads to. -/
inductive Leads (files : FileSource) (name : Text) : Prop
  | notEncoded : name.byteCount? = none → Leads files name
  | null : name.byteCount? ≠ none → name.contains '\x00' = true → Leads files name
  | error {fault : FileFault} : IsFileName name → files (Path.ofText name) = .error fault →
      Leads files name
  | undecoded {bytes : ByteArray} : IsFileName name → files (Path.ofText name) = .ok bytes →
      String.fromUTF8? bytes = none → Leads files name
  | source {bytes : ByteArray} {source : Text} : IsFileName name →
      files (Path.ofText name) = .ok bytes → textOfBytes bytes = .ok source → Leads files name

theorem leads (files : FileSource) (name : Text) : Leads files name := by
  by_cases hencoded : name.byteCount? = none
  · exact .notEncoded hencoded
  · cases hnull : name.contains '\x00' with
    | true => exact .null hencoded hnull
    | false =>
      cases hfile : files (Path.ofText name) with
      | error fault => exact .error ⟨hencoded, hnull⟩ hfile
      | ok bytes =>
        cases hbytes : String.fromUTF8? bytes with
        | none => exact .undecoded ⟨hencoded, hnull⟩ hfile hbytes
        | some text =>
          have hsource : textOfBytes bytes = .ok (Text.ofString text).withLineFeeds := by
            rw [textOfBytes, hbytes]
          exact .source ⟨hencoded, hnull⟩ hfile hsource

/-- The failures of a file that are not reported. -/
theorem runFile_failure_iff (h : session.Native) (e : Failure) :
    (runFile tracing files name session).failure = some e ↔
      Escapes tracing files name session e := by
  constructor
  · intro hfailure
    cases leads files name with
    | notEncoded hencoded =>
      rw [runFile_of_not_encoded hencoded] at hfailure
      cases hfailure
      exact .notEncoded hencoded
    | null hencoded hnull =>
      rw [runFile_of_null hencoded hnull] at hfailure
      cases hfailure
      exact .null hencoded hnull
    | error hname hfile =>
      rw [hname.runFile_of_error hfile] at hfailure
      cases hfailure
    | undecoded hname hfile hbytes =>
      rw [hname.runFile_of_undecoded hfile hbytes] at hfailure
      cases hfailure
      exact .undecoded hname hfile hbytes
    | source hname hfile hsource =>
      rw [hname.runFile_of_source hfile hsource] at hfailure
      obtain ⟨rfl, hlong⟩ := ((runText_of_native h _).2 e).mp hfailure
      exact .overlong hname hfile hsource hlong
  · intro hescapes
    cases hescapes with
    | notEncoded hencoded => rw [runFile_of_not_encoded hencoded]
    | null hencoded hnull => rw [runFile_of_null hencoded hnull]
    | undecoded hname hfile hbytes => rw [hname.runFile_of_undecoded hfile hbytes]
    | overlong hname hfile hsource hlong =>
      rw [hname.runFile_of_source hfile hsource]
      exact ((runText_of_native h _).2 _).mpr ⟨rfl, hlong⟩

example : (runFile false (fun _ => .ok ⟨#[0xFF]⟩) "a" .empty).failure = some .notUtf8 := by
  decide +kernel

theorem native_runFile (h : session.Native) :
    (runFile tracing files name session).session.Native := by
  cases leads files name with
  | notEncoded hencoded => rwa [runFile_of_not_encoded hencoded]
  | null hencoded hnull => rwa [runFile_of_null hencoded hnull]
  | error hname hfile => rwa [hname.runFile_of_error hfile]
  | undecoded hname hfile hbytes => rwa [hname.runFile_of_undecoded hfile hbytes]
  | source hname hfile hsource =>
    rw [hname.runFile_of_source hfile hsource]
    exact (runText_of_native h _).1

section Rows

variable {rest : List Text}

theorem runFiles_cons_of_succeeds (h : (runFile tracing files name session).Succeeds) :
    runFiles tracing files (name :: rest) session =
      { runFiles tracing files rest (runFile tracing files name session).session with
        events := (runFile tracing files name session).events ++
          (runFiles tracing files rest (runFile tracing files name session).session).events } := by
  rw [runFiles, h.1, h.2]

theorem runFiles_cons_of_report {text : Text}
    (h : (runFile tracing files name session).report = some text) :
    runFiles tracing files (name :: rest) session =
      { runFile tracing files name session with report := some (name ++ ": " ++ text) } := by
  simp only [runFiles, h]

theorem runFiles_cons_of_failure {e : Failure}
    (hreport : (runFile tracing files name session).report = none)
    (h : (runFile tracing files name session).failure = some e) :
    runFiles tracing files (name :: rest) session = runFile tracing files name session := by
  simp only [runFiles, hreport, h]

/-- Files are evaluated without a failure, if the first one is and then the others are. -/
theorem succeeds_runFiles_cons :
    (runFiles tracing files (name :: rest) session).Succeeds ↔
      (runFile tracing files name session).Succeeds ∧
        (runFiles tracing files rest (runFile tracing files name session).session).Succeeds := by
  cases hreport : (runFile tracing files name session).report with
  | some text =>
    rw [runFiles_cons_of_report hreport]
    simp [FileRun.Succeeds, hreport]
  | none =>
    cases hfailure : (runFile tracing files name session).failure with
    | some e =>
      rw [runFiles_cons_of_failure hreport hfailure]
      simp [FileRun.Succeeds, hfailure]
    | none =>
      have hfirst : (runFile tracing files name session).Succeeds := ⟨hreport, hfailure⟩
      rw [runFiles_cons_of_succeeds hfirst]
      exact (and_iff_right hfirst).symm

/-- Files after others that are evaluated without a failure. -/
theorem runFiles_append {before : List Text}
    (h : (runFiles tracing files before session).Succeeds) :
    runFiles tracing files (before ++ rest) session =
      { runFiles tracing files rest (runFiles tracing files before session).session with
        events :=
          (runFiles tracing files before session).events ++ (runFiles tracing files rest
            (runFiles tracing files before session).session).events } := by
  induction before generalizing session with
  | nil => rfl
  | cons first before ih =>
    obtain ⟨hfirst, hbefore⟩ := succeeds_runFiles_cons.mp h
    rw [List.cons_append, runFiles_cons_of_succeeds hfirst, runFiles_cons_of_succeeds hfirst,
      ih hbefore, List.append_assoc]

theorem native_runFiles (h : session.Native) (names : List Text) :
    (runFiles tracing files names session).session.Native := by
  induction names generalizing session with
  | nil => exact h
  | cons name rest ih =>
    have hfirst : (runFile tracing files name session).session.Native := native_runFile h
    cases hreport : (runFile tracing files name session).report with
    | some text => rwa [runFiles_cons_of_report hreport]
    | none =>
      cases hfailure : (runFile tracing files name session).failure with
      | some e => rwa [runFiles_cons_of_failure hreport hfailure]
      | none =>
        rw [runFiles_cons_of_succeeds ⟨hreport, hfailure⟩]
        exact ih hfirst

end Rows

end Files

/-- The first of several files that does not succeed, with the session that it is evaluated in. -/
structure FirstFailing (tracing : Bool) (files : FileSource) (names : List Text)
    (session : Session) (name : Text) (reached : Session) : Prop where
  split : ∃ before after, names = before ++ name :: after ∧
    (runFiles tracing files before session).Succeeds ∧
    (runFiles tracing files before session).session = reached
  fails : ¬ (runFile tracing files name reached).Succeeds

/-- The prelude that a request asks for. -/
def preludeOf (request : Request) (env : Environment) (files : FileSource) :
    Except Failure (Option Text) :=
  if request.noPrelude then .ok none else env.prelude files

/-- The session in which a request is carried out, after the prelude has been loaded. -/
def loaded (request : Request) (env : Environment) (files : FileSource) :
    Except Failure Session := do
  let prelude ← preludeOf request env files
  let (failure, session) := Session.start (request.debug || env.tracing) prelude
  failure.elim (.ok session) .error

section Requests

variable {request : Request} {env : Environment} {files : FileSource} {session : Session}

theorem ending_prepare_of_not_loaded {e : Failure} (h : loaded request env files = .error e) :
    (prepare request env files).ending = some (.failed e) := by
  rw [loaded] at h
  rw [prepare, ← preludeOf]
  cases hprelude : preludeOf request env files with
  | error e' =>
    rw [hprelude] at h
    cases h
    rfl
  | ok prelude =>
    rw [hprelude] at h
    cases hstart : Session.start (request.debug || env.tracing) prelude with
    | mk failure session =>
      simp only [bind, Except.bind, hstart] at h ⊢
      cases failure with
      | none => cases h
      | some e' =>
        cases h
        rfl

theorem exists_prelude_of_loaded (h : loaded request env files = .ok session) :
    ∃ prelude, preludeOf request env files = .ok prelude ∧
      Session.start (request.debug || env.tracing) prelude = (none, session) := by
  rw [loaded] at h
  cases hprelude : preludeOf request env files with
  | error e =>
    rw [hprelude] at h
    cases h
  | ok prelude =>
    rw [hprelude] at h
    refine ⟨prelude, rfl, ?_⟩
    cases hstart : Session.start (request.debug || env.tracing) prelude with
    | mk failure session' =>
      simp only [bind, Except.bind, hstart] at h
      cases failure with
      | some e => cases h
      | none =>
        cases h
        rfl

theorem native_of_loaded (h : loaded request env files = .ok session) : session.Native := by
  obtain ⟨prelude, -, hstart⟩ := exists_prelude_of_loaded h
  have hnative := Session.native_start (request.debug || env.tracing) prelude
  rwa [hstart] at hnative

/-- What a request has come to after its files, before a shell starts. -/
theorem prepare_of_loaded (h : loaded request env files = .ok session) {outcome : FileRun}
    (hrun : runFiles (request.debug || env.tracing) files request.files session = outcome) :
    prepare request env files =
      { stdout := ShellEvent.joinedText outcome.events
        stderr := traceText outcome.session.takeLog.1 ++ reportText outcome.report
        ending := (outcome.failure.map Ending.failed).or
          ((outcome.report.map fun _ => .exit 1).or
            (if request.noRepl then some (.exit 0) else none))
        session := outcome.session.takeLog.2 } := by
  obtain ⟨prelude, hprelude, hstart⟩ := exists_prelude_of_loaded h
  rw [prepare, ← preludeOf, hprelude]
  simp only [hstart, Option.isSome_none, Bool.false_eq_true, if_false, hrun]
  cases outcome.failure <;> cases outcome.report <;> rfl

theorem run_of_ending {ending : Ending} (h : (prepare request env files).ending = some ending)
    (input : List Text) : run request env files input = prepare request env files := by
  rw [run, h]
  rfl

/-- A command that contains all failures of its files but those that escape.  It reports the first
file that does not succeed and ends with code one.  If all succeed, the shell ends with code zero
or of an integer with too many digits. -/
structure Contains (request : Request) (env : Environment) (files : FileSource)
    (input : List Text) : Prop where
  unloaded : ∀ e, loaded request env files = .error e →
    (run request env files input).ending = some (.failed e)
  reported : ∀ session name reached, loaded request env files = .ok session →
    FirstFailing (request.debug || env.tracing) files request.files session name reached →
    (∀ e, ¬ Escapes (request.debug || env.tracing) files name reached e) →
    ∃ text trace,
      (runFile (request.debug || env.tracing) files name reached).report = some text ∧
      (run request env files input).ending = some (.exit 1) ∧
      (run request env files input).stderr = traceText trace ++ (name ++ ": " ++ text ++ "\n")
  escaped : ∀ session name reached e, loaded request env files = .ok session →
    FirstFailing (request.debug || env.tracing) files request.files session name reached →
    Escapes (request.debug || env.tracing) files name reached e →
    (run request env files input).ending = some (.failed e)
  finished : ∀ session, loaded request env files = .ok session →
    (runFiles (request.debug || env.tracing) files request.files session).Succeeds →
    (run request env files input).ending = some (.exit 0) ∨
      request.noRepl = false ∧
        (run request env files input).ending = some (.failed .integerTooLong)

/-- The run of files of which one is the first that does not succeed. -/
theorem FirstFailing.runFiles {tracing : Bool} {names : List Text} {name : Text}
    {reached : Session} (h : FirstFailing tracing files names session name reached) :
    (runFiles tracing files names session).failure = (runFile tracing files name reached).failure ∧
      (runFiles tracing files names session).report =
        (runFile tracing files name reached).report.map (name ++ ": " ++ ·) := by
  obtain ⟨⟨before, after, rfl, hbefore, rfl⟩, hfails⟩ := h
  rw [runFiles_append hbefore]
  cases hreport : (runFile tracing files name
      (Command.runFiles tracing files before session).session).report with
  | some text =>
    rw [runFiles_cons_of_report hreport]
    exact ⟨rfl, rfl⟩
  | none =>
    cases hfailure : (runFile tracing files name
        (Command.runFiles tracing files before session).session).failure with
    | some e =>
      rw [runFiles_cons_of_failure hreport hfailure]
      exact ⟨hfailure, hreport⟩
    | none => exact absurd ⟨hreport, hfailure⟩ hfails

theorem FirstFailing.native {tracing : Bool} {names : List Text} {name : Text}
    {reached : Session} (h : FirstFailing tracing files names session name reached)
    (hnative : session.Native) : reached.Native := by
  obtain ⟨before, -, -, -, rfl⟩ := h.split
  exact native_runFiles hnative before

theorem ending_run_of_not_loaded {e : Failure} (h : loaded request env files = .error e)
    (input : List Text) : (run request env files input).ending = some (.failed e) := by
  have hending := ending_prepare_of_not_loaded h
  rwa [run_of_ending hending input]

section FirstFailing

variable {name : Text} {reached : Session} (h : loaded request env files = .ok session)
  (hfirst : FirstFailing (request.debug || env.tracing) files request.files session name reached)
  (input : List Text)

include h hfirst

/-- The first file that does not succeed is reported, if its failure does not escape. -/
theorem run_of_not_escapes
    (hnone : ∀ e, ¬ Escapes (request.debug || env.tracing) files name reached e) :
    ∃ text trace,
      (runFile (request.debug || env.tracing) files name reached).report = some text ∧
      (run request env files input).ending = some (.exit 1) ∧
      (run request env files input).stderr = traceText trace ++ (name ++ ": " ++ text ++ "\n") := by
  obtain ⟨hfailure, hreport⟩ := hfirst.runFiles
  have hreached := hfirst.native (native_of_loaded h)
  cases hfile : (runFile (request.debug || env.tracing) files name reached).failure with
  | some e => exact absurd ((runFile_failure_iff hreached e).mp hfile) (hnone e)
  | none =>
    cases htext : (runFile (request.debug || env.tracing) files name reached).report with
    | none => exact absurd ⟨htext, hfile⟩ hfirst.fails
    | some text =>
      rw [hfile] at hfailure
      rw [htext] at hreport
      have hprepare := prepare_of_loaded h rfl
      simp only [hfailure, hreport, Option.map_none, Option.map_some, Option.none_or,
        Option.some_or] at hprepare
      have hending : (prepare request env files).ending = some (.exit 1) := by rw [hprepare]
      rw [run_of_ending hending input, hprepare]
      exact ⟨text, _, rfl, rfl, rfl⟩

theorem ending_run_of_escapes {e : Failure}
    (hescapes : Escapes (request.debug || env.tracing) files name reached e) :
    (run request env files input).ending = some (.failed e) := by
  obtain ⟨hfailure, -⟩ := hfirst.runFiles
  rw [(runFile_failure_iff (hfirst.native (native_of_loaded h)) e).mpr hescapes] at hfailure
  have hending : (prepare request env files).ending = some (.failed e) := by
    rw [prepare_of_loaded h rfl, hfailure]
    rfl
  rwa [run_of_ending hending input]

end FirstFailing

/-- After files that all succeed, the command ends with code zero unless the shell fails. -/
theorem ending_run_of_succeeds (h : loaded request env files = .ok session)
    (hsucceeds : (runFiles (request.debug || env.tracing) files request.files session).Succeeds)
    (input : List Text) :
    (run request env files input).ending = some (.exit 0) ∨
      request.noRepl = false ∧
        (run request env files input).ending = some (.failed .integerTooLong) := by
  have hprepare := prepare_of_loaded h rfl
  simp only [hsucceeds.1, hsucceeds.2, Option.map_none, Option.none_or] at hprepare
  cases hrepl : request.noRepl with
  | true =>
    have hending : (prepare request env files).ending = some (.exit 0) := by
      rw [hprepare, hrepl]
      rfl
    rw [run_of_ending hending input]
    exact Or.inl hending
  | false =>
    have hending : (prepare request env files).ending = none := by
      rw [hprepare, hrepl]
      rfl
    have hnative : (prepare request env files).session.Native := by
      rw [hprepare]
      exact native_runFiles (native_of_loaded h) request.files
    have hshell : Shell.Contains (request.debug || env.tracing) input
        { session := (prepare request env files).session } :=
      Shell.contains_converse _ input hnative
    simp only [run, hending, Option.isSome_none, Bool.false_eq_true, if_false,
      Shell.failure_greetAndConverse]
    rcases hshell.failure with hfailure | hfailure <;> simp [hfailure]

/-- The command contains failures, whatever its files hold. -/
theorem contains_run (request : Request) (env : Environment) (files : FileSource)
    (input : List Text) : Contains request env files input where
  unloaded _ h := ending_run_of_not_loaded h input
  reported _ _ _ h hfirst := run_of_not_escapes h hfirst input
  escaped _ _ _ _ h hfirst := ending_run_of_escapes h hfirst input
  finished _ h hsucceeds := ending_run_of_succeeds h hsucceeds input

end Requests

end Command

end SmallLisp
