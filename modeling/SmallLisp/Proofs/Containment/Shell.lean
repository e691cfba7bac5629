import SmallLisp.Proofs.Containment.Session
import SmallLisp.Proofs.Shell
/-!
Which failures the shell contains.

Main statement: the shell reports each text that fails and goes on with the next one in the session
that the failing text leaves, up to the end of the conversation, unless the failure is an integer
with too many digits.
-/

namespace SmallLisp

/-- What programs run into is reported, unless it is an integer with too many digits. -/
theorem Failure.IsOrdinary.report? {e : Failure} (h : e.IsOrdinary) :
    e = .integerTooLong ∨ ∃ text, e.report? = some text := by
  rcases h with ⟨fault, rfl⟩ | rfl | rfl
  · exact Or.inr ⟨_, rfl⟩
  · exact Or.inr ⟨_, rfl⟩
  · exact Or.inl rfl

/-- The runs of texts, each in the session that the one before leaves, with these sessions. -/
def Session.runEach (tracing : Bool) : List Text → Session → List (Run Text × Session)
  | [], _ => []
  | source :: rest, session =>
      let outcome := session.evaluateAll tracing (fun s v => v.display s) source
      outcome :: runEach tracing rest outcome.2

/-- The session after runs. -/
def Session.afterRuns (session : Session) (runs : List (Run Text × Session)) : Session :=
  (runs.getLast?.map Prod.snd).getD session

theorem Session.afterRuns_cons (session : Session) (outcome : Run Text × Session)
    (runs : List (Run Text × Session)) :
    session.afterRuns (outcome :: runs) = outcome.2.afterRuns runs := by
  rw [afterRuns, afterRuns, List.getLast?_cons]
  cases runs.getLast? <;> rfl

/-- What a shell tells of a run: each value, and then the failure in one line. -/
def Run.answers (run : Run Text) : List ShellEvent :=
  run.results.map .echo ++ ((run.failure.bind Failure.report?).map .report).toList

/-- A conversation that tells of runs in order and leaves the session after them. -/
structure Conversation.Tells (c : Conversation) (session : Session)
    (runs : List (Run Text × Session)) : Prop where
  answers : c.answers = runs.flatMap fun outcome => outcome.1.answers
  session : c.session = session.afterRuns runs

theorem Conversation.Tells.cons {c c' : Conversation} {session : Session}
    {outcome : Run Text × Session} {runs : List (Run Text × Session)}
    (hanswers : c.answers = outcome.1.answers ++ c'.answers) (hsession : c.session = c'.session)
    (h : c'.Tells outcome.2 runs) : c.Tells session (outcome :: runs) where
  answers := by rw [hanswers, h.answers, List.flatMap_cons]
  session := by rw [hsession, h.session, Session.afterRuns_cons]

namespace Shell

/-- The texts that are evaluated if a shell with a buffer is fed with lines: each ends where no
bracket is open, and a line `end` that does not continue anything ends the conversation. -/
def portions : Text → List Text → List Text
  | _, [] => []
  | buffer, line :: rest =>
      if buffer.isEmpty && line.trim = "end" then []
      else
        let source := buffer ++ line ++ [.scalar '\n']
        if needsMore source then portions source rest else source :: portions [] rest

/-- The runs of the texts that are evaluated if a shell is fed with lines. -/
def runs (tracing : Bool) (lines : List Text) (shell : Shell) : List (Run Text × Session) :=
  shell.session.runEach tracing (portions shell.buffer lines)

/-- A conversation in which all failures are contained but an integer with too many digits.  It
reports every other failure, keeps the session that the failing text leaves, and goes on with the
next text up to the end; an integer with too many digits ends it at once. -/
structure Contains (tracing : Bool) (lines : List Text) (shell : Shell) : Prop where
  native : ∀ outcome ∈ runs tracing lines shell, outcome.2.Native
  reported : ∀ outcome ∈ runs tracing lines shell, ∀ e, outcome.1.failure = some e →
    e = .integerTooLong ∨ ∃ text, e.report? = some text
  complete : (∀ outcome ∈ runs tracing lines shell, outcome.1.failure ≠ some .integerTooLong) →
    (converse tracing lines shell).failure = none ∧
      (converse tracing lines shell).Tells shell.session (runs tracing lines shell)
  ended : ∀ before outcome after, runs tracing lines shell = before ++ outcome :: after →
    (∀ earlier ∈ before, earlier.1.failure ≠ some .integerTooLong) →
    outcome.1.failure = some .integerTooLong →
    (converse tracing lines shell).failure = some .integerTooLong ∧
      (converse tracing lines shell).Tells shell.session (before ++ [outcome])

section Contains

variable {tracing : Bool} {shell next : Shell} {line : Text} {rest : List Text}

/-- Entering a text that fails in no other way than those that are reported. -/
theorem runSource_of_reported {source : Text} {session final : Session} {run : Run Text}
    (hrun : session.evaluateAll tracing (fun s v => v.display s) source = (run, final))
    (hreported : ∀ e, run.failure = some e → ∃ text, e.report? = some text) :
    runSource tracing source session = (run.answers, none, final) := by
  simp only [runSource, hrun, Run.answers]
  cases hfailure : run.failure with
  | none => simp
  | some e =>
    obtain ⟨text, htext⟩ := hreported e hfailure
    simp [htext]

theorem runSource_of_integerTooLong {source : Text} {session final : Session} {run : Run Text}
    (hrun : session.evaluateAll tracing (fun s v => v.display s) source = (run, final))
    (hfailure : run.failure = some .integerTooLong) :
    runSource tracing source session = (run.answers, some .integerTooLong, final) := by
  simp [runSource, hrun, Run.answers, hfailure, Failure.report?]

theorem filter_isAnswer_answers (run : Run Text) :
    run.answers.filter ShellEvent.isAnswer = run.answers := by
  rw [Run.answers, List.filter_append, filter_isAnswer_echoes]
  cases run.failure.bind Failure.report? <;> rfl

/-- A conversation in which nothing is evaluated. -/
theorem contains_of_runs_eq_nil {lines : List Text} (hruns : runs tracing lines shell = [])
    (hfailure : (converse tracing lines shell).failure = none)
    (hanswers : (converse tracing lines shell).answers = [])
    (hsession : (converse tracing lines shell).session = shell.session) :
    Contains tracing lines shell := by
  refine ⟨?_, ?_, fun _ => ⟨hfailure, ?_⟩, ?_⟩
  · simp [hruns]
  · simp [hruns]
  · rw [hruns]
    exact ⟨hanswers, hsession⟩
  · simp [hruns]

/-- A line that waits in the buffer. -/
theorem contains_of_needsMore (hend : shell.endedBy line = false)
    (hmore : needsMore (shell.buffer ++ line ++ [.scalar '\n']) = true)
    (h : Contains tracing rest { shell with buffer := shell.buffer ++ line ++ [.scalar '\n'] }) :
    Contains tracing (line :: rest) shell := by
  have hruns : runs tracing (line :: rest) shell =
      runs tracing rest { shell with buffer := shell.buffer ++ line ++ [.scalar '\n'] } := by
    rw [endedBy] at hend
    simp only [runs, portions, hend, hmore, if_true]
    rfl
  have henter : shell.enter tracing line =
      ([], none, { shell with buffer := shell.buffer ++ line ++ [.scalar '\n'] }) := by
    have hlineFeed : ("\n" : Text) = [.scalar '\n'] := rfl
    rw [Shell.enter, hlineFeed, hmore]
    rfl
  have hanswers := answers_converse_of_enter hend henter rest
  have hconverse := converse_of_enter hend henter rest
  refine ⟨?_, ?_, fun hnone => ?_, fun before outcome after heq hbefore hlong => ?_⟩
  · rw [hruns]
    exact h.native
  · rw [hruns]
    exact h.reported
  · rw [hruns] at hnone ⊢
    obtain ⟨hfailure, htells⟩ := h.complete hnone
    exact ⟨hconverse ▸ hfailure, hanswers.trans htells.answers, hconverse ▸ htells.session⟩
  · rw [hruns] at heq
    obtain ⟨hfailure, htells⟩ := h.ended before outcome after heq hbefore hlong
    exact ⟨hconverse ▸ hfailure, hanswers.trans htells.answers, hconverse ▸ htells.session⟩

/-- A line that completes a text. -/
theorem contains_of_not_needsMore (hend : shell.endedBy line = false)
    (hmore : needsMore (shell.buffer ++ line ++ [.scalar '\n']) = false)
    (hnative : shell.session.Native)
    (h : ∀ session : Session, session.Native → Contains tracing rest { session }) :
    Contains tracing (line :: rest) shell := by
  obtain ⟨hfinal, hordinary⟩ :=
    hnative.evaluateDisplays tracing (shell.buffer ++ line ++ [.scalar '\n'])
  cases hrun : shell.session.evaluateAll tracing (fun s v => v.display s)
      (shell.buffer ++ line ++ [.scalar '\n']) with
  | mk run final =>
    rw [hrun] at hfinal hordinary
    have hrest := h final hfinal
    have hruns : runs tracing (line :: rest) shell =
        (run, final) :: runs tracing rest { session := final } := by
      rw [endedBy] at hend
      simp only [runs, portions, hend, hmore, Session.runEach, hrun, Bool.false_eq_true, if_false]
    have henter := shell.enter_of_not_needsMore tracing hmore
    have hgo : run.failure ≠ some .integerTooLong →
        (converse tracing (line :: rest) shell).failure =
            (converse tracing rest { session := final }).failure ∧
          ∀ runs, (converse tracing rest { session := final }).Tells final runs →
            (converse tracing (line :: rest) shell).Tells shell.session ((run, final) :: runs) := by
      intro hshort
      have hreported : ∀ e, run.failure = some e → ∃ text, e.report? = some text :=
        fun e he => (hordinary e he).report?.resolve_left fun hlong => hshort (hlong ▸ he)
      rw [runSource_of_reported hrun hreported] at henter
      have hconverse := converse_of_enter hend henter rest
      have hanswers := answers_converse_of_enter hend henter rest
      rw [filter_isAnswer_answers] at hanswers
      exact ⟨by rw [hconverse], fun runs htells => htells.cons hanswers (by rw [hconverse])⟩
    refine ⟨?_, ?_, fun hnone => ?_, fun before outcome after heq hbefore hlong => ?_⟩
    · rw [hruns]
      exact List.forall_mem_cons.mpr ⟨hfinal, hrest.native⟩
    · rw [hruns]
      exact List.forall_mem_cons.mpr ⟨fun e he => (hordinary e he).report?, hrest.reported⟩
    · rw [hruns] at hnone ⊢
      obtain ⟨hshort, hnone⟩ := List.forall_mem_cons.mp hnone
      obtain ⟨hfailure, htells⟩ := hrest.complete hnone
      exact ⟨(hgo hshort).1.trans hfailure, (hgo hshort).2 _ htells⟩
    · rw [hruns] at heq
      rcases List.cons_eq_append_iff.mp heq with ⟨rfl, hhead⟩ | ⟨before', rfl, hafter⟩
      · obtain ⟨rfl, rfl⟩ := List.cons.inj hhead
        rw [runSource_of_integerTooLong hrun hlong] at henter
        rw [converse_of_enter_failure hend henter]
        refine ⟨rfl, ?_, rfl⟩
        simpa [Conversation.answers, promptEvent, ShellEvent.isAnswer] using
          filter_isAnswer_answers run
      · obtain ⟨hshort, hbefore⟩ := List.forall_mem_cons.mp hbefore
        obtain ⟨hfailure, htells⟩ := hrest.ended before' outcome after hafter hbefore hlong
        exact ⟨(hgo hshort).1.trans hfailure, (hgo hshort).2 _ htells⟩

/-- The shell contains failures in every native session. -/
theorem contains_converse (tracing : Bool) (lines : List Text) {shell : Shell}
    (h : shell.session.Native) : Contains tracing lines shell := by
  induction lines generalizing shell with
  | nil => exact contains_of_runs_eq_nil rfl rfl rfl rfl
  | cons line rest ih =>
    cases hend : shell.endedBy line with
    | true =>
      have hconverse : converse tracing (line :: rest) shell =
          { events := [shell.promptEvent], session := shell.session } := by
        rw [converse, hend]
        rfl
      refine contains_of_runs_eq_nil ?_ ?_ ?_ ?_
      · rw [endedBy] at hend
        simp only [runs, portions, hend, if_true]
        rfl
      · rw [hconverse]
      · rw [hconverse]
        rfl
      · rw [hconverse]
    | false =>
      cases hmore : needsMore (shell.buffer ++ line ++ [.scalar '\n']) with
      | true => exact contains_of_needsMore hend hmore (ih h)
      | false => exact contains_of_not_needsMore hend hmore h fun session hsession => ih hsession

theorem Contains.failure {lines : List Text} (h : Contains tracing lines shell) :
    (converse tracing lines shell).failure = none ∨
      (converse tracing lines shell).failure = some .integerTooLong := by
  cases hfind : (runs tracing lines shell).find?
      fun outcome => decide (outcome.1.failure = some .integerTooLong) with
  | none =>
    rw [List.find?_eq_none] at hfind
    exact Or.inl (h.complete fun outcome houtcome => by simpa using hfind outcome houtcome).1
  | some outcome =>
    obtain ⟨hlong, before, after, hruns, hbefore⟩ := List.find?_eq_some_iff_append.mp hfind
    exact Or.inr (h.ended before outcome after hruns
      (fun earlier hearlier => by simpa using hbefore earlier hearlier) (by simpa using hlong)).1

theorem failure_greetAndConverse (lines : List Text) (greeting : Option Text) (session : Session) :
    (greetAndConverse tracing greeting lines session).failure =
      (converse tracing lines { session }).failure := by
  simp only [greetAndConverse]
  split <;> rfl

end Contains

end Shell

end SmallLisp
