import SmallLisp.Proofs.Reading.Lines
import SmallLisp.Proofs.Reading.Machine
import SmallLisp.Proofs.Session
/-!
Texts one after the other, and the course that the run of a text takes.

A line feed keeps the tokens of two texts apart, so both are read as the first and then the second.
Main statements: the run of both is the run of the first and then, unless that fails, of the second;
a text that is not read changes nothing, and otherwise its forms yield their values in order up to
the first that fails, with all that was defined until then.
-/

namespace SmallLisp

section Reading

theorem parse_lineFeed {text : Text} {vs : List Value} (h : parse text = .ok vs) :
    parse (text ++ "\n") = .ok vs := by
  obtain ⟨hfailure, hread⟩ := parse_eq_ok_iff.mp h
  have hsame : lex (text ++ "\n") = lex text := lex_lineFeed hfailure
  exact parse_eq_ok_iff.mpr (hsame ▸ ⟨hfailure, hread⟩)

/-- What is read of whole lines and of the text after them. -/
theorem parse_append {text rest : Text} (hends : text.EndsLine) {vs ws : List Value}
    (h : parse text = .ok vs) (hrest : parse rest = .ok ws) :
    parse (text ++ rest) = .ok (vs ++ ws) := by
  obtain ⟨hfailure, done, hrun, rfl⟩ := parse_eq_ok_iff.mp h
  obtain ⟨hrestFailure, done', hrun', rfl⟩ := parse_eq_ok_iff.mp hrest
  obtain ⟨htokens, hboth⟩ := lex_append hends hfailure rest
  -- The reader has nothing open between the texts, so it goes on as a new one does.
  have hnext : Reader.run { done } (lex rest).tokens = .ok { done := done ++ done' } := by
    have hgoes := Reader.run_done done {} (lex rest).tokens
    rwa [hrun', Array.append_empty] at hgoes
  have hall : Reader.run {} ((lex text).tokens ++ (lex rest).tokens) =
      .ok { done := done ++ done' } := by
    rw [Reader.run_append, hrun]
    exact hnext
  exact parse_eq_ok_iff.mpr ⟨hboth.mpr hrestFailure, _, htokens ▸ hall, Array.toList_append⟩

/-- What is read of two texts with a line feed between them. -/
theorem parse_append_lineFeed {first second : Text} {vs ws : List Value}
    (h : parse first = .ok vs) (h' : parse second = .ok ws) :
    parse (first ++ "\n" ++ second) = .ok (vs ++ ws) :=
  parse_append (Or.inr ⟨first, rfl⟩) (parse_lineFeed h) h'

end Reading

namespace Session

variable {tracing : Bool} {session reached final : Session}

section Composition

variable {α : Type} {observe : Store → Value → Except Failure α}

theorem evaluateAll_of_parse {source : Text} {forms : List Value} (h : parse source = .ok forms)
    (session : Session) : session.evaluateAll tracing observe source =
      evaluateForms tracing observe forms session := by
  rw [evaluateAll, h]

/-- A run of two texts with a line feed between them. -/
theorem evaluateAll_append_lineFeed {first second : Text} {vs ws : List Value}
    (h : parse first = .ok vs) (h' : parse second = .ok ws) (session : Session) :
    session.evaluateAll tracing observe (first ++ "\n" ++ second) =
      Run.andThen (session.evaluateAll tracing observe first)
        (fun reached => reached.evaluateAll tracing observe second) := by
  rw [evaluateAll_of_parse (parse_append_lineFeed h h'), evaluateForms_append,
    evaluateAll_of_parse h]
  exact congrArg (Run.andThen _) (funext fun reached => (evaluateAll_of_parse h' reached).symm)

/-- The last value of a text and then, unless the text fails, of another one.  If the second has no
value, it is that of the first. -/
def evaluateLastOfTwo (tracing : Bool) (first second : Text) (session : Session) :
    Except Failure (Option Value) × Session :=
  match session.evaluateLast tracing first with
  | (.error e, reached) => (.error e, reached)
  | (.ok v, reached) =>
      let (result, final) := reached.evaluateLast tracing second
      (result.map fun w => w.or v, final)

theorem evaluateLast_append_lineFeed {first second : Text} {vs ws : List Value}
    (h : parse first = .ok vs) (h' : parse second = .ok ws) (session : Session) :
    session.evaluateLast tracing (first ++ "\n" ++ second) =
      session.evaluateLastOfTwo tracing first second := by
  rw [evaluateLast, evaluateAll_append_lineFeed h h', evaluateLastOfTwo, evaluateLast]
  obtain ⟨⟨results, failure⟩, reached⟩ := session.evaluateAll tracing (fun _ v => .ok v) first
  cases failure with
  | some e => rfl
  | none =>
    simp only [Run.andThen, evaluateLast, Option.elim]
    obtain ⟨⟨others, failure⟩, final⟩ := reached.evaluateAll tracing (fun _ v => .ok v) second
    cases failure with
    | some e => rfl
    | none => simp [Except.map, List.getLast?_append]

end Composition

section Course

/-- Forms that yield values one after the other, and the session that they leave. -/
inductive Yields (tracing : Bool) : List Value → Session → List Value → Session → Prop
  | nil (session : Session) : Yields tracing [] session [] session
  | cons {form v : Value} {forms vs : List Value} {session next final : Session} :
      session.perform (evaluateIn tracing form session.global) = (.ok v, next) →
      Yields tracing forms next vs final → Yields tracing (form :: forms) session (v :: vs) final

/-- The courses that the run of a text can take: the text is not read, all its forms yield values,
or those before the first that fails do. -/
inductive Course (tracing : Bool) (source : Text) (session : Session) : Run Value → Session → Prop
  | unread {e : Failure} : parse source = .error e →
      Course tracing source session { failure := some e } session
  | complete {forms vs : List Value} {final : Session} : parse source = .ok forms →
      Yields tracing forms session vs final → Course tracing source session { results := vs } final
  | stopped {before after vs : List Value} {form : Value} {e : Failure} {reached final : Session} :
      parse source = .ok (before ++ form :: after) → Yields tracing before session vs reached →
      reached.perform (evaluateIn tracing form reached.global) = (.error e, final) →
      Course tracing source session { results := vs, failure := some e } final

theorem Yields.global_eq {forms vs : List Value} (h : Yields tracing forms session vs final) :
    final.global = session.global := by
  induction h with
  | nil session => rfl
  | cons hform _ ih => exact ih.trans (outcome_of_perform hform).2

section View

variable {α : Type} (view : Value → α)

/-- The run of forms that yield values goes on with the forms after them. -/
theorem Yields.evaluateForms {forms vs : List Value} (h : Yields tracing forms session vs final)
    (rest : List Value) :
    Session.evaluateForms tracing (fun _ v => .ok (view v)) (forms ++ rest) session =
      Run.andThen ({ results := vs.map view }, final)
        (Session.evaluateForms tracing (fun _ v => .ok (view v)) rest) := by
  induction h with
  | nil session => rfl
  | cons hform _ ih =>
    have hfirst := perform_evaluateForm_ok (fun _ v => .ok (view v)) hform
    rw [List.cons_append, evaluateForms_cons_ok hfirst, Run.andThen, ih]
    rfl

/-- The run of a text that takes a course, whatever is seen of the values. -/
theorem Course.evaluateAll {source : Text} {run : Run Value}
    (h : Course tracing source session run final) :
    session.evaluateAll tracing (fun _ v => .ok (view v)) source =
      ({ results := run.results.map view, failure := run.failure }, final) := by
  cases h with
  | unread hparse =>
    rw [Session.evaluateAll, hparse]
    rfl
  | complete hparse hyields =>
    have hrun := hyields.evaluateForms view []
    rw [List.append_nil] at hrun
    rw [evaluateAll_of_parse hparse, hrun]
    simp [Run.andThen, Session.evaluateForms]
  | stopped hparse hyields hfails =>
    rw [evaluateAll_of_parse hparse, hyields.evaluateForms view, Run.andThen]
    simp [evaluateForms_cons_error (perform_evaluateForm_error hfails)]

end View

/-- Forms yield values one after the other, or there is a first one that fails. -/
theorem yields_or_fails (tracing : Bool) (forms : List Value) (session : Session) :
    (∃ vs final, Yields tracing forms session vs final) ∨
      ∃ before form after vs reached e final, forms = before ++ form :: after ∧
        Yields tracing before session vs reached ∧
        reached.perform (evaluateIn tracing form reached.global) = (.error e, final) := by
  induction forms generalizing session with
  | nil => exact Or.inl ⟨[], session, .nil session⟩
  | cons form rest ih =>
    cases hform : session.perform (evaluateIn tracing form session.global) with
    | mk result next =>
      cases result with
      | error e => exact Or.inr ⟨[], form, rest, [], session, e, next, rfl, .nil session, hform⟩
      | ok v =>
        rcases ih next with ⟨vs, final, hrest⟩ |
          ⟨before, failing, after, vs, reached, e, final, rfl, hbefore, hfails⟩
        · exact Or.inl ⟨v :: vs, final, .cons hform hrest⟩
        · exact Or.inr ⟨form :: before, failing, after, v :: vs, reached, e, final, rfl,
            .cons hform hbefore, hfails⟩

/-- Every run of a text takes a course. -/
theorem exists_course (tracing : Bool) (source : Text) (session : Session) :
    ∃ run final, Course tracing source session run final := by
  cases hparse : parse source with
  | error e => exact ⟨_, session, .unread hparse⟩
  | ok forms =>
    rcases yields_or_fails tracing forms session with ⟨vs, final, hyields⟩ |
      ⟨before, form, after, vs, reached, e, final, rfl, hyields, hfails⟩
    · exact ⟨_, final, .complete hparse hyields⟩
    · exact ⟨_, final, .stopped hparse hyields hfails⟩

theorem evaluateAll_eq_iff_course {source : Text} {run : Run Value} :
    session.evaluateAll tracing (fun _ v => .ok v) source = (run, final) ↔
      Course tracing source session run final := by
  have hvalues : ∀ {run : Run Value} {final : Session},
      Course tracing source session run final →
        session.evaluateAll tracing (fun _ v => .ok v) source = (run, final) := by
    intro run final hcourse
    simpa using hcourse.evaluateAll id
  constructor
  · intro hrun
    obtain ⟨run', final', hcourse⟩ := exists_course tracing source session
    obtain ⟨rfl, rfl⟩ := Prod.mk.inj ((hvalues hcourse).symm.trans hrun)
    exact hcourse
  · exact hvalues

/-- What a text defines, and how it fails, does not depend on whether its values are looked at. -/
theorem Course.load {source : Text} {run : Run Value}
    (h : Course tracing source session run final) :
    session.load tracing source = (run.failure, final) := by
  rw [Session.load, h.evaluateAll fun _ => ()]

/-- The failure of a form leaves what was defined before it, apart from what the form itself has
defined until then. -/
theorem Yields.writes {forms vs : List Value} (h : Yields tracing forms session vs reached)
    {form : Value} {result : Except Failure Value}
    (hform : reached.perform (evaluateIn tracing form reached.global) = (result, final)) :
    reached.store.Writes session.global form.definedNames final.store := by
  have hwrites : reached.store.Writes reached.global form.definedNames
      ((evaluateIn tracing form reached.global).outcome reached.store).2 :=
    keeps_evaluate tracing evaluationDepth form reached.global reached.store
  rw [(outcome_of_perform hform).1] at hwrites
  exact h.global_eq ▸ hwrites

end Course

/-- Two texts with a line feed between them are read, and run, as the one and then the other.  The
run of a text is the same however its values are asked for: it takes a course, and what the forms
before a failing one have defined is kept. -/
theorem evaluateAll_composes (tracing : Bool) (session : Session) :
    (∀ (first second : Text) (vs ws : List Value),
      parse first = .ok vs → parse second = .ok ws →
        parse (first ++ "\n" ++ second) = .ok (vs ++ ws) ∧
        session.evaluateLast tracing (first ++ "\n" ++ second) =
          session.evaluateLastOfTwo tracing first second) ∧
    (∀ (source : Text) (run : Run Value) (final : Session),
      session.evaluateAll tracing (fun _ v => .ok v) source = (run, final) →
        session.evaluateLast tracing source =
          (run.failure.elim (.ok run.results.getLast?) .error, final) ∧
        session.load tracing source = (run.failure, final)) ∧
    (∀ (source : Text) (run : Run Value) (final : Session),
      session.evaluateAll tracing (fun _ v => .ok v) source = (run, final) ↔
        Course tracing source session run final) ∧
    (∀ (before vs : List Value) (reached : Session) (form : Value) (e : Failure)
      (final : Session), Yields tracing before session vs reached →
      reached.perform (evaluateIn tracing form reached.global) = (.error e, final) →
        reached.store.Writes session.global form.definedNames final.store) := by
  refine ⟨?_, ?_, ?_, ?_⟩
  · intro first second vs ws hfirst hsecond
    exact ⟨parse_append_lineFeed hfirst hsecond,
      evaluateLast_append_lineFeed hfirst hsecond session⟩
  · intro source run final hrun
    refine ⟨?_, (evaluateAll_eq_iff_course.mp hrun).load⟩
    rw [evaluateLast, hrun]
  · intro source run final
    exact evaluateAll_eq_iff_course
  · intro before vs reached form e final hyields hfails
    exact hyields.writes hfails

end Session

end SmallLisp
