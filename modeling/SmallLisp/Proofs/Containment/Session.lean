import SmallLisp.Proofs.Evaluation.Native
import SmallLisp.Proofs.Reading.Datum
import SmallLisp.Proofs.Reading.Failing
import SmallLisp.Proofs.Session
/-!
What a run of a text can fail of, and what it keeps.

Main statements: in a session whose native functions are those of the catalog, a text fails of an
error of the language, of too deep nesting or of an integer with too many digits, and the session
keeps its native functions; what was defined before a failure stays defined.
-/

namespace SmallLisp

open Evaluation

/-- What is read has no native functions in it. -/
theorem Value.Readable.native {v : Value} (h : v.Readable) : v.Native := by
  induction h with
  | symbol hname => rintro p ⟨⟩
  | integer hbound => exact hereditary_native.integer _
  | boolean b => exact hereditary_native.boolean b
  | list identity hitems ih => exact native_list.mpr ih

namespace Session

/-- A session whose native functions are those of the catalog, as in every session that starts with
a prelude and goes on with the evaluation of texts. -/
def Native (session : Session) : Prop :=
  session.store.Native

theorem native_empty : Session.empty.Native := by
  refine Store.Native.pushGlobal fun f frame hframe => ?_
  simp at hframe

section Runs

variable {α : Type} {tracing : Bool} {observe : Store → Value → Except Failure α}
  {session : Session}

theorem native_evaluateForms (hobserve : ∀ s v, FailsAtLimit (observe s v)) (h : session.Native)
    {forms : List Value} (hforms : ∀ form ∈ forms, form.Native) :
    (evaluateForms tracing observe forms session).2.Native ∧
      ∀ e, (evaluateForms tracing observe forms session).1.failure = some e → e.IsOrdinary := by
  induction forms generalizing session with
  | nil => exact ⟨h, nofun⟩
  | cons form rest ih =>
    obtain ⟨hform, hrest⟩ := List.forall_mem_cons.mp hforms
    have heval : Maintains nativeInvariant (fun _ _ => True)
        (evaluateForm tracing observe session.global form) session.store session.store :=
      maintains_bind (isKept_native.evaluate tracing evaluationDepth hform trivial)
        fun v _ s _ _ => maintains_observe fun _ => (hobserve s v).ends fun _ => Or.inr
    obtain ⟨_, -, ⟨-, hstore⟩, hends⟩ := heval ⟨rfl, h⟩
    have hperform := session.perform_eq_outcome (evaluateForm tracing observe session.global form)
    cases hresult : (evaluateForm tracing observe session.global form).outcome session.store with
    | mk result s' =>
      rw [hresult] at hstore hends hperform
      cases result with
      | error e =>
        rw [evaluateForms_cons_error hperform]
        refine ⟨hstore, ?_⟩
        rintro e' ⟨⟩
        exact hends
      | ok a =>
        rw [evaluateForms_cons_ok hperform, Run.andThen]
        exact @ih { session with store := s' } hstore hrest

/-- The evaluation of a text keeps a session native and fails in no way but the ordinary ones. -/
theorem Native.evaluateAll (h : session.Native) (tracing : Bool)
    (hobserve : ∀ s v, FailsAtLimit (observe s v)) (source : Text) :
    (session.evaluateAll tracing observe source).2.Native ∧
      ∀ e, (session.evaluateAll tracing observe source).1.failure = some e → e.IsOrdinary := by
  rw [Session.evaluateAll]
  cases hparse : parse source with
  | error e =>
    refine ⟨h, ?_⟩
    rintro e' ⟨⟩
    exact isOrdinary_of_parse hparse
  | ok forms =>
    exact native_evaluateForms hobserve h fun form hform =>
      (datum_of_parse hparse form hform).readable.native

end Runs

theorem Native.evaluateDisplays {session : Session} (h : session.Native) (tracing : Bool)
    (source : Text) :
    (session.evaluateAll tracing (fun s v => v.display s) source).2.Native ∧
      ∀ e, (session.evaluateAll tracing (fun s v => v.display s) source).1.failure = some e →
        e.IsOrdinary :=
  h.evaluateAll tracing (fun s v => Value.failsAtLimit_displayWithin s nestingLimit v) source

theorem Native.evaluateLast {session : Session} (h : session.Native) (tracing : Bool)
    (source : Text) :
    (session.evaluateLast tracing source).2.Native ∧
      ∀ e, (session.evaluateLast tracing source).1 = .error e → e.IsOrdinary := by
  obtain ⟨hnative, hfailure⟩ :=
    h.evaluateAll tracing (fun _ v => failsAtLimit_ok v) source
  refine ⟨hnative, fun e he => hfailure e ?_⟩
  simp only [Session.evaluateLast] at he
  cases hrun : (session.evaluateAll tracing (fun _ v => .ok v) source).1.failure with
  | none =>
    rw [hrun] at he
    cases he
  | some e' =>
    rw [hrun] at he
    cases he
    rfl

theorem native_start (tracing : Bool) (prelude : Option Text) :
    (Session.start tracing prelude).2.Native := by
  cases prelude with
  | none => exact native_empty
  | some source => exact (native_empty.evaluateAll tracing (fun _ _ => failsAtLimit_ok ()) source).1

/-- Of forms of which one fails, those after it are not evaluated, and what those before it have
defined is kept but for the names that the failing form defines. -/
theorem writes_of_failure {α : Type} {tracing : Bool}
    {observe : Store → Value → Except Failure α} {before : List Value} {form : Value}
    {session reached : Session} {run : Run α}
    (hbefore : evaluateForms tracing observe before session = (run, reached))
    (hnone : run.failure = none)
    (hfails : (evaluateForms tracing observe [form] reached).1.failure ≠ none)
    (after : List Value) :
    reached.store.Writes session.global form.definedNames
      (evaluateForms tracing observe (before ++ form :: after) session).2.store := by
  have hglobal := (writes_evaluateForms tracing observe before session).2
  have hwrites := (writes_evaluateForms tracing observe [form] reached).1
  rw [hbefore] at hglobal
  rw [hglobal, Value.definedNamesIn, Value.definedNamesIn, List.append_nil] at hwrites
  rw [evaluateForms_append, hbefore, Run.andThen, hnone]
  cases hform : reached.perform (evaluateForm tracing observe reached.global form) with
  | mk result final =>
    cases result with
    | error e =>
      rw [evaluateForms_cons_error hform] at hwrites
      rwa [evaluateForms_cons_error hform]
    | ok shown =>
      rw [evaluateForms_cons_ok hform] at hfails
      exact absurd rfl hfails

/-- A text of which a form fails keeps what the forms before it have defined.  It leaves the session
that they lead to, with no other changes to its frames than bindings of the names that the failing
form defines. -/
def KeepsDefinitions (tracing : Bool) (source : Text) (session : Session) : Prop :=
  ∀ before form after run reached, parse source = .ok (before ++ form :: after) →
    evaluateForms tracing (fun s v => v.display s) before session = (run, reached) →
    run.failure = none →
    (evaluateForms tracing (fun s v => v.display s) [form] reached).1.failure ≠ none →
    reached.store.Writes session.global form.definedNames
      (session.evaluateAll tracing (fun s v => v.display s) source).2.store

theorem keepsDefinitions (tracing : Bool) (source : Text) (session : Session) :
    session.KeepsDefinitions tracing source := by
  intro before form after run reached hparse hbefore hnone hfails
  rw [Session.evaluateAll, hparse]
  exact writes_of_failure hbefore hnone hfails after

end Session

end SmallLisp
