import SmallLisp.Proofs.Evaluation.WriteFootprint
import SmallLisp.Session
/-!
Runs of forms in a session.

Runs compose: the forms of one list after those of another are run in the session that the first
run leaves.  What is observed of the values has no effect on the session as long as it can be
observed.  A run writes in the global frame what its forms define.
-/

namespace SmallLisp

open Evaluation

/-- A run and then another one in the session that it leaves, unless it has failed. -/
def Run.andThen {α : Type} (first : Run α × Session) (next : Session → Run α × Session) :
    Run α × Session :=
  match first.1.failure with
  | some _ => first
  | none =>
      let (run, session) := next first.2
      ({ run with results := first.1.results ++ run.results }, session)

namespace Session

variable {α : Type}

theorem perform_of_outcome {session : Session} {x : Evaluation α}
    {r : Except Failure α} {s' : Store} (h : x.outcome session.store = (r, s')) :
    session.perform x = (r, { session with store := s' }) := by
  simp only [outcome] at h
  simp only [perform]
  split at h <;> simp_all

theorem perform_eq_outcome (session : Session) (x : Evaluation α) :
    session.perform x =
      ((x.outcome session.store).1, { session with store := (x.outcome session.store).2 }) :=
  perform_of_outcome rfl

theorem outcome_of_perform {session final : Session} {x : Evaluation α} {result : Except Failure α}
    (h : session.perform x = (result, final)) :
    x.outcome session.store = (result, final.store) ∧ final.global = session.global := by
  rw [perform_eq_outcome] at h
  obtain ⟨rfl, rfl⟩ := Prod.mk.inj h
  exact ⟨rfl, rfl⟩

variable {tracing : Bool} {observe : Store → Value → Except Failure α}

theorem evaluateForms_cons_ok {form : Value} {rest : List Value} {session session' : Session}
    {a : α} (h : session.perform (evaluateForm tracing observe session.global form) =
      (.ok a, session')) :
    evaluateForms tracing observe (form :: rest) session =
      Run.andThen ({ results := [a] }, session') (evaluateForms tracing observe rest) := by
  simp only [evaluateForms, h]
  rfl

theorem evaluateForms_cons_error {form : Value} {rest : List Value} {session session' : Session}
    {e : Failure} (h : session.perform (evaluateForm tracing observe session.global form) =
      (.error e, session')) :
    evaluateForms tracing observe (form :: rest) session = ({ failure := some e }, session') := by
  simp only [evaluateForms, h]

theorem andThen_assoc (first : Run α × Session) (next last : Session → Run α × Session) :
    Run.andThen (Run.andThen first next) last =
      Run.andThen first fun session => Run.andThen (next session) last := by
  obtain ⟨⟨results, failure⟩, session⟩ := first
  cases failure with
  | some e => rfl
  | none =>
    simp only [Run.andThen]
    cases hnext : (next session).1.failure <;> simp [hnext]

/-- Forms after others are run in the session that the others leave. -/
theorem evaluateForms_append (forms rest : List Value) (session : Session) :
    evaluateForms tracing observe (forms ++ rest) session =
      Run.andThen (evaluateForms tracing observe forms session)
        (evaluateForms tracing observe rest) := by
  induction forms generalizing session with
  | nil => rfl
  | cons form forms ih =>
    rw [List.cons_append]
    cases h : session.perform (evaluateForm tracing observe session.global form) with
    | mk result session' =>
      cases result with
      | ok a =>
        rw [evaluateForms_cons_ok h, evaluateForms_cons_ok h, andThen_assoc]
        exact congrArg (Run.andThen _) (funext ih)
      | error e =>
        rw [evaluateForms_cons_error h, evaluateForms_cons_error h]
        rfl

section Writes

variable (tracing observe) in
/-- A run writes in the global frame what its forms define. -/
theorem writes_evaluateForms (forms : List Value) (session : Session) :
    session.store.Writes session.global (Value.definedNamesIn forms)
        (evaluateForms tracing observe forms session).2.store ∧
      (evaluateForms tracing observe forms session).2.global = session.global := by
  induction forms generalizing session with
  | nil =>
    rw [Value.definedNamesIn]
    exact ⟨refl_of (Store.Writes session.global []) session.store, rfl⟩
  | cons form rest ih =>
    have hform : Keeps (Store.Writes session.global (Value.definedNamesIn (form :: rest)))
        (evaluateForm tracing observe session.global form) := by
      rw [Value.definedNamesIn]
      refine keeps_bind ?_ fun v => keeps_observe _
      exact (keeps_evaluate tracing evaluationDepth form session.global).writes_mono
        (List.subset_append_left _ _)
    have hwrites := hform session.store
    have hperform := session.perform_eq_outcome (evaluateForm tracing observe session.global form)
    cases hresult : (evaluateForm tracing observe session.global form).outcome session.store with
    | mk result s' =>
      rw [hresult] at hwrites hperform
      cases result with
      | error e =>
        rw [evaluateForms_cons_error hperform]
        exact ⟨hwrites, rfl⟩
      | ok a =>
        obtain ⟨hrest, hglobal⟩ := ih { session with store := s' }
        rw [evaluateForms_cons_ok hperform]
        refine ⟨hwrites.trans (hrest.mono ?_), hglobal⟩
        rw [Value.definedNamesIn]
        exact List.subset_append_right _ _

end Writes

section Observation

/-- The run of a text's forms, which keeps each value with the store in which it was produced. -/
def produce (tracing : Bool) (source : Text) (session : Session) :
    Run (Store × Value) × Session :=
  session.evaluateAll tracing (fun s v => .ok (s, v)) source

variable (observe) in
theorem perform_evaluateForm_ok {form v : Value} {session session' : Session}
    (h : session.perform (evaluateIn tracing form session.global) = (.ok v, session')) :
    session.perform (evaluateForm tracing observe session.global form) =
      (observe session'.store v, session') := by
  rw [perform_eq_outcome] at h ⊢
  obtain ⟨hresult, rfl⟩ := Prod.mk.inj h
  have hform : (evaluateForm tracing observe session.global form).outcome session.store =
      (observe ((evaluateIn tracing form session.global).outcome session.store).2 v,
        ((evaluateIn tracing form session.global).outcome session.store).2) :=
    (outcome_bind_ok (Prod.ext hresult rfl)).trans (outcome_observe _ _)
  rw [hform]

theorem perform_evaluateForm_error {form : Value} {e : Failure} {session session' : Session}
    (h : session.perform (evaluateIn tracing form session.global) = (.error e, session')) :
    session.perform (evaluateForm tracing observe session.global form) =
      (.error e, session') := by
  rw [perform_eq_outcome] at h ⊢
  obtain ⟨hresult, rfl⟩ := Prod.mk.inj h
  have hform : (evaluateForm tracing observe session.global form).outcome session.store =
      (.error e, ((evaluateIn tracing form session.global).outcome session.store).2) :=
    outcome_bind_error (Prod.ext hresult rfl)
  rw [hform]

theorem exists_of_mapM_cons_eq_ok {β : Type} {f : β → Except Failure α} {b : β} {rest : List β}
    {observed : List α} (h : (b :: rest).mapM f = .ok observed) :
    ∃ a others, f b = .ok a ∧ rest.mapM f = .ok others ∧ observed = a :: others := by
  rw [List.mapM_cons] at h
  cases hb : f b with
  | error e =>
    rw [hb] at h
    cases h
  | ok a =>
    cases hrest : rest.mapM f with
    | error e =>
      rw [hb, hrest] at h
      cases h
    | ok others =>
      rw [hb, hrest] at h
      exact ⟨a, others, rfl, rfl, (Except.ok.inj h).symm⟩

variable (observe) in
/-- What is observed of the values, if all of them can be observed, changes nothing in a run. -/
theorem evaluateForms_of_mapM {forms : List Value} {session : Session} {observed : List α}
    (h : (evaluateForms tracing (fun s v => .ok (s, v)) forms session).1.results.mapM
      (fun produced => observe produced.1 produced.2) = .ok observed) :
    evaluateForms tracing observe forms session =
      ({ results := observed,
         failure := (evaluateForms tracing (fun s v => .ok (s, v)) forms session).1.failure },
        (evaluateForms tracing (fun s v => .ok (s, v)) forms session).2) := by
  induction forms generalizing session observed with
  | nil =>
    cases h
    rfl
  | cons form rest ih =>
    cases hform : session.perform (evaluateIn tracing form session.global) with
    | mk result session' =>
      cases result with
      | error e =>
        rw [evaluateForms_cons_error (perform_evaluateForm_error hform)] at h ⊢
        rw [evaluateForms_cons_error (perform_evaluateForm_error hform)]
        cases h
        rfl
      | ok v =>
        have hproduce := perform_evaluateForm_ok (fun s v => .ok (s, v)) hform
        have hobserve := perform_evaluateForm_ok observe hform
        rw [evaluateForms_cons_ok hproduce] at h ⊢
        obtain ⟨a, others, ha, hrest, rfl⟩ := exists_of_mapM_cons_eq_ok h
        rw [ha] at hobserve
        rw [evaluateForms_cons_ok hobserve, Run.andThen, Run.andThen, ih hrest]
        rfl

end Observation

end Session

end SmallLisp
