import Mathlib.Order.Defs.Unbundled
import SmallLisp.Proofs.Evaluation.Forms
/-!
Outcomes of computations on the store.

An outcome is a result together with the store that is left, which there is after a failure too.
The operations that the rules of evaluation are made of have their equations here.  `Keeps` is what
every part of a computation has to do to the store for the whole to do it.
-/

namespace SmallLisp

namespace Evaluation

variable {α β : Type}

/-- The result of a computation and the store that it leaves. -/
def outcome (x : Evaluation α) (s : Store) : Except Failure α × Store :=
  match x s with
  | .ok a s' => (.ok a, s')
  | .error e s' => (.error e, s')

@[simp] theorem outcome_observe (look : Store → Except Failure α) (s : Store) :
    outcome (observe look) s = (look s, s) := by
  rw [outcome, observe]
  cases look s <;> rfl

@[simp] theorem outcome_failOn (view : Store → View) (v : Value) (fault : Text → Fault)
    (s : Store) :
    outcome (failOn view v fault : Evaluation α) s = (failShowing (view s) v fault, s) :=
  outcome_observe _ s

/-- A sequence goes on where its first part has succeeded. -/
theorem outcome_bind (x : Evaluation α) (next : α → Evaluation β) (s : Store) :
    outcome (x >>= next) s =
      match outcome x s with
      | (.ok a, s') => outcome (next a) s'
      | (.error e, s') => (.error e, s') := by
  simp only [outcome, bind, EStateM.bind]
  cases x s <;> rfl

theorem outcome_bind_ok {x : Evaluation α} {next : α → Evaluation β} {s s' : Store} {a : α}
    (h : outcome x s = (.ok a, s')) : outcome (x >>= next) s = outcome (next a) s' := by
  rw [outcome_bind, h]

theorem outcome_bind_error {x : Evaluation α} {next : α → Evaluation β} {s s' : Store}
    {e : Failure} (h : outcome x s = (.error e, s')) :
    outcome (x >>= next) s = (.error e, s') := by
  rw [outcome_bind, h]

end Evaluation

open Evaluation

/-- A failure that shows a value is never a success. -/
theorem failShowing_ne_ok {α : Type} (view : View) (v : Value) (fault : Text → Fault) (a : α) :
    failShowing view v fault ≠ .ok a := by
  intro h
  simp only [failShowing, bind, Except.bind] at h
  cases hv : view.display v <;> simp [hv] at h

theorem trace_false (view : Store → View) (label : Text) (v : Value) :
    trace view false label v = pure ⟨⟩ :=
  rfl

theorem outcome_identify (v : Value) (s : Store) :
    outcome (identify v) s = (.ok (v.identified s.nextIdentity), s.takeIdentity) :=
  rfl

theorem outcome_parameterNames_symbols (view : Store → View) (names : List Text) (s : Store) :
    outcome (parameterNames view (names.map .symbol)) s = (.ok names, s) := by
  induction names with
  | nil => rfl
  | cons name rest ih =>
    rw [List.map_cons, parameterNames, outcome_bind_ok ih]
    rfl

theorem outcome_parameterNames_other (view : Store → View) (names : List Text) {v : Value}
    (hv : ∀ name, v ≠ .symbol name) (rest : List Value) (s : Store) :
    outcome (parameterNames view (names.map .symbol ++ v :: rest)) s =
      (failShowing (view s) v .lambdaParameter, s) := by
  induction names with
  | nil =>
    rw [List.map_nil, List.nil_append, parameterNames]
    · exact outcome_failOn view v _ s
    · exact hv
  | cons name names ih =>
    cases hshow : (failShowing (view s) v .lambdaParameter : Except Failure (List Text)) with
    | ok a => exact absurd hshow (failShowing_ne_ok _ _ _ _)
    | error e =>
      rw [hshow] at ih
      rw [List.map_cons, List.cons_append, parameterNames, outcome_bind_error ih]

theorem Frame.parent_defineAll (frame : Frame) (pairs : Table Text Value) :
    (frame.defineAll pairs).parent = frame.parent := by
  induction pairs generalizing frame with
  | nil => rfl
  | cons entry rest ih => exact ih (frame.define entry.1 entry.2)

theorem Frame.get?_defineAll_of_not_mem {pairs : Table Text Value} {name : Text}
    (h : name ∉ Table.keys pairs) (frame : Frame) :
    (frame.defineAll pairs).get? name = frame.get? name := by
  induction pairs generalizing frame with
  | nil => rfl
  | cons entry rest ih =>
    obtain ⟨key, v⟩ := entry
    obtain ⟨hne, hrest⟩ := not_or.mp (mt List.mem_cons.mpr h)
    exact (ih hrest _).trans (get?_define_of_ne hne frame v)

/-- The frame of a call of a closure, before the call. -/
def calleeFrame (formals : List Text) (frame : FrameId) (args : List Value) : Frame :=
  Frame.defineAll { parent := some frame } (formals.zip args)

/-- A call of a closure pushes one frame, if the arguments are as many as the parameters. -/
theorem outcome_extendFrame (identity : Nat) (formals : List Text) (body : Value)
    (frame : FrameId) (args : List Value) (s : Store) :
    outcome (extendFrame identity formals body frame args) s =
      if args.length = formals.length then
        (.ok s.nextFrame, s.push (calleeFrame formals frame args))
      else
        (.error (.fault (.argumentCount
          (Value.functionName s (.closure identity formals body frame))
          formals.length false args.length)), s) := by
  rw [extendFrame]
  split <;> rfl

namespace Evaluation

/-- A computation that relates the store before it to the store after it, also where it fails. -/
def Keeps {α : Type} (R : Store → Store → Prop) (x : Evaluation α) : Prop :=
  ∀ s, R s (x.outcome s).2

variable {α β : Type} {R : Store → Store → Prop}

theorem keeps_modify {change : Store → Store} (h : ∀ s, R s (change s)) :
    Keeps R (modify change) :=
  h

theorem keeps_identify (h : ∀ s : Store, R s s.takeIdentity) (v : Value) :
    Keeps R (identify v) :=
  h

variable [IsPreorder Store R]

theorem keeps_pure (a : α) : Keeps R (pure a) :=
  fun s => refl_of R s

theorem keeps_throw (e : Failure) : Keeps R (throw e : Evaluation α) :=
  fun s => refl_of R s

theorem keeps_observe (look : Store → Except Failure α) : Keeps R (observe look) := by
  intro s
  rw [outcome_observe]
  exact refl_of R s

theorem keeps_failOn (view : Store → View) (v : Value) (fault : Text → Fault) :
    Keeps R (failOn view v fault : Evaluation α) :=
  keeps_observe _

theorem keeps_bind {x : Evaluation α} {next : α → Evaluation β} (hx : Keeps R x)
    (hnext : ∀ a, Keeps R (next a)) : Keeps R (x >>= next) := by
  intro s
  have hs := hx s
  rw [outcome_bind]
  cases hout : x.outcome s with
  | mk result s' =>
    rw [hout] at hs
    cases result with
    | error e => exact hs
    | ok a => exact trans_of R hs (hnext a s')

theorem keeps_trace (h : ∀ (s : Store) (line : Text), R s (s.record line)) (view : Store → View)
    (tracing : Bool) (label : Text) (v : Value) : Keeps R (trace view tracing label v) := by
  cases tracing with
  | false => exact keeps_pure PUnit.unit
  | true => exact keeps_bind (keeps_observe _) fun text => keeps_modify fun s => h s _

theorem keeps_parameterNames (view : Store → View) (parameters : List Value) :
    Keeps R (parameterNames view parameters) := by
  induction parameters with
  | nil => exact keeps_pure []
  | cons parameter rest ih =>
    cases parameter with
    | symbol name => exact keeps_bind ih fun names => keeps_pure _
    | _ => exact keeps_failOn view _ _

end Evaluation

end SmallLisp
