import SmallLisp.Evaluation
import SmallLisp.Reading
/-!
Sessions: a store with one global frame, against which source text is evaluated.

A text is read as a whole before any of it is evaluated.  Its forms are then evaluated one after
the other, each value is observed before the next form begins, and the first failure ends the run.
What was defined before a failure stays defined.
-/

namespace SmallLisp

/-- A store and its global frame. -/
structure Session where
  store : Store
  global : FrameId

/-- What a run has made: the observations of the values in order, and the failure that ended it. -/
structure Run (α : Type) where
  results : List α := []
  failure : Option Failure := none

namespace Session

/-- A session in which only the primitives and the two booleans are defined. -/
def empty : Session :=
  { store := Store.pushGlobal {}, global := 0 }

/-- The outcome of a computation on the store of a session. -/
def perform {α : Type} (session : Session) (x : Evaluation α) : Except Failure α × Session :=
  let ⟨store, global⟩ := session
  match x store with
  | .ok a store => (.ok a, { store, global })
  | .error e store => (.error e, { store, global })

/-- The evaluation of a form in the global frame, followed by an observation of the value. -/
def evaluateForm {α : Type} (tracing : Bool) (observe : Store → Value → Except Failure α)
    (global : FrameId) (form : Value) : Evaluation α := do
  let v ← evaluateIn tracing form global
  Evaluation.observe fun s => observe s v

/-- The evaluation of forms in order. -/
def evaluateForms {α : Type} (tracing : Bool) (observe : Store → Value → Except Failure α) :
    List Value → Session → Run α × Session
  | [], session => ({}, session)
  | form :: rest, session =>
      match session.perform (evaluateForm tracing observe session.global form) with
      | (.error e, session) => ({ failure := some e }, session)
      | (.ok a, session) =>
          let (run, session) := evaluateForms tracing observe rest session
          ({ run with results := a :: run.results }, session)

/-- The evaluation of every form of a text. -/
def evaluateAll {α : Type} (tracing : Bool) (observe : Store → Value → Except Failure α)
    (source : Text) (session : Session) : Run α × Session :=
  match parse source with
  | .error e => ({ failure := some e }, session)
  | .ok forms => evaluateForms tracing observe forms session

/-- The evaluation of every form of a text for its definitions. -/
def load (tracing : Bool) (source : Text) (session : Session) : Option Failure × Session :=
  let (run, session) := session.evaluateAll tracing (fun _ _ => .ok ()) source
  (run.failure, session)

/-- The last value of a text, if it has any. -/
def evaluateLast (tracing : Bool) (source : Text) (session : Session) :
    Except Failure (Option Value) × Session :=
  let (run, session) := session.evaluateAll tracing (fun _ v => .ok v) source
  (run.failure.elim (.ok run.results.getLast?) .error, session)

/-- A new session that has loaded a prelude. -/
def start (tracing : Bool) (prelude : Option Text) : Option Failure × Session :=
  match prelude with
  | none => (none, empty)
  | some source => empty.load tracing source

/-- The value of a name in the global frame. -/
def lookup (session : Session) (name : Text) : Except Failure Value := do
  discard (Value.symbolOf name)
  session.store.lookup session.global name

/-- The number of names in the global frame. -/
def bindingCount (session : Session) : Nat :=
  session.store.bindingCount session.global

/-- The lines of the trace in order, and the session with an empty trace. -/
def takeLog (session : Session) : List Text × Session :=
  (session.store.log.reverse, { session with store := { session.store with log := [] } })

end Session

end SmallLisp
