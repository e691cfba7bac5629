import SmallLisp.Proofs.Display
import SmallLisp.Proofs.Evaluation.Reachability
import SmallLisp.Proofs.Session
/-!
What a trace does to an evaluation.

An untraced run determines what a trace of it would show: every expression when its evaluation
begins, and every closure when it is applied, each in the store of that moment and with what is left
of the depth then.  Main statement: the traced run does what the untraced run does as long as all of
that can be shown within the depth that is left.  The first value that cannot ends the traced run,
and what the untraced run would have done from there on is lost.
-/

namespace SmallLisp

/-- The store with another trace. -/
def Store.withLog (s : Store) (log : List Text) : Store :=
  { s with log }

/-- A line that a trace shows: its label, its value, and the store and what is left of the depth at
that moment. -/
structure TraceEvent where
  label : Text
  value : Value
  store : Store
  depth : Nat

/-- The text of a line, if its value has one within the depth that is left. -/
def TraceEvent.line (event : TraceEvent) : Except Failure Text := do
  let text ← event.value.detailedWithin event.store event.depth
  return event.label ++ text

/-- The text of a line, however deep its value is nested. -/
def TraceEvent.wholeLine? (event : TraceEvent) : Option Text :=
  (event.value.detailedText? event.store).map (event.label ++ ·)

/-- What is shown from a store on. -/
abbrev Shown := Store → List TraceEvent

namespace Shown

/-- What is shown after a result; nothing is after a failure. -/
def resume {α : Type} (next : α → Shown) : Except Failure α × Store → List TraceEvent
  | (.ok a, s) => next a s
  | (.error _, _) => []

/-- What is shown by a computation, and then by what comes after it. -/
def andThen {α : Type} (shown : Shown) (x : Evaluation α) (next : α → Shown) : Shown := fun s =>
  shown s ++ resume next (x.outcome s)

/-- What is shown after a computation that shows nothing itself. -/
def after {α : Type} (x : Evaluation α) (next : α → Shown) : Shown :=
  andThen (fun _ => []) x next

/-- One line, and what is shown after it. -/
def line (depth : Nat) (label : Text) (v : Value) (next : Shown) : Shown := fun s =>
  { label, value := v, store := s, depth } :: next s

end Shown

section Rules

variable (depth : Nat) (eval : Value → FrameId → Evaluation Value)
  (shown : Value → FrameId → Shown)

/-- What the evaluation of arguments shows. -/
def argumentsShown (f : FrameId) : List Value → Shown
  | [] => fun _ => []
  | e :: rest => (shown e f).andThen (eval e f) fun _ => argumentsShown f rest

/-- What a call of a function on evaluated arguments shows. -/
def applicationShown (function : Value) (args : List Value) : Shown :=
  match function with
  | .closure identity formals body frame =>
      .after (extendFrame identity formals body frame args) fun f =>
        .line depth "Applying: " function (shown body f)
  | _ => fun _ => []

/-- What a special form shows. -/
def specialFormShown (form : SpecialForm) (parts : List Value) (f : FrameId) : Shown :=
  match form, parts with
  | .define, .symbol _ :: e :: _ => shown e f
  | .conditional, [test, consequent, alternate] =>
      (shown test f).andThen (eval test f) fun t =>
        shown (if t.isTrue then consequent else alternate) f
  | _, _ => fun _ => []

/-- What a call shows. -/
def callShown (head : Value) (parts : List Value) (f : FrameId) : Shown :=
  (shown head f).andThen (eval head f) fun function =>
    if function.isFunction then
      (argumentsShown eval shown f parts).andThen (evaluateArguments eval f parts) fun args =>
        applicationShown depth shown function args
    else fun _ => []

/-- What a list shows as an expression. -/
def listShown (f : FrameId) : List Value → Shown
  | [] => fun _ => []
  | head :: parts =>
      match specialHead? head with
      | some form => specialFormShown eval shown form parts f
      | none => callShown depth eval shown head parts f

/-- What an expression shows: itself first, and then its parts. -/
def stepShown (e : Value) (f : FrameId) : Shown :=
  .line depth "Evaluating: " e <|
    match e with
    | .list items _ => listShown depth eval shown f items
    | _ => fun _ => []

end Rules

/-- What an evaluation would show if it were traced. -/
def evaluateShown : (depth : Nat) → Value → FrameId → Shown
  | 0 => fun _ _ _ => []
  | depth + 1 => stepShown depth (evaluate false depth) (evaluateShown depth)

namespace Evaluation

variable {α β : Type}

/-- The outcome of what comes after a result; a failure stays. -/
def resume (next : α → Evaluation β) : Except Failure α × Store → Except Failure β × Store
  | (.ok a, s) => (next a).outcome s
  | (.error e, s) => (.error e, s)

theorem outcome_bind_eq_resume (x : Evaluation α) (next : α → Evaluation β) (s : Store) :
    (x >>= next).outcome s = resume next (x.outcome s) := by
  rw [outcome_bind]
  rfl

/-- The outcome of a traced run, from what it shows, the trace before it and the outcome of the
untraced run. -/
def tracedOutcome : List TraceEvent → List Text → Except Failure α × Store →
    Except Failure α × Store
  | [], log, plain => (plain.1, plain.2.withLog log)
  | event :: rest, log, plain =>
      match event.line with
      | .ok line => tracedOutcome rest (line :: log) plain
      | .error e => (.error e, event.store.withLog log)

/-- A computation that does what another one does and shows something on the way. -/
def Follows (shown : Shown) (x traced : Evaluation α) : Prop :=
  ∀ (s : Store) (log : List Text),
    traced.outcome (s.withLog log) = tracedOutcome (shown s) log (x.outcome s)

/-- A computation that neither reads nor extends the trace. -/
abbrev Blind (x : Evaluation α) : Prop :=
  Follows (fun _ => []) x x

end Evaluation

open Evaluation

section Log

/-- A store looks the same with another trace. -/
theorem Store.alike_withLog (s : Store) (log : List Text) :
    s.Alike (fun _ => True) s.log log (s.withLog log) where
  size := rfl
  identity := rfl
  frames _ _ := rfl
  within _ _ _ _ := ⟨fun _ _ => trivial, fun _ _ _ _ => trivial⟩
  fresh _ _ := trivial
  log := ⟨[], rfl, rfl⟩

theorem Value.within_true (v : Value) : v.Within fun _ => True :=
  fun _ _ => trivial

theorem Value.functionName_withLog (v : Value) (s : Store) (log : List Text) :
    v.functionName (s.withLog log) = v.functionName s :=
  ((s.alike_withLog log).functionName v.within_true).symm

theorem Store.lookup_withLog (s : Store) (log : List Text) (f : FrameId) (name : Text) :
    (s.withLog log).lookup f name = s.lookup f name :=
  ((s.alike_withLog log).lookup trivial name).symm

theorem Store.view_withLog (s : Store) (log : List Text) (depth : Nat) :
    (s.withLog log).view depth = s.view depth := by
  have hdisplay : Value.displayWithin s depth = Value.displayWithin (s.withLog log) depth :=
    funext fun v => (s.alike_withLog log).displayWithin depth v.within_true
  have hdetailed : Value.detailedWithin s depth = Value.detailedWithin (s.withLog log) depth :=
    funext fun v => (s.alike_withLog log).detailedWithin depth v.within_true
  rw [view, view, hdisplay, hdetailed]

end Log

namespace Evaluation

variable {α β : Type} {shown : Shown} {x traced : Evaluation α} {next tracedNext : α → Evaluation β}

theorem blind_pure (a : α) : Blind (pure a : Evaluation α) :=
  fun _ _ => rfl

theorem blind_throw (e : Failure) : Blind (throw e : Evaluation α) :=
  fun _ _ => rfl

theorem blind_observe {look : Store → Except Failure α}
    (h : ∀ s log, look (Store.withLog s log) = look s) : Blind (observe look) := by
  intro s log
  rw [outcome_observe, outcome_observe, h]
  rfl

theorem blind_failOn (depth : Nat) (v : Value) (fault : Text → Fault) :
    Blind (failOn (Store.view depth) v fault : Evaluation α) :=
  blind_observe fun s log => by rw [s.view_withLog]

theorem blind_identify (v : Value) : Blind (identify v) :=
  fun _ _ => rfl

theorem blind_extendFrame (identity : Nat) (formals : List Text) (body : Value) (frame : FrameId)
    (args : List Value) : Blind (extendFrame identity formals body frame args) := by
  intro s log
  rw [outcome_extendFrame, outcome_extendFrame, Value.functionName_withLog]
  split <;> rfl

theorem outcome_trace (depth : Nat) (s : Store) (log : List Text) (label : Text) (v : Value) :
    (trace (Store.view depth) true label v).outcome (s.withLog log) =
      tracedOutcome [{ label, value := v, store := s, depth }] log (.ok ⟨⟩, s) := by
  have htext : (observe fun s => (s.view depth).detailed v).outcome (s.withLog log) =
      (v.detailedWithin s depth, s.withLog log) := by
    rw [outcome_observe, s.view_withLog]
    rfl
  have htrace : trace (Store.view depth) true label v =
      (observe fun s => (s.view depth).detailed v) >>= fun text =>
        modify (·.record (label ++ text)) := rfl
  rw [htrace, outcome_bind, htext, tracedOutcome, TraceEvent.line]
  cases v.detailedWithin s depth <;> rfl

/-- What comes after a part that is followed is followed too. -/
theorem resume_tracedOutcome {shownNext : α → Shown}
    (hnext : ∀ a, Follows (shownNext a) (next a) (tracedNext a)) (events : List TraceEvent)
    (log : List Text) (plain : Except Failure α × Store) :
    resume tracedNext (tracedOutcome events log plain) =
      tracedOutcome (events ++ Shown.resume shownNext plain) log (resume next plain) := by
  induction events generalizing log with
  | nil =>
    obtain ⟨result, s'⟩ := plain
    cases result with
    | ok a => exact hnext a s' log
    | error e => rfl
  | cons event rest ih =>
    rw [List.cons_append, tracedOutcome, tracedOutcome]
    cases event.line with
    | ok line => exact ih (line :: log)
    | error e => rfl

theorem follows_bind {shownNext : α → Shown} (hx : Follows shown x traced)
    (hnext : ∀ a, Follows (shownNext a) (next a) (tracedNext a)) :
    Follows (shown.andThen x shownNext) (x >>= next) (traced >>= tracedNext) := by
  intro s log
  rw [outcome_bind_eq_resume, outcome_bind_eq_resume, hx s log]
  exact resume_tracedOutcome hnext _ _ _

/-- What comes last and shows nothing adds nothing to what is shown. -/
theorem Follows.bind_blind (hx : Follows shown x traced) (hnext : ∀ a, Blind (next a)) :
    Follows shown (x >>= next) (traced >>= next) := by
  intro s log
  rw [follows_bind hx hnext s log, Shown.andThen]
  cases x.outcome s with
  | mk result s' => cases result <;> exact congrArg (tracedOutcome · log _) (List.append_nil _)

theorem follows_trace_bind {depth : Nat} {label : Text} {v : Value} {x traced : Evaluation β}
    (hx : Follows shown x traced) :
    Follows (.line depth label v shown) (trace (Store.view depth) false label v >>= fun _ => x)
      (trace (Store.view depth) true label v >>= fun _ => traced) := by
  have htrace : Follows (fun s => [{ label, value := v, store := s, depth }])
      (trace (Store.view depth) false label v) (trace (Store.view depth) true label v) :=
    fun s log => outcome_trace depth s log label v
  exact follows_bind htrace fun _ => hx

theorem blind_parameterNames (depth : Nat) (parameters : List Value) :
    Blind (parameterNames (Store.view depth) parameters) := by
  induction parameters with
  | nil => exact blind_pure []
  | cons parameter rest ih =>
    cases parameter with
    | symbol name => exact ih.bind_blind fun names => blind_pure _
    | _ => exact blind_failOn depth _ _

end Evaluation

section Rules

variable {eval tracedEval : Value → FrameId → Evaluation Value} {shown : Value → FrameId → Shown}
  {depth : Nat}

theorem follows_applyWith (heval : ∀ e f, Follows (shown e f) (eval e f) (tracedEval e f))
    (function : Value) (args : List Value) :
    Follows (applicationShown depth shown function args)
      (applyWith (Store.view depth) eval false function args)
      (applyWith (Store.view depth) tracedEval true function args) := by
  cases function with
  | closure identity formals body frame =>
    apply follows_bind (blind_extendFrame identity formals body frame args)
    intro f
    exact follows_trace_bind (heval body f)
  | primitive identity p =>
    have happly : Blind (observe fun s => p.applyWith (s.view depth) args) :=
      blind_observe fun s log => by rw [s.view_withLog]
    exact happly.bind_blind blind_identify
  | _ => exact blind_failOn depth _ _

theorem follows_evaluateArguments
    (heval : ∀ e f, Follows (shown e f) (eval e f) (tracedEval e f)) (f : FrameId)
    (es : List Value) :
    Follows (argumentsShown eval shown f es) (evaluateArguments eval f es)
      (evaluateArguments tracedEval f es) := by
  induction es with
  | nil => exact blind_pure []
  | cons e rest ih =>
    apply follows_bind (heval e f)
    intro v
    exact ih.bind_blind fun vs => blind_pure (v :: vs)

theorem follows_specialForm (heval : ∀ e f, Follows (shown e f) (eval e f) (tracedEval e f))
    (form : SpecialForm) (parts : List Value) (f : FrameId) :
    Follows (specialFormShown eval shown form parts f)
      (form.evaluateWith (Store.view depth) eval parts f)
      (form.evaluateWith (Store.view depth) tracedEval parts f) := by
  cases form.shape parts with
  | quote datum => exact blind_pure datum
  | quoteParts hcount =>
    rw [SpecialForm.evaluateWith_quoteParts hcount, SpecialForm.evaluateWith_quoteParts hcount]
    exact blind_throw _
  | define name e rest =>
    apply (heval e f).bind_blind
    exact fun v s log => rfl
  | defineTarget e rest htarget =>
    rw [SpecialForm.evaluateWith_defineTarget htarget,
      SpecialForm.evaluateWith_defineTarget htarget, specialFormShown]
    · exact blind_failOn depth _ _
    · rintro name e rest - ⟨⟩
      exact htarget name rfl
    · rintro test consequent alternate ⟨⟩
  | defineIncomplete hcount =>
    rw [SpecialForm.evaluateWith_defineIncomplete hcount,
      SpecialForm.evaluateWith_defineIncomplete hcount, specialFormShown]
    · exact blind_throw _
    · rintro name e rest - rfl
      simp only [List.length_cons] at hcount
      omega
    · rintro test consequent alternate ⟨⟩
  | lambda parameters identity body =>
    apply (blind_parameterNames depth parameters).bind_blind
    exact fun formals s log => rfl
  | lambdaParameters body hparameters =>
    rw [SpecialForm.evaluateWith_lambdaParameters hparameters,
      SpecialForm.evaluateWith_lambdaParameters hparameters]
    exact blind_failOn depth _ _
  | lambdaParts hcount =>
    rw [SpecialForm.evaluateWith_lambdaParts hcount, SpecialForm.evaluateWith_lambdaParts hcount]
    exact blind_throw _
  | conditional test consequent alternate =>
    apply follows_bind (heval test f)
    exact fun t => heval (if t.isTrue then consequent else alternate) f
  | conditionalParts hcount =>
    rw [SpecialForm.evaluateWith_conditionalParts hcount,
      SpecialForm.evaluateWith_conditionalParts hcount, specialFormShown]
    · exact blind_throw _
    · rintro name e rest ⟨⟩
    · rintro test consequent alternate - rfl
      exact hcount rfl

theorem follows_evaluateCall (heval : ∀ e f, Follows (shown e f) (eval e f) (tracedEval e f))
    (head : Value) (parts : List Value) (f : FrameId) :
    Follows (callShown depth eval shown head parts f)
      (evaluateCall (Store.view depth) eval false head parts f)
      (evaluateCall (Store.view depth) tracedEval true head parts f) := by
  apply follows_bind (heval head f)
  intro function
  cases function.isFunction with
  | true =>
    apply follows_bind (follows_evaluateArguments heval f parts)
    intro args
    exact follows_applyWith heval function args
  | false => exact blind_failOn depth function _

theorem follows_evaluateStep (heval : ∀ e f, Follows (shown e f) (eval e f) (tracedEval e f))
    (e : Value) (f : FrameId) :
    Follows (stepShown depth eval shown e f) (evaluateStep (Store.view depth) eval false e f)
      (evaluateStep (Store.view depth) tracedEval true e f) := by
  apply follows_trace_bind
  cases e with
  | list items identity =>
    cases items with
    | nil => exact blind_throw _
    | cons head parts =>
      simp only [evaluateList, listShown]
      cases specialHead? head with
      | some form => exact follows_specialForm heval form parts f
      | none => exact follows_evaluateCall heval head parts f
  | symbol name => exact blind_observe fun s log => s.lookup_withLog log f name
  | foreign text => exact blind_throw _
  | _ => exact blind_pure _

end Rules

/-- The traced evaluation of an expression follows the untraced one. -/
theorem follows_evaluate (depth : Nat) (e : Value) (f : FrameId) :
    Follows (evaluateShown depth e f) (evaluate false depth e f) (evaluate true depth e f) := by
  induction depth generalizing e f with
  | zero => exact blind_throw _
  | succ depth ih => exact follows_evaluateStep ih e f

namespace Evaluation

variable {α β : Type}

theorem tracedOutcome_cons_ok {event : TraceEvent} {line : Text} (h : event.line = .ok line)
    (rest : List TraceEvent) (log : List Text) (plain : Except Failure α × Store) :
    tracedOutcome (event :: rest) log plain = tracedOutcome rest (line :: log) plain := by
  rw [tracedOutcome, h]

theorem tracedOutcome_cons_error {event : TraceEvent} {e : Failure} (h : event.line = .error e)
    (rest : List TraceEvent) (log : List Text) (plain : Except Failure α × Store) :
    tracedOutcome (event :: rest) log plain = (.error e, event.store.withLog log) := by
  rw [tracedOutcome, h]

/-- If every line has a text, the outcome is that of the untraced run, with the lines added. -/
theorem tracedOutcome_of_lines {events : List TraceEvent} {lines : List Text}
    (h : events.mapM TraceEvent.line = .ok lines) (log : List Text)
    (plain : Except Failure α × Store) :
    tracedOutcome events log plain = (plain.1, plain.2.withLog (lines.reverse ++ log)) := by
  induction events generalizing lines log with
  | nil =>
    cases h
    rfl
  | cons event rest ih =>
    obtain ⟨line, others, hline, hrest, rfl⟩ := Session.exists_of_mapM_cons_eq_ok h
    rw [tracedOutcome_cons_ok hline, ih hrest, List.reverse_cons, List.append_assoc]
    rfl

/-- The first line without a text is the failure, in the store of that moment. -/
theorem tracedOutcome_of_error {before rest : List TraceEvent} {event : TraceEvent}
    {lines : List Text} {e : Failure} (hbefore : before.mapM TraceEvent.line = .ok lines)
    (hevent : event.line = .error e) (log : List Text) (plain : Except Failure α × Store) :
    tracedOutcome (before ++ event :: rest) log plain =
      (.error e, event.store.withLog (lines.reverse ++ log)) := by
  induction before generalizing lines log with
  | nil =>
    cases hbefore
    exact tracedOutcome_cons_error hevent rest log plain
  | cons first before ih =>
    obtain ⟨line, others, hline, hothers, rfl⟩ := Session.exists_of_mapM_cons_eq_ok hbefore
    rw [List.cons_append, tracedOutcome_cons_ok hline, ih hothers, List.reverse_cons,
      List.append_assoc]
    rfl

/-- Either every line has a text, or there is a first one that has none. -/
theorem lines_cases (events : List TraceEvent) :
    (∃ lines, events.mapM TraceEvent.line = .ok lines) ∨
      ∃ before event rest lines e, events = before ++ event :: rest ∧
        before.mapM TraceEvent.line = .ok lines ∧ event.line = .error e := by
  induction events with
  | nil => exact Or.inl ⟨[], rfl⟩
  | cons event rest ih =>
    cases hline : event.line with
    | error e => exact Or.inr ⟨[], event, rest, [], e, rfl, rfl, hline⟩
    | ok line =>
      rcases ih with ⟨lines, hlines⟩ | ⟨before, stop, after, lines, e, rfl, hbefore, hstop⟩
      · refine Or.inl ⟨line :: lines, ?_⟩
        rw [List.mapM_cons, hline, hlines]
        rfl
      · refine Or.inr ⟨event :: before, stop, after, line :: lines, e, rfl, ?_, hstop⟩
        rw [List.mapM_cons, hline, hbefore]
        rfl

/-- If every line has a text, each of them has one. -/
theorem exists_line_of_mem {events : List TraceEvent} {lines : List Text}
    (h : events.mapM TraceEvent.line = .ok lines) {event : TraceEvent} (hevent : event ∈ events) :
    ∃ line, event.line = .ok line := by
  induction events generalizing lines with
  | nil => cases hevent
  | cons first rest ih =>
    obtain ⟨line, others, hline, hrest, rfl⟩ := Session.exists_of_mapM_cons_eq_ok h
    rcases List.mem_cons.mp hevent with rfl | hmem
    · exact ⟨line, hline⟩
    · exact ih hrest hmem

theorem tracedOutcome_map (f : α → β) (events : List TraceEvent) (log : List Text)
    (plain : Except Failure α × Store) :
    tracedOutcome events log (plain.1.map f, plain.2) =
      ((tracedOutcome events log plain).1.map f, (tracedOutcome events log plain).2) := by
  induction events generalizing log with
  | nil => rfl
  | cons event rest ih =>
    rw [tracedOutcome, tracedOutcome]
    cases event.line with
    | ok line => exact ih (line :: log)
    | error e => rfl

end Evaluation

/-- A line is the whole line, unless the depth that is left is not enough for it. -/
theorem TraceEvent.line_upToLimit (event : TraceEvent) :
    UpToLimit True event.line (Value.orTooLong event.wholeLine?) := by
  rw [wholeLine?, Value.orTooLong_map]
  exact (event.value.detailedWithin_upToLimit event.store event.depth).bind_same _

/-- Nothing can be shown on the last level of an evaluation. -/
theorem TraceEvent.line_of_depth_eq_zero {event : TraceEvent} (h : event.depth = 0) :
    event.line = .error .nestingTooDeep := by
  rw [line, h]
  rfl

/-- A line fails because the depth that is left is not enough for it, or because it has no text
at any depth. -/
theorem TraceEvent.line_eq_error {event : TraceEvent} {e : Failure} (h : event.line = .error e) :
    e = .nestingTooDeep ∨ e = .integerTooLong ∧ event.wholeLine? = none := by
  rcases event.line_upToLimit with hwhole | ⟨-, hdeep⟩
  · rw [h] at hwhole
    cases hline : event.wholeLine? with
    | none =>
      rw [hline] at hwhole
      exact Or.inr ⟨Except.error.inj hwhole, rfl⟩
    | some line =>
      rw [hline] at hwhole
      cases hwhole
  · exact Or.inl (Except.error.inj (h.symm.trans hdeep))

namespace Session

theorem perform_bind_ok {α β : Type} {session session' : Session} {x : Evaluation α} {a : α}
    (h : session.perform x = (.ok a, session')) (next : α → Evaluation β) :
    session.perform (x >>= next) = session'.perform (next a) := by
  rw [perform_eq_outcome] at h
  obtain ⟨hresult, rfl⟩ := Prod.mk.inj h
  rw [perform_eq_outcome, perform_eq_outcome, outcome_bind_ok (Prod.ext hresult rfl)]

theorem perform_bind_error {α β : Type} {session session' : Session} {x : Evaluation α}
    {e : Failure} (h : session.perform x = (.error e, session')) (next : α → Evaluation β) :
    session.perform (x >>= next) = (.error e, session') := by
  rw [perform_eq_outcome] at h
  obtain ⟨hresult, rfl⟩ := Prod.mk.inj h
  rw [perform_eq_outcome, outcome_bind_error (Prod.ext hresult rfl)]

/-- The values of a run of forms are those of the forms as arguments. -/
theorem evaluateForms_eq_perform (tracing : Bool) (forms : List Value) (session : Session) :
    ((evaluateForms tracing (fun _ v => .ok v) forms session).1.failure.elim
        (.ok (evaluateForms tracing (fun _ v => .ok v) forms session).1.results) .error,
      (evaluateForms tracing (fun _ v => .ok v) forms session).2) =
      session.perform (evaluateArguments (evaluateIn tracing) session.global forms) := by
  induction forms generalizing session with
  | nil => rfl
  | cons form rest ih =>
    cases hform : session.perform (evaluateIn tracing form session.global) with
    | mk result session' =>
      cases result with
      | error e =>
        rw [evaluateForms_cons_error (perform_evaluateForm_error hform), evaluateArguments,
          perform_bind_error hform]
        rfl
      | ok v =>
        have hglobal : session'.global = session.global := by
          rw [perform_eq_outcome] at hform
          exact (congrArg Session.global (Prod.mk.inj hform).2).symm
        have hrest := ih session'
        rw [hglobal] at hrest
        rw [evaluateForms_cons_ok (perform_evaluateForm_ok (fun _ v => .ok v) hform),
          evaluateArguments, perform_bind_ok hform, Run.andThen]
        cases hrun : evaluateForms tracing (fun _ v => .ok v) rest session' with
        | mk run session'' =>
          obtain ⟨results, failure⟩ := run
          rw [hrun] at hrest
          cases failure with
          | none =>
            rw [perform_bind_ok hrest.symm]
            rfl
          | some e =>
            rw [perform_bind_error hrest.symm]
            rfl

/-- What the evaluation of a text would show if it were traced. -/
def shown (source : Text) (session : Session) : List TraceEvent :=
  (parse source).toOption.elim [] fun forms =>
    argumentsShown (evaluateIn false) (evaluateShown evaluationDepth) session.global forms
      session.store

/-- The last of the values of a text, if it can be read. -/
theorem evaluateLast_of_parse_ok {source : Text} {forms : List Value}
    (hparse : parse source = .ok forms) (tracing : Bool) (session : Session) :
    session.evaluateLast tracing source =
      (((evaluateArguments (evaluateIn tracing) session.global forms).outcome session.store).1.map
          List.getLast?,
        { session with store :=
          ((evaluateArguments (evaluateIn tracing) session.global forms).outcome
            session.store).2 }) := by
  have hforms := evaluateForms_eq_perform tracing forms session
  rw [perform_eq_outcome] at hforms
  obtain ⟨hresult, hsession⟩ := Prod.mk.inj hforms
  rw [← hresult, ← hsession, evaluateLast, evaluateAll, hparse]
  cases hfailure : (evaluateForms tracing (fun _ v => .ok v) forms session).1.failure <;>
    simp [hfailure, Except.map]

/-- The traced evaluation of a text, from what the untraced one would show. -/
theorem evaluateLast_true_eq (session : Session) (source : Text) :
    session.evaluateLast true source =
      ((tracedOutcome (session.shown source) session.store.log
          ((session.evaluateLast false source).1, (session.evaluateLast false source).2.store)).1,
        { session with store := (tracedOutcome (session.shown source) session.store.log
          ((session.evaluateLast false source).1,
            (session.evaluateLast false source).2.store)).2 }) := by
  cases hparse : parse source with
  | error e =>
    have hshown : session.shown source = [] := by rw [shown, hparse]; rfl
    have hlast : ∀ tracing, session.evaluateLast tracing source = (.error e, session) := by
      intro tracing
      rw [evaluateLast, evaluateAll, hparse]
      rfl
    rw [hshown, hlast, hlast]
    rfl
  | ok forms =>
    have hshown : session.shown source = argumentsShown (evaluateIn false)
        (evaluateShown evaluationDepth) session.global forms session.store := by
      rw [shown, hparse]
      rfl
    have hfollows := follows_evaluateArguments (follows_evaluate evaluationDepth) session.global
      forms session.store session.store.log
    rw [evaluateLast_of_parse_ok hparse, evaluateLast_of_parse_ok hparse, hshown,
      tracedOutcome_map]
    exact congrArg (fun outcome : Except Failure (List Value) × Store =>
      (outcome.1.map List.getLast?, { session with store := outcome.2 })) hfollows

/-- The traced evaluation of a text, beside the untraced one.  If everything that the trace shows
can be shown within the depth that is left at its moment, the traced evaluation gives the same value
or the same error and leaves the same frames and identities; the lines are added to the trace.
Otherwise it fails at the first line that cannot be shown, because the depth that is left is not
enough or because an integer there has too many digits for any text, and leaves the store of that
moment. -/
theorem evaluateLast_traced (session : Session) (source : Text) :
    (∃ lines, (session.shown source).mapM TraceEvent.line = .ok lines ∧
      session.evaluateLast true source =
        ((session.evaluateLast false source).1,
          { session with
            store := (session.evaluateLast false source).2.store.withLog
              (lines.reverse ++ session.store.log) })) ∨
    ∃ before event rest lines e, session.shown source = before ++ event :: rest ∧
      before.mapM TraceEvent.line = .ok lines ∧ event.line = .error e ∧
      (e = .nestingTooDeep ∨ e = .integerTooLong ∧ event.wholeLine? = none) ∧
      session.evaluateLast true source =
        (.error e, { session with
          store := event.store.withLog (lines.reverse ++ session.store.log) }) := by
  rw [evaluateLast_true_eq]
  rcases lines_cases (session.shown source) with
    ⟨lines, hlines⟩ | ⟨before, event, rest, lines, e, hshown, hbefore, hevent⟩
  · refine Or.inl ⟨lines, hlines, ?_⟩
    rw [tracedOutcome_of_lines hlines]
  · refine Or.inr ⟨before, event, rest, lines, e, hshown, hbefore, hevent, ?_, ?_⟩
    · exact TraceEvent.line_eq_error hevent
    · rw [hshown, tracedOutcome_of_error hbefore hevent]

/-- An evaluation that goes down to the last level fails when it is traced, whatever it gives
without a trace. -/
theorem exists_evaluateLast_true_eq_error {session : Session} {source : Text} {event : TraceEvent}
    (hevent : event ∈ session.shown source) (hdepth : event.depth = 0) :
    ∃ e, (session.evaluateLast true source).1 = .error e ∧ e.IsLimit := by
  rw [evaluateLast_true_eq]
  rcases lines_cases (session.shown source) with
    ⟨lines, hlines⟩ | ⟨before, stop, rest, lines, e, hshown, hbefore, hstop⟩
  · obtain ⟨line, hline⟩ := exists_line_of_mem hlines hevent
    rw [TraceEvent.line_of_depth_eq_zero hdepth] at hline
    cases hline
  · refine ⟨e, ?_, (TraceEvent.line_eq_error hstop).imp id And.left⟩
    rw [hshown, tracedOutcome_of_error hbefore hstop]

example : ((evaluate false 1 (.integer 1) 0).outcome {}).1 = .ok (.integer 1) ∧
    ((evaluate true 1 (.integer 1) 0).outcome {}).1 = .error .nestingTooDeep :=
  ⟨rfl, rfl⟩

/-- The definition of an integer with more digits than a text may have. -/
def longDefinition : Text :=
  "(define s (lambda (x) (* x x))) (define n (s (s (s (s (s (s (s (s (s (s 99999)))))))))))"

-- The call makes the trace show the global frame, and so the long integer.
example :
    let session := (empty.evaluateLast false longDefinition).2
    (session.evaluateLast false "((lambda () 1))").1.toOption.isSome = true ∧
      (session.evaluateLast true "((lambda () 1))").1.toOption.isNone = true := by
  decide +kernel

end Session

end SmallLisp
