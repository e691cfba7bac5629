import SmallLisp.Proofs.Display
import SmallLisp.Proofs.Evaluation.Outcome
/-!
Invariants of evaluation.

An invariant says what holds of a store, of the frames in which expressions are evaluated, of the
values that are bound and returned, and of the failures.  It says so in a world, which may know more
than is in the store, such as what has been made so far; what it says of a frame or of a value has
to hold in every later world.  Main statement: an invariant that is kept by the few operations on
the store of which evaluation is made is kept by evaluation, whether it fails or not.
-/

namespace SmallLisp

/-- A store to which frames and identities may have been added. -/
structure Store.Precedes (before after : Store) : Prop where
  frames : before.frames.size ≤ after.frames.size
  identity : before.nextIdentity ≤ after.nextIdentity

instance : IsPreorder Store Store.Precedes where
  refl _ := ⟨Nat.le_refl _, Nat.le_refl _⟩
  trans _ _ _ h h' := ⟨Nat.le_trans h.frames h'.frames, Nat.le_trans h.identity h'.identity⟩

namespace Store

theorem precedes_define (s : Store) (f : FrameId) (name : Text) (v : Value) :
    s.Precedes (s.define f name v) :=
  ⟨by simp [define], Nat.le_refl _⟩

theorem precedes_push (s : Store) (frame : Frame) : s.Precedes (s.push frame) :=
  ⟨by simp [push], Nat.le_refl _⟩

theorem precedes_takeIdentity (s : Store) : s.Precedes s.takeIdentity :=
  ⟨Nat.le_refl _, Nat.le_succ _⟩

theorem precedes_record (s : Store) (line : Text) : s.Precedes (s.record line) :=
  ⟨Nat.le_refl _, Nat.le_refl _⟩

theorem precedes_pushGlobal (s : Store) : s.Precedes s.pushGlobal :=
  ⟨(s.precedes_push _).frames, Nat.le_add_right _ _⟩

end Store

/-- What is said in a world of its store, of the frames and values there, and of failures. -/
structure Invariant where
  World : Type
  /-- A world and one to which something may have been added. -/
  Before : World → World → Prop
  [preorder : IsPreorder World Before]
  store : World → Store → Prop
  frame : World → FrameId → Prop
  value : World → Value → Prop
  failure : Failure → Prop

attribute [instance] Invariant.preorder

/-- An invariant that knows no more than is in the store. -/
def Invariant.ofStore (store : Store → Prop) (frame : Store → FrameId → Prop)
    (value : Store → Value → Prop) (failure : Failure → Prop) : Invariant where
  World := Store
  Before := Store.Precedes
  store w s := w = s ∧ store s
  frame := frame
  value := value
  failure := failure

/-- In a world after `w` the store is `s`, and `P` holds. -/
def Invariant.Leads (I : Invariant) (w : I.World) (s : Store) (P : I.World → Prop) : Prop :=
  ∃ w', I.Before w w' ∧ I.store w' s ∧ P w'

/-- An invariant that the operations on the store keep. -/
structure Invariant.IsKept (I : Invariant) : Prop where
  frame_mono : ∀ {w w' : I.World} {f : FrameId}, I.Before w w' → I.frame w f → I.frame w' f
  value_mono : ∀ {w w' : I.World} {v : Value}, I.Before w w' → I.value w v → I.value w' v
  hereditary : ∀ w, Value.Hereditary (I.value w)
  /-- A list takes an identity from the supply. -/
  identified : ∀ {w : I.World} {s : Store} {v : Value}, I.store w s → I.value w v →
    I.Leads w s.takeIdentity fun w' => I.value w' (v.identified s.nextIdentity)
  fault : ∀ fault, I.failure (.fault fault)
  limit : ∀ e : Failure, e.IsLimit → I.failure e
  missing : ∀ {w : I.World} {identity : Nat} {p : Primitive} {count : Nat},
    I.value w (.primitive identity p) → p.accepts count = true → ¬ p.operation.Fits count →
      I.failure .missingArgument
  lookup : ∀ {w : I.World} {s : Store} {f : FrameId} {name : Text} {v : Value},
    I.store w s → I.frame w f → s.lookup? f name = some v → I.value w v
  /-- A closure has a frame and a body. -/
  opened : ∀ {w : I.World} {s : Store} {identity : Nat} {formals : List Text} {body : Value}
    {f : FrameId}, I.store w s → I.value w (.closure identity formals body f) →
      I.frame w f ∧ I.value w body
  /-- A closure is made in a frame, of symbols and a body. -/
  closed : ∀ {w : I.World} {s : Store} {formals : List Text} {body : Value} {f : FrameId},
    I.store w s → I.frame w f → (∀ name ∈ formals, I.value w (.symbol name)) → I.value w body →
      I.Leads w s.takeIdentity fun w' => I.value w' (.closure s.nextIdentity formals body f)
  record : ∀ {w : I.World} {s : Store} (line : Text), I.store w s →
    I.Leads w (s.record line) fun _ => True
  define : ∀ {w : I.World} {s : Store} {f : FrameId} {name : Text} {v : Value}, I.store w s →
    I.frame w f → I.value w (.symbol name) → I.value w v →
      I.Leads w (s.define f name v) fun _ => True
  /-- A call adds a frame. -/
  called : ∀ {w : I.World} {s : Store} {identity : Nat} {formals : List Text} {body : Value}
    {f : FrameId} {args : List Value}, I.store w s →
      I.value w (.closure identity formals body f) → (∀ v ∈ args, I.value w v) →
        I.Leads w (s.push (calleeFrame formals f args)) fun w' => I.frame w' s.nextFrame

namespace Evaluation

/-- A computation that keeps an invariant from a world on, and ends in a world with what satisfies
`P` there or with a failure that the invariant allows. -/
def Maintains {α : Type} (I : Invariant) (P : I.World → α → Prop) (x : Evaluation α)
    (w : I.World) (s : Store) : Prop :=
  I.store w s → I.Leads w (x.outcome s).2 fun w' => Ends (P w') I.failure (x.outcome s).1

variable {α β : Type} {I : Invariant} {P : I.World → α → Prop} {Q : I.World → β → Prop}
  {w : I.World} {s : Store}

theorem maintains_pure {a : α} (h : P w a) : Maintains I P (pure a) w s :=
  fun hs => ⟨w, refl_of I.Before w, hs, h⟩

theorem maintains_throw {e : Failure} (h : I.failure e) : Maintains I P (throw e) w s :=
  fun hs => ⟨w, refl_of I.Before w, hs, h⟩

theorem maintains_observe {look : Store → Except Failure α}
    (h : I.store w s → Ends (P w) I.failure (look s)) : Maintains I P (observe look) w s := by
  intro hs
  rw [outcome_observe]
  exact ⟨w, refl_of I.Before w, hs, h hs⟩

theorem maintains_modify {change : Store → Store} {P : I.World → PUnit → Prop}
    (h : I.store w s → I.Leads w (change s) fun w' => P w' PUnit.unit) :
    Maintains I P (modify change) w s :=
  h

/-- A computation after another one, from the world and the store that the other one leaves. -/
theorem maintains_bind {x : Evaluation α} {next : α → Evaluation β} (hx : Maintains I P x w s)
    (hnext : ∀ a w' s', I.Before w w' → P w' a → Maintains I Q (next a) w' s') :
    Maintains I Q (x >>= next) w s := by
  intro hs
  obtain ⟨w', hbefore, hstore, hends⟩ := hx hs
  rw [outcome_bind]
  cases hout : x.outcome s with
  | mk result s' =>
    rw [hout] at hstore hends
    cases result with
    | error e => exact ⟨w', hbefore, hstore, hends⟩
    | ok a =>
      obtain ⟨w'', hbefore', hrest⟩ := hnext a w' s' hbefore hends hstore
      exact ⟨w'', trans_of I.Before hbefore hbefore', hrest⟩

theorem maintains_discard {x : Evaluation α} (hx : Maintains I P x w s) :
    Maintains I (fun _ _ => True) (discard x) w s :=
  maintains_bind hx fun _ _ _ _ _ => maintains_pure trivial

end Evaluation

open Evaluation

namespace Invariant.IsKept

variable {I : Invariant} {w : I.World} {s : Store} {depth : Nat} {tracing : Bool}

theorem view_failsWithin (h : I.IsKept) (s : Store) (depth : Nat) (args : List Value) :
    (s.view depth).FailsWithin I.failure args where
  fault := h.fault
  display v _ := (Value.failsAtLimit_displayWithin s depth v).ends h.limit
  compare a _ b _ := (Value.failsAtLimit_compareWithin depth a b).ends h.limit

theorem failOn {α : Type} {P : I.World → α → Prop} (h : I.IsKept) (v : Value)
    (fault : Text → Fault) : Maintains I P (failOn (Store.view depth) v fault) w s :=
  maintains_observe fun _ =>
    Operation.ends_failShowing (P w) (h.view_failsWithin s depth [v]) List.mem_cons_self fault

theorem fail {α : Type} {P : I.World → α → Prop} (h : I.IsKept) (fault : Fault) :
    Maintains I P (Evaluation.fail fault) w s :=
  maintains_throw (h.fault fault)

theorem trace (h : I.IsKept) (tracing : Bool) (label : Text) (v : Value) :
    Maintains I (fun _ _ => True) (trace (Store.view depth) tracing label v) w s := by
  cases tracing with
  | false => exact maintains_pure trivial
  | true =>
    have htext : Maintains I (fun _ _ => True) (observe fun s => (s.view depth).detailed v) w s :=
      maintains_observe fun _ => (Value.failsAtLimit_detailedWithin s depth v).ends h.limit
    exact maintains_bind htext fun text w' s' _ _ => maintains_modify (h.record _)

theorem parameterNames (h : I.IsKept) {parameters : List Value}
    (hparameters : ∀ v ∈ parameters, I.value w v) :
    Maintains I (fun w' names => ∀ name ∈ names, I.value w' (.symbol name))
      (parameterNames (Store.view depth) parameters) w s := by
  induction parameters with
  | nil => exact maintains_pure (by simp)
  | cons parameter rest ih =>
    obtain ⟨hparameter, hrest⟩ := List.forall_mem_cons.mp hparameters
    cases parameter with
    | symbol name =>
      refine maintains_bind (ih hrest) fun names w' s' hbefore hnames => maintains_pure ?_
      exact List.forall_mem_cons.mpr ⟨h.value_mono hbefore hparameter, hnames⟩
    | _ => exact h.failOn _ _

theorem identify (h : I.IsKept) {v : Value} (hv : I.value w v) :
    Maintains I I.value (identify v) w s := by
  intro hs
  rw [outcome_identify]
  exact h.identified hs hv

theorem extendFrame (h : I.IsKept) {identity : Nat} {formals : List Text} {body : Value}
    {f : FrameId} {args : List Value} (hclosure : I.value w (.closure identity formals body f))
    (hargs : ∀ v ∈ args, I.value w v) :
    Maintains I I.frame (extendFrame identity formals body f args) w s := by
  intro hs
  rw [outcome_extendFrame]
  split
  · exact h.called hs hclosure hargs
  · exact ⟨w, refl_of I.Before w, hs, h.fault _⟩

section Rules

variable {eval : Value → FrameId → Evaluation Value} (h : I.IsKept)
  (heval : ∀ {w s e f}, I.value w e → I.frame w f → Maintains I I.value (eval e f) w s)

include h heval

theorem applyWith {function : Value} {args : List Value} (hfunction : I.value w function)
    (hargs : ∀ v ∈ args, I.value w v) :
    Maintains I I.value (applyWith (Store.view depth) eval tracing function args) w s := by
  cases function with
  | closure identity formals body frame =>
    intro hs
    have hbody := (h.opened hs hfunction).2
    refine maintains_bind (h.extendFrame hfunction hargs) ?_ hs
    intro f w' s' hbefore hf
    apply maintains_bind (h.trace tracing _ _)
    intro _ w'' s'' hbefore' _
    exact heval (h.value_mono (trans_of I.Before hbefore hbefore') hbody)
      (h.frame_mono hbefore' hf)
  | primitive identity p =>
    refine maintains_bind (P := I.value) (maintains_observe fun _ => ?_)
      fun v w' s' _ hv => h.identify hv
    refine p.ends_applyWith (h.hereditary w) hargs (h.view_failsWithin s depth args) ?_
    exact fun haccepts hmisfit => h.missing hfunction haccepts hmisfit
  | _ => exact h.failOn _ _

theorem evaluateArguments {f : FrameId} (hf : I.frame w f) {es : List Value}
    (hes : ∀ e ∈ es, I.value w e) :
    Maintains I (fun w' vs => ∀ v ∈ vs, I.value w' v) (evaluateArguments eval f es) w s := by
  induction es generalizing w s with
  | nil => exact maintains_pure (by simp)
  | cons e rest ih =>
    obtain ⟨he, hrest⟩ := List.forall_mem_cons.mp hes
    apply maintains_bind (heval he hf)
    intro v w' s' hbefore hv
    have hrest' : Maintains I (fun w' vs => ∀ v ∈ vs, I.value w' v)
        (SmallLisp.evaluateArguments eval f rest) w' s' :=
      ih (h.frame_mono hbefore hf) fun e he => h.value_mono hbefore (hrest e he)
    apply maintains_bind hrest'
    intro vs w'' s'' hbefore' hvs
    exact maintains_pure (List.forall_mem_cons.mpr ⟨h.value_mono hbefore' hv, hvs⟩)

theorem evaluateCall {head : Value} {parts : List Value} (hhead : I.value w head)
    (hparts : ∀ e ∈ parts, I.value w e) {f : FrameId} (hf : I.frame w f) :
    Maintains I I.value (evaluateCall (Store.view depth) eval tracing head parts f) w s := by
  apply maintains_bind (heval hhead hf)
  intro function w' s' hbefore hfunction
  split
  · have hparts' := fun e he => h.value_mono hbefore (hparts e he)
    apply maintains_bind (h.evaluateArguments heval (h.frame_mono hbefore hf) hparts')
    intro args w'' s'' hbefore' hargs
    exact h.applyWith heval (h.value_mono hbefore' hfunction) hargs
  · exact h.failOn _ _

theorem specialForm (form : SpecialForm) {parts : List Value} (hparts : ∀ e ∈ parts, I.value w e)
    {f : FrameId} (hf : I.frame w f) :
    Maintains I I.value (form.evaluateWith (Store.view depth) eval parts f) w s := by
  cases form.shape parts with
  | quote datum => exact maintains_pure (hparts datum List.mem_cons_self)
  | quoteParts hcount =>
    rw [SpecialForm.evaluateWith_quoteParts hcount]
    exact h.fail _
  | define name e rest =>
    apply maintains_bind (heval (hparts e (by simp)) hf)
    intro v w' s' hbefore hv
    have hdefine : Maintains I (fun w'' _ => I.value w'' v) (modify (·.define f name v)) w' s' := by
      refine maintains_modify fun hs' => ?_
      have hname := h.value_mono hbefore (hparts (.symbol name) List.mem_cons_self)
      obtain ⟨w'', hbefore', hs'', -⟩ := h.define hs' (h.frame_mono hbefore hf) hname hv
      exact ⟨w'', hbefore', hs'', h.value_mono hbefore' hv⟩
    exact maintains_bind hdefine fun _ w'' s'' _ hv => maintains_pure hv
  | defineTarget e rest htarget =>
    rw [SpecialForm.evaluateWith_defineTarget htarget]
    exact h.failOn _ _
  | defineIncomplete hcount =>
    rw [SpecialForm.evaluateWith_defineIncomplete hcount]
    exact h.fail _
  | lambda parameters identity body =>
    have hparameters :=
      (h.hereditary w).items (hparts (.list parameters identity) List.mem_cons_self)
    apply maintains_bind (h.parameterNames hparameters)
    intro formals w' s' hbefore hformals hs'
    have hbody := h.value_mono hbefore (hparts body (by simp))
    exact h.closed hs' (h.frame_mono hbefore hf) hformals hbody
  | lambdaParameters body hparameters =>
    rw [SpecialForm.evaluateWith_lambdaParameters hparameters]
    exact h.failOn _ _
  | lambdaParts hcount =>
    rw [SpecialForm.evaluateWith_lambdaParts hcount]
    exact h.fail _
  | conditional test consequent alternate =>
    apply maintains_bind (heval (hparts test (by simp)) hf)
    intro t w' s' hbefore _
    have hf' := h.frame_mono hbefore hf
    cases t.isTrue with
    | true => exact heval (h.value_mono hbefore (hparts consequent (by simp))) hf'
    | false => exact heval (h.value_mono hbefore (hparts alternate (by simp))) hf'
  | conditionalParts hcount =>
    rw [SpecialForm.evaluateWith_conditionalParts hcount]
    exact h.fail _

/-- One step keeps the invariant, if the evaluation of parts does. -/
theorem evaluateStep {e : Value} (he : I.value w e) {f : FrameId} (hf : I.frame w f) :
    Maintains I I.value (evaluateStep (Store.view depth) eval tracing e f) w s := by
  apply maintains_bind (h.trace tracing _ e)
  intro _ w' s' hbefore _
  have he' := h.value_mono hbefore he
  have hf' := h.frame_mono hbefore hf
  cases e with
  | list items identity =>
    cases items with
    | nil => exact h.fail _
    | cons head parts =>
      obtain ⟨hhead, hparts⟩ := List.forall_mem_cons.mp ((h.hereditary w').items he')
      simp only [evaluateList]
      cases specialHead? head with
      | some form => exact h.specialForm heval form hparts hf'
      | none => exact h.evaluateCall heval hhead hparts hf'
  | symbol name =>
    refine maintains_observe fun hs' => ?_
    rw [Store.lookup]
    cases hv : s'.lookup? f name with
    | none => exact h.fault _
    | some v => exact h.lookup hs' hf' hv
  | foreign text => exact h.fail _
  | _ => exact maintains_pure he'

end Rules

/-- Evaluation keeps what the operations on the store keep. -/
theorem evaluate (h : I.IsKept) (tracing : Bool) (depth : Nat) {e : Value} (he : I.value w e)
    {f : FrameId} (hf : I.frame w f) : Maintains I I.value (evaluate tracing depth e f) w s := by
  induction depth generalizing w s e f with
  | zero => exact maintains_throw (h.limit _ (Or.inl rfl))
  | succ depth ih => exact h.evaluateStep (fun he hf => ih he hf) he hf

/-- So does the call of a value. -/
theorem call (h : I.IsKept) (tracing : Bool) (depth : Nat) {function : Value} {args : List Value}
    (hfunction : I.value w function) (hargs : ∀ v ∈ args, I.value w v) :
    Maintains I I.value (SmallLisp.applyWith (Store.view depth) (SmallLisp.evaluate tracing depth)
      tracing function args) w s :=
  h.applyWith (fun he hf => h.evaluate tracing depth he hf) hfunction hargs

end Invariant.IsKept

end SmallLisp
