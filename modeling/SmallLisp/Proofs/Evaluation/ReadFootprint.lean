import SmallLisp.Proofs.Evaluation.Reachability
import SmallLisp.Proofs.Evaluation.WriteFootprint
/-!
What an evaluation reads.

Main statement: the outcome of an evaluation depends only on the frames that can be reached from the
expression and its frame, and the outcome of a call only on those that can be reached from the
function and its arguments.  So a call reads nothing of the frame that it is made from.
-/

namespace SmallLisp

/-- A computation that cannot tell apart stores which are alike on `A`: it has the same result in
both, one that satisfies `P`, and leaves them alike. -/
def Evaluation.ReadsWithin {α : Type} (A : FrameId → Prop) (P : α → Prop) (x : Evaluation α) :
    Prop :=
  ∀ (base base' : List Text) (s t : Store), s.Alike A base base' t →
    (x.outcome s).1 = (x.outcome t).1 ∧ (x.outcome s).2.Alike A base base' (x.outcome t).2 ∧
      Ends P (fun _ => True) (x.outcome s).1

/-- What two stores have in common after a computation, seen from some roots in the first of them:
the result, every frame that could be reached, every new frame, the supply of identities and what
the trace has grown by.  Frames that could not be reached are as they were. -/
structure Evaluation.SameFrom {α : Type} (roots : FrameId → Prop) (s t : Store)
    (x : Evaluation α) : Prop where
  result : (x.outcome s).1 = (x.outcome t).1
  size : (x.outcome s).2.frames.size = (x.outcome t).2.frames.size
  identity : (x.outcome s).2.nextIdentity = (x.outcome t).2.nextIdentity
  frames : ∀ g, s.Reaches roots g ∨ s.frames.size ≤ g →
    (x.outcome s).2.frames[g]? = (x.outcome t).2.frames[g]?
  untouched : ∀ g < s.frames.size, ¬ s.Reaches roots g →
    (x.outcome s).2.frames[g]? = s.frames[g]? ∧ (x.outcome t).2.frames[g]? = t.frames[g]?
  log : ∃ lines, (x.outcome s).2.log = lines ++ s.log ∧ (x.outcome t).2.log = lines ++ t.log

open Evaluation

namespace Evaluation

variable {α β : Type} {A : FrameId → Prop} {P : α → Prop} {Q : β → Prop}

theorem readsWithin_pure {a : α} (h : P a) : ReadsWithin A P (pure a) :=
  fun _ _ _ _ hst => ⟨rfl, hst, h⟩

theorem readsWithin_throw (P : α → Prop) (e : Failure) : ReadsWithin A P (throw e) :=
  fun _ _ _ _ hst => ⟨rfl, hst, trivial⟩

theorem readsWithin_observe {look : Store → Except Failure α}
    (h : ∀ (base base' : List Text) (s t : Store), s.Alike A base base' t →
      look s = look t ∧ Ends P (fun _ => True) (look s)) : ReadsWithin A P (observe look) := by
  intro base base' s t hst
  obtain ⟨hlook, hreturns⟩ := h base base' s t hst
  rw [outcome_observe, outcome_observe]
  exact ⟨hlook, hst, hreturns⟩

theorem readsWithin_failOn (P : α → Prop) (depth : Nat) {v : Value} (hv : v.Within A)
    (fault : Text → Fault) : ReadsWithin A P (failOn (Store.view depth) v fault) :=
  readsWithin_observe fun _ _ _ _ hst =>
    ⟨hst.failShowing depth hv fault,
      Operation.ends_failShowing P (View.failsWithin_true [v] _) List.mem_cons_self fault⟩

theorem readsWithin_modify {change : Store → Store}
    (h : ∀ (base base' : List Text) (s t : Store), s.Alike A base base' t →
      (change s).Alike A base base' (change t)) :
    ReadsWithin A (fun _ => True) (modify change) :=
  fun base base' s t hst => ⟨rfl, h base base' s t hst, trivial⟩

theorem readsWithin_bind {x : Evaluation α} {next : α → Evaluation β} (hx : ReadsWithin A P x)
    (hnext : ∀ a, P a → ReadsWithin A Q (next a)) : ReadsWithin A Q (x >>= next) := by
  intro base base' s t hst
  obtain ⟨hresult, hstores, hreturns⟩ := hx base base' s t hst
  rw [outcome_bind, outcome_bind]
  cases hs : x.outcome s with
  | mk result s' =>
    cases ht : x.outcome t with
    | mk result' t' =>
      rw [hs, ht] at hresult hstores
      rw [hs] at hreturns
      obtain rfl : result = result' := hresult
      cases result with
      | error e => exact ⟨rfl, hstores, trivial⟩
      | ok a => exact hnext a hreturns base base' s' t' hstores

theorem readsWithin_trace (depth : Nat) (tracing : Bool) (label : Text) {v : Value}
    (hv : v.Within A) :
    ReadsWithin A (fun _ => True) (trace (Store.view depth) tracing label v) := by
  cases tracing with
  | false => exact readsWithin_pure trivial
  | true =>
    have htext : ReadsWithin A (fun _ => True) (observe fun s => (s.view depth).detailed v) := by
      apply readsWithin_observe
      intro base base' s t hst
      refine ⟨hst.detailedWithin depth hv, ?_⟩
      cases (s.view depth).detailed v <;> trivial
    apply readsWithin_bind htext
    intro text _
    exact readsWithin_modify fun _ _ _ _ hst => hst.record _

theorem readsWithin_parameterNames (depth : Nat) {parameters : List Value}
    (h : ∀ v ∈ parameters, v.Within A) :
    ReadsWithin A (fun _ => True) (parameterNames (Store.view depth) parameters) := by
  induction parameters with
  | nil => exact readsWithin_pure trivial
  | cons parameter rest ih =>
    cases parameter with
    | symbol name =>
      refine readsWithin_bind (ih fun v hv => h v (List.mem_cons_of_mem _ hv)) ?_
      exact fun names _ => readsWithin_pure trivial
    | _ => exact readsWithin_failOn _ depth (h _ List.mem_cons_self) _

theorem readsWithin_identify {v : Value} (hv : v.Within A) :
    ReadsWithin A (Value.Within A) (identify v) := by
  intro base base' s t hst
  rw [outcome_identify, outcome_identify, hst.identity]
  exact ⟨rfl, hst.takeIdentity,
    Value.identified_of_list (fun _ h => Value.within_list.mpr (Value.within_list.mp h)) hv⟩

/-- A call of a closure makes its frame in the same place in stores that are alike. -/
theorem readsWithin_extendFrame {identity : Nat} {formals : List Text} {body : Value}
    {frame : FrameId} {args : List Value}
    (hfunction : (Value.closure identity formals body frame).Within A)
    (hargs : ∀ v ∈ args, v.Within A) :
    ReadsWithin A A (extendFrame identity formals body frame args) := by
  intro base base' s t hst
  rw [outcome_extendFrame, outcome_extendFrame, hst.functionName hfunction]
  split
  · obtain ⟨hnext, hmem⟩ := hst.nextFrame
    have hframe := (Value.within_closure.mp hfunction).1
    exact ⟨congrArg Except.ok hnext, hst.push (Frame.within_calleeFrame hframe hargs), hmem⟩
  · exact ⟨rfl, hst, trivial⟩

end Evaluation

section Rules

variable {A : FrameId → Prop} {eval : Value → FrameId → Evaluation Value} {depth : Nat}
  {tracing : Bool}

theorem readsWithin_applyWith
    (heval : ∀ e f, e.Within A → A f → ReadsWithin A (Value.Within A) (eval e f))
    {function : Value} {args : List Value} (hfunction : function.Within A)
    (hargs : ∀ v ∈ args, v.Within A) :
    ReadsWithin A (Value.Within A)
      (applyWith (Store.view depth) eval tracing function args) := by
  cases function with
  | closure identity formals body frame =>
    apply readsWithin_bind (readsWithin_extendFrame hfunction hargs)
    intro f hf
    apply readsWithin_bind (readsWithin_trace depth tracing _ hfunction)
    intro _ _
    exact heval body f (Value.within_closure.mp hfunction).2 hf
  | primitive identity p =>
    refine readsWithin_bind (readsWithin_observe ?_) fun v hv => readsWithin_identify hv
    intro base base' s t hst
    refine ⟨(p.applyWith_upToLimit (hst.view depth hargs)).eq_of_not id, ?_⟩
    exact p.ends_applyWith (Value.hereditary_within A) hargs (View.failsWithin_true _ _)
      fun _ _ => trivial
  | _ => exact readsWithin_failOn _ depth hfunction _

theorem readsWithin_evaluateArguments
    (heval : ∀ e f, e.Within A → A f → ReadsWithin A (Value.Within A) (eval e f))
    {f : FrameId} (hf : A f) {es : List Value} (hes : ∀ e ∈ es, e.Within A) :
    ReadsWithin A (fun vs => ∀ v ∈ vs, v.Within A) (evaluateArguments eval f es) := by
  induction es with
  | nil => exact readsWithin_pure (by simp)
  | cons e rest ih =>
    apply readsWithin_bind (heval e f (hes e List.mem_cons_self) hf)
    intro v hv
    apply readsWithin_bind (ih fun w hw => hes w (List.mem_cons_of_mem e hw))
    intro vs hvs
    exact readsWithin_pure (List.forall_mem_cons.mpr ⟨hv, hvs⟩)

theorem readsWithin_evaluateCall
    (heval : ∀ e f, e.Within A → A f → ReadsWithin A (Value.Within A) (eval e f))
    {head : Value} {parts : List Value} (hhead : head.Within A)
    (hparts : ∀ e ∈ parts, e.Within A) {f : FrameId} (hf : A f) :
    ReadsWithin A (Value.Within A)
      (evaluateCall (Store.view depth) eval tracing head parts f) := by
  apply readsWithin_bind (heval head f hhead hf)
  intro function hfunction
  split
  · apply readsWithin_bind (readsWithin_evaluateArguments heval hf hparts)
    intro args hargs
    exact readsWithin_applyWith heval hfunction hargs
  · exact readsWithin_failOn _ depth hfunction _

theorem readsWithin_specialForm
    (heval : ∀ e f, e.Within A → A f → ReadsWithin A (Value.Within A) (eval e f))
    (form : SpecialForm) {parts : List Value} (hparts : ∀ e ∈ parts, e.Within A) {f : FrameId}
    (hf : A f) :
    ReadsWithin A (Value.Within A) (form.evaluateWith (Store.view depth) eval parts f) := by
  cases form.shape parts with
  | quote datum => exact readsWithin_pure (hparts datum List.mem_cons_self)
  | quoteParts hcount =>
    rw [SpecialForm.evaluateWith_quoteParts hcount]
    exact readsWithin_throw _ _
  | define name e rest =>
    apply readsWithin_bind (heval e f (hparts e (by simp)) hf)
    intro v hv
    refine readsWithin_bind (readsWithin_modify ?_) fun _ _ => readsWithin_pure hv
    exact fun _ _ _ _ hst => hst.define f name hv
  | defineTarget e rest htarget =>
    rw [SpecialForm.evaluateWith_defineTarget htarget]
    exact readsWithin_failOn _ depth (hparts _ List.mem_cons_self) _
  | defineIncomplete hcount =>
    rw [SpecialForm.evaluateWith_defineIncomplete hcount]
    exact readsWithin_throw _ _
  | lambda parameters identity body =>
    have hparameters := Value.within_list.mp (hparts _ List.mem_cons_self)
    apply readsWithin_bind (readsWithin_parameterNames depth hparameters)
    intro formals _ base base' s t hst
    refine ⟨congrArg (fun n => Except.ok (Value.closure n formals body f)) hst.identity,
      hst.takeIdentity, Value.within_closure.mpr ⟨hf, hparts body (by simp)⟩⟩
  | lambdaParameters body hparameters =>
    rw [SpecialForm.evaluateWith_lambdaParameters hparameters]
    exact readsWithin_failOn _ depth (hparts _ List.mem_cons_self) _
  | lambdaParts hcount =>
    rw [SpecialForm.evaluateWith_lambdaParts hcount]
    exact readsWithin_throw _ _
  | conditional test consequent alternate =>
    apply readsWithin_bind (heval test f (hparts test (by simp)) hf)
    intro t _
    cases t.isTrue with
    | true => exact heval consequent f (hparts consequent (by simp)) hf
    | false => exact heval alternate f (hparts alternate (by simp)) hf
  | conditionalParts hcount =>
    rw [SpecialForm.evaluateWith_conditionalParts hcount]
    exact readsWithin_throw _ _

/-- One step reads no more than the set, if the evaluation of parts does not. -/
theorem readsWithin_evaluateStep
    (heval : ∀ e f, e.Within A → A f → ReadsWithin A (Value.Within A) (eval e f))
    {e : Value} (he : e.Within A) {f : FrameId} (hf : A f) :
    ReadsWithin A (Value.Within A) (evaluateStep (Store.view depth) eval tracing e f) := by
  apply readsWithin_bind (readsWithin_trace depth tracing _ he)
  intro _ _
  cases e with
  | list items identity =>
    cases items with
    | nil => exact readsWithin_throw _ _
    | cons head parts =>
      obtain ⟨hhead, hparts⟩ := List.forall_mem_cons.mp (Value.within_list.mp he)
      simp only [evaluateList]
      cases specialHead? head with
      | some form => exact readsWithin_specialForm heval form hparts hf
      | none => exact readsWithin_evaluateCall heval hhead hparts hf
  | symbol name =>
    exact readsWithin_observe fun _ _ _ _ hst => ⟨hst.lookup hf name, hst.ends_lookup hf name⟩
  | foreign text => exact readsWithin_throw _ _
  | _ => exact readsWithin_pure he

end Rules

theorem readsWithin_evaluate {A : FrameId → Prop} (tracing : Bool) (depth : Nat) {e : Value}
    (he : e.Within A) {f : FrameId} (hf : A f) :
    ReadsWithin A (Value.Within A) (evaluate tracing depth e f) := by
  induction depth generalizing e f with
  | zero => exact readsWithin_throw _ _
  | succ depth ih => exact readsWithin_evaluateStep (fun _ _ he hf => ih he hf) he hf

namespace Store

variable {s t : Store} {roots : FrameId → Prop}

/-- The frames that can be reached, together with those to come, are a closed set. -/
theorem alike_of_reaches (hsize : s.frames.size = t.frames.size)
    (hidentity : s.nextIdentity = t.nextIdentity)
    (hframes : ∀ g, s.Reaches roots g → s.frames[g]? = t.frames[g]?) :
    s.Alike (fun g => s.Reaches roots g ∨ s.frames.size ≤ g) s.log t.log t where
  size := hsize
  identity := hidentity
  frames g hg := by
    rcases hg with hreach | hle
    · exact hframes g hreach
    · rw [Array.getElem?_eq_none hle, Array.getElem?_eq_none (hsize ▸ hle)]
  within g hg frame hframe := by
    have hreach : s.Reaches roots g := by
      apply hg.resolve_right
      intro hle
      rw [Array.getElem?_eq_none hle] at hframe
      cases hframe
    refine ⟨fun p hp => Or.inl (hreach.parent ?_), fun entry hentry k hk => Or.inl ?_⟩
    · rw [parent?, hframe]
      exact hp
    · exact hreach.binding hframe hentry hk
  fresh g hg := Or.inr hg
  log := ⟨[], rfl, rfl⟩

end Store

/-- A computation that reads only what can be reached, and writes nothing else, is the same from
there. -/
theorem Evaluation.ReadsWithin.sameFrom {α : Type} {x : Evaluation α} {P : α → Prop}
    {s t : Store} {roots : FrameId → Prop} (hsize : s.frames.size = t.frames.size)
    (hidentity : s.nextIdentity = t.nextIdentity)
    (hframes : ∀ g, s.Reaches roots g → s.frames[g]? = t.frames[g]?)
    (hreads : ReadsWithin (fun g => s.Reaches roots g ∨ s.frames.size ≤ g) P x)
    (hwrites : ∀ (u : Store) (g : FrameId), g < u.frames.size → ¬ roots g →
      (x.outcome u).2.frames[g]? = u.frames[g]?) :
    SameFrom roots s t x := by
  have hst := Store.alike_of_reaches hsize hidentity hframes
  obtain ⟨hresult, hstores, -⟩ := hreads _ _ s t hst
  refine ⟨hresult, hstores.size, hstores.identity, hstores.frames, ?_, hstores.log⟩
  intro g hg hreach
  have hroot : ¬ roots g := fun h => hreach (.root h)
  exact ⟨hwrites s g hg hroot, hwrites t g (hsize ▸ hg) hroot⟩

/-- The read footprint of an evaluation.  Let two stores have as many frames as each other and the
same supply of identities.  If they agree on the frames that can be reached from an expression and
a frame, then the evaluation is the same in both; if they agree on those that can be reached from a
function and its arguments, then the call is.  Other frames may differ in bindings and parents. -/
theorem evaluate_readFootprint (tracing : Bool) (depth : Nat) {s t : Store}
    (hsize : s.frames.size = t.frames.size) (hidentity : s.nextIdentity = t.nextIdentity) :
    (∀ (e : Value) (f : FrameId),
      (∀ g, s.Reaches (fun g => g = f ∨ e.Mentions g) g → s.frames[g]? = t.frames[g]?) →
      SameFrom (fun g => g = f ∨ e.Mentions g) s t (evaluate tracing depth e f)) ∧
    ∀ (function : Value) (args : List Value),
      (∀ g, s.Reaches (fun g => ∃ v ∈ function :: args, v.Mentions g) g →
        s.frames[g]? = t.frames[g]?) →
      SameFrom (fun g => ∃ v ∈ function :: args, v.Mentions g) s t
        (applyWith (Store.view depth) (evaluate tracing depth) tracing function args) := by
  constructor
  · intro e f hframes
    apply ReadsWithin.sameFrom hsize hidentity hframes
    · apply readsWithin_evaluate tracing depth
      · exact fun g hg => Or.inl (.root (Or.inr hg))
      · exact Or.inl (.root (Or.inl rfl))
    · intro u g hg hroot
      exact (keeps_evaluate tracing depth e f u).others g hg fun h => hroot (Or.inl h)
  · intro function args hframes
    apply ReadsWithin.sameFrom hsize hidentity hframes
    · apply readsWithin_applyWith
      · exact fun _ _ he hf => readsWithin_evaluate tracing depth he hf
      · exact fun g hg => Or.inl (.root ⟨function, List.mem_cons_self, hg⟩)
      · exact fun v hv g hg => Or.inl (.root ⟨v, List.mem_cons_of_mem function hv, hg⟩)
    · intro u g hg _
      exact (keeps_applyWith (keeps_evaluate tracing depth) function args u).frames g hg

/-- A global frame that binds `x` to one, and the frame of a caller that binds `x` to `n`. -/
def storeWithCaller (n : Int) : Store where
  frames := #[{ bindings := [("x", .integer 1)] },
    { bindings := [("x", .integer n)], parent := some 0 }]
  nextIdentity := 6

/-- A function that was made in the global frame and returns `x`. -/
def globalReader : Value :=
  .closure 5 [] (.symbol "x") 0

theorem eq_zero_of_reaches_globalReader {n : Int} {g : FrameId}
    (h : (storeWithCaller n).Reaches (fun g => ∃ v ∈ [globalReader], v.Mentions g) g) : g = 0 := by
  induction h with
  | root hroot =>
    obtain ⟨v, hv, hmentions⟩ := hroot
    obtain rfl := List.mem_singleton.mp hv
    cases hmentions with
    | frame => rfl
    | body hbody => cases hbody
  | parent _ hparent ih =>
    subst ih
    cases hparent
  | binding _ hframe hentry hmentions ih =>
    subst ih
    obtain rfl := Option.some.inj hframe
    obtain ⟨-, rfl⟩ := Prod.mk.inj (List.mem_singleton.mp hentry)
    cases hmentions

/-- A call from frames that bind `x` differently is the same if the function was made elsewhere. -/
theorem evaluate_readFootprint_globalReader :
    (storeWithCaller 2).frames.size = (storeWithCaller 3).frames.size ∧
    (storeWithCaller 2).nextIdentity = (storeWithCaller 3).nextIdentity ∧
    (∀ g, (storeWithCaller 2).Reaches (fun g => ∃ v ∈ [globalReader], v.Mentions g) g →
      (storeWithCaller 2).frames[g]? = (storeWithCaller 3).frames[g]?) ∧
    SameFrom (fun g => ∃ v ∈ [globalReader], v.Mentions g) (storeWithCaller 2)
      (storeWithCaller 3)
      (applyWith (Store.view 2) (evaluate false 2) false globalReader []) := by
  have hsize : (storeWithCaller 2).frames.size = (storeWithCaller 3).frames.size := rfl
  have hidentity : (storeWithCaller 2).nextIdentity = (storeWithCaller 3).nextIdentity := rfl
  have hframes : ∀ g, (storeWithCaller 2).Reaches
      (fun g => ∃ v ∈ [globalReader], v.Mentions g) g →
      (storeWithCaller 2).frames[g]? = (storeWithCaller 3).frames[g]? := by
    intro g hg
    rw [eq_zero_of_reaches_globalReader hg]
    rfl
  exact ⟨hsize, hidentity, hframes,
    (evaluate_readFootprint false 2 hsize hidentity).2 globalReader [] hframes⟩

end SmallLisp
