import SmallLisp.Proofs.Evaluation.Outcome
import SmallLisp.Proofs.Primitive
/-!
Evaluations at different depths.

Main statement: a larger depth changes nothing but evaluations that stop at the limit.
-/

namespace SmallLisp

/-- Two computations that agree, except that the first may stop at a nesting limit. -/
def Evaluation.UpToDepth {α : Type} (x y : Evaluation α) : Prop :=
  ∀ s, x.outcome s = y.outcome s ∨ (x.outcome s).1 = .error .nestingTooDeep

open Evaluation

namespace Evaluation

variable {α β : Type}

theorem UpToDepth.refl (x : Evaluation α) : UpToDepth x x :=
  fun _ => Or.inl rfl

theorem UpToDepth.bind {x y : Evaluation α} {next next' : α → Evaluation β} (h : UpToDepth x y)
    (hnext : ∀ a, UpToDepth (next a) (next' a)) : UpToDepth (x >>= next) (y >>= next') := by
  intro s
  rw [outcome_bind, outcome_bind]
  rcases h s with heq | hdeep
  · rw [← heq]
    cases hx : x.outcome s with
    | mk result s' =>
      cases result with
      | error e => exact Or.inl rfl
      | ok a => exact hnext a s'
  · cases hx : x.outcome s with
    | mk result s' =>
      rw [hx] at hdeep
      obtain rfl : result = .error .nestingTooDeep := hdeep
      exact Or.inr rfl

theorem upToDepth_observe {look look' : Store → Except Failure α}
    (h : ∀ s, UpToLimit True (look s) (look' s)) : UpToDepth (observe look) (observe look') := by
  intro s
  rw [outcome_observe, outcome_observe]
  exact (h s).imp (congrArg (·, s)) And.right

theorem upToDepth_failOn {depth depth' : Nat} (hle : depth ≤ depth') (v : Value)
    (fault : Text → Fault) :
    UpToDepth (failOn (Store.view depth) v fault : Evaluation α)
      (failOn (Store.view depth') v fault) :=
  upToDepth_observe fun s =>
    Operation.failShowing_upToLimit (Value.displayWithin_mono s hle v) fault

theorem upToDepth_parameterNames {depth depth' : Nat} (hle : depth ≤ depth')
    (parameters : List Value) :
    UpToDepth (parameterNames (Store.view depth) parameters)
      (parameterNames (Store.view depth') parameters) := by
  induction parameters with
  | nil => exact UpToDepth.refl _
  | cons parameter rest ih =>
    cases parameter with
    | symbol name => exact ih.bind fun names => UpToDepth.refl _
    | _ => exact upToDepth_failOn hle _ _

theorem upToDepth_trace {depth depth' : Nat} (hle : depth ≤ depth') (tracing : Bool) (label : Text)
    (v : Value) :
    UpToDepth (trace (Store.view depth) tracing label v)
      (trace (Store.view depth') tracing label v) := by
  cases tracing with
  | false => exact UpToDepth.refl _
  | true =>
    refine (upToDepth_observe fun s => ?_).bind fun text => UpToDepth.refl _
    exact Value.detailedWithin_mono s hle v

end Evaluation

section Rules

variable {depth depth' : Nat} {eval eval' : Value → FrameId → Evaluation Value} {tracing : Bool}

theorem upToDepth_applyWith (hle : depth ≤ depth')
    (heval : ∀ e f, UpToDepth (eval e f) (eval' e f)) (function : Value) (args : List Value) :
    UpToDepth (applyWith (Store.view depth) eval tracing function args)
      (applyWith (Store.view depth') eval' tracing function args) := by
  cases function with
  | closure identity formals body frame =>
    apply (UpToDepth.refl _).bind
    intro f
    apply (upToDepth_trace hle tracing _ _).bind
    intro _
    exact heval body f
  | primitive identity p =>
    refine (upToDepth_observe fun s => ?_).bind fun v => UpToDepth.refl _
    exact p.applyWith_upToLimit (s.view_mono hle args)
  | _ => exact upToDepth_failOn hle _ _

theorem upToDepth_evaluateArguments (heval : ∀ e f, UpToDepth (eval e f) (eval' e f))
    (f : FrameId) (es : List Value) :
    UpToDepth (evaluateArguments eval f es) (evaluateArguments eval' f es) := by
  induction es with
  | nil => exact UpToDepth.refl _
  | cons e rest ih =>
    exact (heval e f).bind fun v => ih.bind fun vs => UpToDepth.refl _

theorem upToDepth_evaluateCall (hle : depth ≤ depth')
    (heval : ∀ e f, UpToDepth (eval e f) (eval' e f)) (head : Value) (parts : List Value)
    (f : FrameId) :
    UpToDepth (evaluateCall (Store.view depth) eval tracing head parts f)
      (evaluateCall (Store.view depth') eval' tracing head parts f) := by
  apply (heval head f).bind
  intro function
  split
  · apply (upToDepth_evaluateArguments heval f parts).bind
    intro args
    exact upToDepth_applyWith hle heval function args
  · exact upToDepth_failOn hle _ _

theorem upToDepth_specialForm (hle : depth ≤ depth')
    (heval : ∀ e f, UpToDepth (eval e f) (eval' e f)) (form : SpecialForm) (parts : List Value)
    (f : FrameId) :
    UpToDepth (form.evaluateWith (Store.view depth) eval parts f)
      (form.evaluateWith (Store.view depth') eval' parts f) := by
  cases form.shape parts with
  | quote datum => exact UpToDepth.refl _
  | quoteParts hparts =>
    rw [SpecialForm.evaluateWith_quoteParts hparts, SpecialForm.evaluateWith_quoteParts hparts]
    exact UpToDepth.refl _
  | define name e rest => exact (heval e f).bind fun v => UpToDepth.refl _
  | defineTarget e rest htarget =>
    rw [SpecialForm.evaluateWith_defineTarget htarget,
      SpecialForm.evaluateWith_defineTarget htarget]
    exact upToDepth_failOn hle _ _
  | defineIncomplete hparts =>
    rw [SpecialForm.evaluateWith_defineIncomplete hparts,
      SpecialForm.evaluateWith_defineIncomplete hparts]
    exact UpToDepth.refl _
  | lambda parameters identity body =>
    exact (upToDepth_parameterNames hle parameters).bind fun formals => UpToDepth.refl _
  | lambdaParameters body hparameters =>
    rw [SpecialForm.evaluateWith_lambdaParameters hparameters,
      SpecialForm.evaluateWith_lambdaParameters hparameters]
    exact upToDepth_failOn hle _ _
  | lambdaParts hparts =>
    rw [SpecialForm.evaluateWith_lambdaParts hparts, SpecialForm.evaluateWith_lambdaParts hparts]
    exact UpToDepth.refl _
  | conditional test consequent alternate =>
    exact (heval test f).bind fun t => heval _ f
  | conditionalParts hparts =>
    rw [SpecialForm.evaluateWith_conditionalParts hparts,
      SpecialForm.evaluateWith_conditionalParts hparts]
    exact UpToDepth.refl _

theorem upToDepth_evaluateStep (hle : depth ≤ depth')
    (heval : ∀ e f, UpToDepth (eval e f) (eval' e f)) (e : Value) (f : FrameId) :
    UpToDepth (evaluateStep (Store.view depth) eval tracing e f)
      (evaluateStep (Store.view depth') eval' tracing e f) := by
  apply (upToDepth_trace hle tracing _ e).bind
  intro _
  cases e with
  | list items identity =>
    cases items with
    | nil => exact UpToDepth.refl _
    | cons head parts =>
      simp only [evaluateList]
      cases specialHead? head with
      | some form => exact upToDepth_specialForm hle heval form parts f
      | none => exact upToDepth_evaluateCall hle heval head parts f
  | _ => exact UpToDepth.refl _

end Rules

/-- An evaluation that does not stop at its limit is the same at every larger depth. -/
theorem upToDepth_evaluate {tracing : Bool} {depth depth' : Nat} (hle : depth ≤ depth')
    (e : Value) (f : FrameId) :
    UpToDepth (evaluate tracing depth e f) (evaluate tracing depth' e f) := by
  induction depth generalizing depth' e f with
  | zero => exact fun _ => Or.inr rfl
  | succ depth ih =>
    obtain ⟨depth', rfl⟩ : ∃ m, depth' = m + 1 := ⟨depth' - 1, by omega⟩
    have hle' := Nat.le_of_succ_le_succ hle
    exact upToDepth_evaluateStep hle' (fun e f => ih hle' e f) e f

end SmallLisp
