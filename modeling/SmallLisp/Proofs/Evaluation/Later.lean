import SmallLisp.Proofs.Evaluation.Adequacy
import SmallLisp.Proofs.Evaluation.WriteFootprint
import SmallLisp.Reading
/-!
What a call leaves of the store, and how an evaluation ends.

A call changes no frame from before and takes identities from the supply without giving any back.
A derivation settles how the evaluation ends at every depth that is large enough.
-/

namespace SmallLisp

open Evaluation Filter

/-- A store in which every frame of another one is as it was, and from which every identity that is
taken is new. -/
structure Store.Later (before after : Store) : Prop extends before.Preserves after where
  nextIdentity_le : before.nextIdentity ≤ after.nextIdentity

namespace Store

theorem Later.refl (s : Store) : s.Later s :=
  ⟨refl_of Preserves s, Nat.le_refl _⟩

theorem Later.trans {first second third : Store} (h : first.Later second)
    (h' : second.Later third) : first.Later third :=
  ⟨trans_of Preserves h.toPreserves h'.toPreserves,
    Nat.le_trans h.nextIdentity_le h'.nextIdentity_le⟩

theorem later_takeIdentity (s : Store) : s.Later s.takeIdentity :=
  ⟨s.preserves_takeIdentity, Nat.le_succ _⟩

theorem later_push (s : Store) (frame : Frame) : s.Later (s.push frame) :=
  ⟨preserves_of_push (refl_of (Writes s.nextFrame []) _), Nat.le_refl _⟩

end Store

mutual

/-- No identity is given back by an evaluation. -/
theorem Evaluates.nextIdentity_le {e : Value} {f : FrameId} {s s' : Store}
    {r : Except Failure Value} : Evaluates e f s r s' → s.nextIdentity ≤ s'.nextIdentity
  | .bound .. | .unbound .. | .integer .. | .boolean .. | .primitive .. | .closure .. | .foreign ..
  | .emptyList .. | .quote .. | .quoteParts .. | .defineTarget .. | .defineIncomplete ..
  | .lambdaParameter .. | .lambdaParameters .. | .lambdaParts .. | .ifParts .. => Nat.le_refl _
  | .lambda .. => Nat.le_succ _
  | .define _ _ he | .defineFails _ _ he | .ifFails _ _ _ he | .headFails _ _ _ he
  | .notAFunction _ _ _ he _ => he.nextIdentity_le
  | .ifTrue _ _ ht he | .ifOther _ _ ht _ he => Nat.le_trans ht.nextIdentity_le he.nextIdentity_le
  | .argumentFails _ _ he _ hargs => Nat.le_trans he.nextIdentity_le hargs.nextIdentity_le
  | .call _ _ he _ hargs happly =>
      Nat.le_trans he.nextIdentity_le
        (Nat.le_trans hargs.nextIdentity_le happly.nextIdentity_le)

theorem EvaluatesAll.nextIdentity_le {es : List Value} {f : FrameId} {s s' : Store}
    {r : Except Failure (List Value)} : EvaluatesAll es f s r s' →
    s.nextIdentity ≤ s'.nextIdentity
  | .nil .. => Nat.le_refl _
  | .firstFails _ he => he.nextIdentity_le
  | .cons he hrest | .restFails he hrest =>
      Nat.le_trans he.nextIdentity_le hrest.nextIdentity_le

theorem Applies.nextIdentity_le {function : Value} {args : List Value} {s s' : Store}
    {r : Except Failure Value} : Applies function args s r s' →
    s.nextIdentity ≤ s'.nextIdentity
  | .closure _ hbody => hbody.nextIdentity_le
  | .closureCount .. | .primitiveFails .. => Nat.le_refl _
  | .primitive .. => Nat.le_succ _

end

/-- A call changes no frame from before. -/
theorem Applies.later {function : Value} {args : List Value} {s s' : Store}
    {r : Except Failure Value} (h : Applies function args s r s') : s.Later s' := by
  obtain ⟨depth, hdepth⟩ := h.eventually.exists
  have hkeeps : Keeps Store.Preserves
      (applyWith (Store.view depth) (evaluate false depth) false function args) :=
    keeps_applyWith (keeps_evaluate false depth) function args
  have hpreserves := hkeeps s
  rw [hdepth] at hpreserves
  exact ⟨hpreserves, h.nextIdentity_le⟩

/-- A value that is called on arguments, with whatever outcome, is a function. -/
theorem Applies.isFunction {function : Value} {args : List Value} {s s' : Store}
    {r : Except Failure Value} (h : Applies function args s r s') :
    function.isFunction = true := by
  cases h <;> rfl

/-- An evaluation has one outcome at most. -/
theorem Evaluates.unique {e : Value} {f : FrameId} {s s₁ s₂ : Store}
    {r₁ r₂ : Except Failure Value} (h₁ : Evaluates e f s r₁ s₁) (h₂ : Evaluates e f s r₂ s₂) :
    r₁ = r₂ ∧ s₁ = s₂ := by
  obtain ⟨depth, hdepth₁, hdepth₂⟩ := (h₁.eventually.and h₂.eventually).exists
  exact Prod.mk.inj (hdepth₁.symm.trans hdepth₂)

/-- The call of a name on values. -/
def callOn (name : Text) (args : List Value) : Value :=
  .list (.symbol name :: args.map quoteDatum)

/-- An evaluation that comes to an end, with a result of a certain kind unless the depth was not
enough, and that leaves every frame from before as it was in any case. -/
structure EndsIn (e : Value) (f : FrameId) (s : Store) (P : Except Failure Value → Prop) :
    Prop where
  reached : ∃ depth, ((evaluate false depth e f).outcome s).1 ≠ .error .nestingTooDeep
  result : ∀ depth, ((evaluate false depth e f).outcome s).1 ≠ .error .nestingTooDeep →
    P ((evaluate false depth e f).outcome s).1
  preserves : ∀ depth, s.Preserves ((evaluate false depth e f).outcome s).2

section Calls

variable {name : Text} {args : List Value} {f : FrameId} {s : Store}

/-- The call of a name on values changes no frame from before, at any depth. -/
theorem keeps_evaluate_callOn (hname : specialHead? (.symbol name) = none) (args : List Value)
    (depth : Nat) (f : FrameId) :
    Keeps Store.Preserves (evaluate false depth (callOn name args) f) := by
  cases depth with
  | zero => exact keeps_throw _
  | succ depth =>
    have hquoted : Keeps Store.Preserves
        (evaluateArguments (evaluate false depth) f (args.map quoteDatum)) := by
      induction args with
      | nil => exact keeps_pure []
      | cons v rest ih =>
        refine keeps_bind ?_ fun v => keeps_bind ih fun vs => keeps_pure (v :: vs)
        cases depth with
        | zero => exact keeps_throw _
        | succ depth => exact keeps_pure v
    rw [callOn, evaluate_call (SpecialForm.specialHead?_eq_none_iff.mp hname)]
    refine keeps_bind ?_ fun function => ?_
    · cases depth with
      | zero => exact keeps_throw _
      | succ depth => exact keeps_observe _
    split
    · exact keeps_bind hquoted fun vs => keeps_applyWith (keeps_evaluate false depth) function vs
    · exact keeps_failOn _ _ _

theorem evaluatesAll_quoted (args : List Value) (f : FrameId) (s : Store) :
    EvaluatesAll (args.map quoteDatum) f s (.ok args) s := by
  induction args with
  | nil => exact .nil f s
  | cons v rest ih =>
    have hquote : Evaluates (quoteDatum v) f s (.ok v) s := .quote v none f s
    exact .cons hquote ih

/-- The call of a name on values ends as the application of the function that it is bound to. -/
theorem endsIn_callOn (hname : specialHead? (.symbol name) = none) {function : Value}
    (hlookup : s.lookup? f name = some function) {r : Except Failure Value} {s' : Store}
    (happlies : Applies function args s r s') {P : Except Failure Value → Prop} (hr : P r) :
    EndsIn (callOn name args) f s P := by
  have hcall : Evaluates (callOn name args) f s r s' :=
    .call none (SpecialForm.specialHead?_eq_none_iff.mp hname) (.bound hlookup)
      happlies.isFunction (evaluatesAll_quoted args f s) happlies
  refine ⟨?_, fun depth hdepth => ?_, fun depth => keeps_evaluate_callOn hname args depth f s⟩
  · obtain ⟨depth, hdepth⟩ := hcall.eventually.exists
    refine ⟨depth, ?_⟩
    rw [hdepth]
    exact hcall.ne_nestingTooDeep
  · have hderived := derives_evaluate depth _ f s _ _ rfl hdepth
    exact (hcall.unique hderived).1 ▸ hr

end Calls

end SmallLisp
