import Mathlib.Order.Filter.AtTopBot.Basic
import SmallLisp.Proofs.Evaluation.BigStep
import SmallLisp.Proofs.Evaluation.Depth
/-!
The evaluator computes what the rules derive.

Main statement: an outcome that is not a failure at the limit is reached at some depth if and only
if it is derived; then it is reached at every larger depth; and where nothing is derived, every
depth ends in a failure at the limit.
-/

namespace SmallLisp

open Evaluation Filter

section Unfolding

variable {depth : Nat} {parts : List Value} {identity : Option Nat} {f : FrameId}

theorem evaluate_specialForm (form : SpecialForm) (depth : Nat) (parts : List Value)
    (identity : Option Nat) (f : FrameId) :
    evaluate false (depth + 1) (.list (.symbol form.name :: parts) identity) f =
      form.evaluateWith (Store.view depth) (evaluate false depth) parts f := by
  cases form <;> rfl

theorem outcome_specialForm (form : SpecialForm) {s s' : Store} {r : Except Failure Value}
    (h : (form.evaluateWith (Store.view depth) (evaluate false depth) parts f).outcome s =
      (r, s')) :
    (evaluate false (depth + 1) (.list (.symbol form.name :: parts) identity) f).outcome s =
      (r, s') := by
  rw [evaluate_specialForm]
  exact h

theorem evaluate_call {head : Value} (hhead : ∀ form : SpecialForm, head ≠ .symbol form.name) :
    evaluate false (depth + 1) (.list (head :: parts) identity) f =
      evaluateCall (Store.view depth) (evaluate false depth) false head parts f := by
  have hnone := SpecialForm.specialHead?_eq_none_iff.mpr hhead
  have hlist : evaluateList (Store.view depth) (evaluate false depth) false f (head :: parts) =
      evaluateCall (Store.view depth) (evaluate false depth) false head parts f := by
    rw [evaluateList, hnone]
  exact hlist

theorem failShowing_wholeView {α : Type} (s : Store) (v : Value) (fault : Text → Fault) :
    (failShowing s.wholeView v fault : Except Failure α) = .error (v.blame s fault) := by
  simp only [failShowing, Store.wholeView, Value.blame]
  cases v.text? s <;> rfl

end Unfolding

/-- Every outcome of a computation, but failures at the limit, is derived. -/
def Evaluation.Derives {α : Type} (R : Store → Except Failure α → Store → Prop)
    (x : Evaluation α) : Prop :=
  ∀ s r s', x.outcome s = (r, s') → r ≠ .error .nestingTooDeep → R s r s'

namespace Evaluation

variable {α β : Type}

/-- A sequence has ended in its second part or has failed in its first. -/
theorem outcome_bind_cases {x : Evaluation α} {next : α → Evaluation β} {s s' : Store}
    {r : Except Failure β} (h : outcome (x >>= next) s = (r, s')) :
    (∃ a s₁, outcome x s = (.ok a, s₁) ∧ outcome (next a) s₁ = (r, s')) ∨
      ∃ e, outcome x s = (.error e, s') ∧ r = .error e := by
  rw [outcome_bind] at h
  cases hx : outcome x s with
  | mk result s₁ =>
    rw [hx] at h
    cases result with
    | ok a => exact Or.inl ⟨a, s₁, rfl, h⟩
    | error e =>
      obtain ⟨rfl, rfl⟩ := Prod.mk.inj h
      exact Or.inr ⟨e, rfl, rfl⟩

/-- A message that is not cut short by the limit is the one without a limit. -/
theorem eq_blame_of_failOn {depth : Nat} {v : Value} {fault : Text → Fault} {s s' : Store}
    {r : Except Failure α} (h : outcome (failOn (Store.view depth) v fault) s = (r, s'))
    (hr : r ≠ .error .nestingTooDeep) : r = .error (v.blame s fault) ∧ s' = s := by
  rw [outcome_failOn] at h
  obtain ⟨rfl, rfl⟩ := Prod.mk.inj h
  have hdisplay := (s.view_upToLimit depth [v]).display v List.mem_cons_self
  have hshow := (Operation.failShowing_upToLimit (α := α) hdisplay fault).eq_of_ne hr
  exact ⟨hshow.trans (failShowing_wholeView s v fault), rfl⟩

end Evaluation

section Soundness

variable {depth : Nat} {eval : Value → FrameId → Evaluation Value}

theorem derives_applyWith (heval : ∀ e f, Derives (Evaluates e f) (eval e f)) (function : Value)
    (args : List Value) (hfunction : function.isFunction = true) :
    Derives (Applies function args) (applyWith (Store.view depth) eval false function args) := by
  intro s r s' h hr
  cases function with
  | closure identity formals body frame =>
    rw [applyWith, trace_false] at h
    by_cases hcount : args.length = formals.length
    · have hpush := outcome_extendFrame identity formals body frame args s
      rw [if_pos hcount] at hpush
      rw [outcome_bind_ok hpush] at h
      exact .closure hcount (heval body s.nextFrame _ _ _ h hr)
    · have hfail := outcome_extendFrame identity formals body frame args s
      rw [if_neg hcount] at hfail
      rw [outcome_bind_error hfail] at h
      obtain ⟨rfl, rfl⟩ := Prod.mk.inj h
      exact .closureCount s hcount
  | primitive identity p =>
    have hview := p.applyWith_upToLimit (s.view_upToLimit depth args)
    rw [applyWith] at h
    rcases outcome_bind_cases h with ⟨v, s₁, hv, hrest⟩ | ⟨e, hfail, rfl⟩
    · rw [outcome_observe] at hv
      obtain ⟨happly, rfl⟩ := Prod.mk.inj hv
      rw [outcome_identify] at hrest
      obtain ⟨rfl, rfl⟩ := Prod.mk.inj hrest
      refine .primitive (hview.eq_of_ne ?_ ▸ happly)
      simp [happly]
    · rw [outcome_observe] at hfail
      obtain ⟨happly, rfl⟩ := Prod.mk.inj hfail
      refine .primitiveFails (hview.eq_of_ne ?_ ▸ happly)
      rwa [happly]
  | _ => cases hfunction

theorem derives_evaluateArguments (heval : ∀ e f, Derives (Evaluates e f) (eval e f))
    (f : FrameId) (es : List Value) :
    Derives (EvaluatesAll es f) (evaluateArguments eval f es) := by
  induction es with
  | nil =>
    intro s r s' h _
    obtain ⟨rfl, rfl⟩ := Prod.mk.inj h
    exact .nil f s
  | cons e rest ih =>
    intro s r s' h hr
    rcases outcome_bind_cases h with ⟨v, s₁, hv, hrest⟩ | ⟨failure, hfail, rfl⟩
    · have hfirst := heval e f _ _ _ hv (by simp)
      rcases outcome_bind_cases hrest with ⟨vs, s₂, hvs, hpure⟩ | ⟨failure, hfail, rfl⟩
      · obtain ⟨rfl, rfl⟩ := Prod.mk.inj hpure
        exact .cons hfirst (ih _ _ _ hvs (by simp))
      · exact .restFails hfirst (ih _ _ _ hfail (by simpa using hr))
    · exact .firstFails rest (heval e f _ _ _ hfail (by simpa using hr))

theorem derives_evaluateCall (heval : ∀ e f, Derives (Evaluates e f) (eval e f)) {head : Value}
    (hhead : ∀ form : SpecialForm, head ≠ .symbol form.name) (parts : List Value)
    (identity : Option Nat) (f : FrameId) :
    Derives (Evaluates (.list (head :: parts) identity) f)
      (evaluateCall (Store.view depth) eval false head parts f) := by
  intro s r s' h hr
  rcases outcome_bind_cases h with ⟨function, s₁, hfunction, hrest⟩ | ⟨failure, hfail, rfl⟩
  · have hderived := heval head f _ _ _ hfunction (by simp)
    cases hcallable : function.isFunction with
    | false =>
      rw [hcallable] at hrest
      obtain ⟨rfl, rfl⟩ := eq_blame_of_failOn hrest hr
      exact .notAFunction parts identity hhead hderived hcallable
    | true =>
      rw [hcallable] at hrest
      rcases outcome_bind_cases hrest with ⟨args, s₂, hargs, happly⟩ | ⟨failure, hfail, rfl⟩
      · exact .call identity hhead hderived hcallable
          (derives_evaluateArguments heval f parts _ _ _ hargs (by simp))
          (derives_applyWith heval function args hcallable _ _ _ happly hr)
      · exact .argumentFails identity hhead hderived hcallable
          (derives_evaluateArguments heval f parts _ _ _ hfail (by simpa using hr))
  · exact .headFails parts identity hhead (heval head f _ _ _ hfail hr)

theorem derives_lambda (parameters : List Value) (identity identity' : Option Nat) (body : Value)
    (f : FrameId) :
    Derives (Evaluates (.list [.symbol "lambda", .list parameters identity', body] identity) f)
      (SpecialForm.lambda.evaluateWith (Store.view depth) eval
        [.list parameters identity', body] f) := by
  intro s r s' h hr
  rcases parameters_cases parameters with ⟨names, rfl⟩ | ⟨names, v, rest, rfl, hv⟩
  · have hnames := outcome_parameterNames_symbols (Store.view depth) names s
    rw [SpecialForm.evaluateWith, outcome_bind_ok hnames] at h
    obtain ⟨rfl, rfl⟩ := Prod.mk.inj h
    exact .lambda names body identity identity' f s
  · have hother := outcome_parameterNames_other (Store.view depth) names hv rest s
    rw [SpecialForm.evaluateWith] at h
    rcases outcome_bind_cases h with ⟨formals, s₁, hok, -⟩ | ⟨failure, hfail, rfl⟩
    · rw [hother] at hok
      exact absurd (Prod.mk.inj hok).1 (failShowing_ne_ok _ _ _ _)
    · rw [hother, ← outcome_failOn (α := List Text)] at hfail
      obtain ⟨heq, rfl⟩ := eq_blame_of_failOn hfail (by simpa using hr)
      obtain rfl := Except.error.inj heq
      exact .lambdaParameter names rest body identity identity' f s' hv

theorem derives_specialForm (heval : ∀ e f, Derives (Evaluates e f) (eval e f))
    (form : SpecialForm) (parts : List Value) (identity : Option Nat) (f : FrameId) :
    Derives (Evaluates (.list (.symbol form.name :: parts) identity) f)
      (form.evaluateWith (Store.view depth) eval parts f) := by
  intro s r s' h hr
  cases form.shape parts with
  | quote datum =>
    obtain ⟨rfl, rfl⟩ := Prod.mk.inj h
    exact .quote datum identity f s
  | quoteParts hparts =>
    rw [SpecialForm.evaluateWith_quoteParts hparts] at h
    obtain ⟨rfl, rfl⟩ := Prod.mk.inj h
    exact .quoteParts identity f s hparts
  | define name e rest =>
    rcases outcome_bind_cases h with ⟨v, s₁, hv, hrest⟩ | ⟨failure, hfail, rfl⟩
    · obtain ⟨rfl, rfl⟩ := Prod.mk.inj hrest
      exact .define rest identity (heval e f _ _ _ hv (by simp))
    · exact .defineFails rest identity (heval e f _ _ _ hfail hr)
  | defineTarget e rest htarget =>
    rw [SpecialForm.evaluateWith_defineTarget htarget] at h
    obtain ⟨rfl, rfl⟩ := eq_blame_of_failOn h hr
    exact .defineTarget e rest identity f s' htarget
  | defineIncomplete hparts =>
    rw [SpecialForm.evaluateWith_defineIncomplete hparts] at h
    obtain ⟨rfl, rfl⟩ := Prod.mk.inj h
    exact .defineIncomplete identity f s hparts
  | lambda parameters identity' body =>
    exact derives_lambda parameters identity identity' body f s r s' h hr
  | lambdaParameters body hparameters =>
    rw [SpecialForm.evaluateWith_lambdaParameters hparameters] at h
    obtain ⟨rfl, rfl⟩ := eq_blame_of_failOn h hr
    exact .lambdaParameters body identity f s' hparameters
  | lambdaParts hparts =>
    rw [SpecialForm.evaluateWith_lambdaParts hparts] at h
    obtain ⟨rfl, rfl⟩ := Prod.mk.inj h
    exact .lambdaParts identity f s hparts
  | conditional test consequent alternate =>
    rcases outcome_bind_cases h with ⟨t, s₁, ht, hrest⟩ | ⟨failure, hfail, rfl⟩
    · have htest := heval test f _ _ _ ht (by simp)
      cases htrue : t.isTrue with
      | true =>
        rw [htrue] at hrest
        obtain rfl := Value.isTrue_iff.mp htrue
        exact .ifTrue alternate identity htest (heval consequent f _ _ _ hrest hr)
      | false =>
        rw [htrue] at hrest
        refine .ifOther consequent identity htest ?_ (heval alternate f _ _ _ hrest hr)
        exact fun heq => by simp [Value.isTrue_iff.mpr heq] at htrue
    · exact .ifFails consequent alternate identity (heval test f _ _ _ hfail hr)
  | conditionalParts hparts =>
    rw [SpecialForm.evaluateWith_conditionalParts hparts] at h
    obtain ⟨rfl, rfl⟩ := Prod.mk.inj h
    exact .ifParts identity f s hparts

end Soundness

/-- What an evaluation ends in before its limit is derived. -/
theorem derives_evaluate (depth : Nat) (e : Value) (f : FrameId) :
    Derives (Evaluates e f) (evaluate false depth e f) := by
  induction depth generalizing e f with
  | zero =>
    intro s r s' h hr
    exact absurd (Prod.mk.inj h).1.symm hr
  | succ depth ih =>
    intro s r s' h hr
    cases e with
    | list items identity =>
      cases items with
      | nil =>
        obtain ⟨rfl, rfl⟩ := Prod.mk.inj h
        exact .emptyList identity f s
      | cons head parts =>
        cases hform : specialHead? head with
        | some form =>
          obtain rfl := SpecialForm.specialHead?_eq_some_iff.mp hform
          rw [evaluate_specialForm] at h
          exact derives_specialForm ih form parts identity f s r s' h hr
        | none =>
          have hhead := SpecialForm.specialHead?_eq_none_iff.mp hform
          rw [evaluate_call hhead] at h
          exact derives_evaluateCall ih hhead parts identity f s r s' h hr
    | symbol name =>
      have hlookup : (s.lookup f name, s) = (r, s') := (outcome_observe _ s).symm.trans h
      obtain ⟨rfl, rfl⟩ := Prod.mk.inj hlookup
      rw [Store.lookup]
      cases hv : s.lookup? f name with
      | none => exact .unbound hv
      | some v => exact .bound hv
    | integer n =>
      obtain ⟨rfl, rfl⟩ := Prod.mk.inj h
      exact .integer n f s
    | boolean b =>
      obtain ⟨rfl, rfl⟩ := Prod.mk.inj h
      exact .boolean b f s
    | primitive identity p =>
      obtain ⟨rfl, rfl⟩ := Prod.mk.inj h
      exact .primitive identity p f s
    | closure identity formals body frame =>
      obtain ⟨rfl, rfl⟩ := Prod.mk.inj h
      exact .closure identity formals body frame f s
    | foreign text =>
      obtain ⟨rfl, rfl⟩ := Prod.mk.inj h
      exact .foreign text f s

section Completeness

-- A derivation has finitely many premises, so one depth is enough for all of them.  The depth is
-- left open as a filter, which takes the maximum over the premises.

/-- What holds at the successor of every large depth holds at every large depth. -/
theorem eventually_of_succ {p : Nat → Prop} (h : ∀ᶠ depth in atTop, p (depth + 1)) :
    ∀ᶠ depth in atTop, p depth := by
  rw [← map_add_atTop_eq_nat 1, eventually_map]
  exact h

theorem eventually_isNestedWithin (args : List Value) :
    ∀ᶠ depth in atTop, ∀ v ∈ args, v.isNestedWithin depth = true := by
  obtain ⟨enough, h⟩ := Value.exists_all_isNestedWithin args
  filter_upwards [eventually_ge_atTop enough] with depth hdepth
  exact fun v hv => Value.isNestedWithin_mono hdepth (h v hv)

theorem eventually_failShowing (s : Store) (v : Value) (fault : Text → Fault) :
    ∀ᶠ depth in atTop, ∀ α : Type,
      (failShowing (s.view depth) v fault : Except Failure α) = .error (v.blame s fault) := by
  filter_upwards [eventually_isNestedWithin [v]] with depth hdepth α
  have hdisplay := (s.view_of_isNestedWithin hdepth).display v List.mem_cons_self
  rw [(Operation.failShowing_upToLimit hdisplay fault).eq_of_not id]
  exact failShowing_wholeView s v fault

theorem eventually_applyWith (s : Store) (p : Primitive) (args : List Value) :
    ∀ᶠ depth in atTop, p.applyWith (s.view depth) args = p.applyWith s.wholeView args := by
  filter_upwards [eventually_isNestedWithin args] with depth hdepth
  exact (p.applyWith_upToLimit (s.view_of_isNestedWithin hdepth)).eq_of_not id

mutual

/-- What is derived is reached at every depth that is large enough. -/
theorem Evaluates.eventually {e : Value} {f : FrameId} {s s' : Store} {r : Except Failure Value} :
    Evaluates e f s r s' → ∀ᶠ depth in atTop, (evaluate false depth e f).outcome s = (r, s')
  | .bound hv | .unbound hv => eventually_of_succ <| .of_forall fun depth => by
      refine (outcome_observe _ s).trans ?_
      rw [Store.lookup, hv]
      rfl
  | .integer .. | .boolean .. | .primitive .. | .closure .. | .foreign .. | .emptyList ..
  | .quote .. => eventually_of_succ <| .of_forall fun _ => rfl
  | .quoteParts identity f s hparts => eventually_of_succ <| .of_forall fun depth => by
      apply outcome_specialForm .quote
      rw [SpecialForm.evaluateWith_quoteParts hparts]
      rfl
  | .define rest identity he => eventually_of_succ <| by
      filter_upwards [he.eventually] with depth hdepth
      exact outcome_bind_ok hdepth
  | .defineFails rest identity he => eventually_of_succ <| by
      filter_upwards [he.eventually] with depth hdepth
      apply outcome_specialForm .define
      exact outcome_bind_error hdepth
  | .defineTarget e rest identity f s htarget => eventually_of_succ <| by
      filter_upwards [eventually_failShowing s _ .defineTarget] with depth hdepth
      apply outcome_specialForm .define
      rw [SpecialForm.evaluateWith_defineTarget htarget, outcome_failOn, hdepth]
  | .defineIncomplete identity f s hparts => eventually_of_succ <| .of_forall fun depth => by
      apply outcome_specialForm .define
      rw [SpecialForm.evaluateWith_defineIncomplete hparts]
      rfl
  | .lambda names body identity identity' f s => eventually_of_succ <| .of_forall fun depth => by
      exact outcome_bind_ok (outcome_parameterNames_symbols _ names s)
  | .lambdaParameter names rest body identity identity' f s hv => eventually_of_succ <| by
      filter_upwards [eventually_failShowing s _ .lambdaParameter] with depth hdepth
      have hother := outcome_parameterNames_other (Store.view depth) names hv rest s
      rw [hdepth] at hother
      apply outcome_specialForm .lambda
      exact outcome_bind_error hother
  | .lambdaParameters body identity f s hparameters => eventually_of_succ <| by
      filter_upwards [eventually_failShowing s _ .lambdaParameters] with depth hdepth
      apply outcome_specialForm .lambda
      rw [SpecialForm.evaluateWith_lambdaParameters hparameters, outcome_failOn, hdepth]
  | .lambdaParts identity f s hparts => eventually_of_succ <| .of_forall fun depth => by
      apply outcome_specialForm .lambda
      rw [SpecialForm.evaluateWith_lambdaParts hparts]
      rfl
  | .ifTrue alternate identity ht hc => eventually_of_succ <| by
      filter_upwards [ht.eventually, hc.eventually] with depth htest hconsequent
      exact (outcome_bind_ok htest).trans hconsequent
  | .ifOther consequent identity ht hne ha => eventually_of_succ <| by
      filter_upwards [ht.eventually, ha.eventually] with depth htest halternate
      have hfalse := Bool.eq_false_iff.mpr fun htrue => hne (Value.isTrue_iff.mp htrue)
      refine (outcome_bind_ok htest).trans ?_
      rw [hfalse]
      exact halternate
  | .ifFails consequent alternate identity ht => eventually_of_succ <| by
      filter_upwards [ht.eventually] with depth htest
      apply outcome_specialForm .conditional
      exact outcome_bind_error htest
  | .ifParts identity f s hparts => eventually_of_succ <| .of_forall fun depth => by
      apply outcome_specialForm .conditional
      rw [SpecialForm.evaluateWith_conditionalParts hparts]
      rfl
  | .headFails parts identity hhead he => eventually_of_succ <| by
      filter_upwards [he.eventually] with depth hdepth
      rw [evaluate_call hhead]
      exact outcome_bind_error hdepth
  | .notAFunction parts identity hhead he hv => eventually_of_succ <| by
      filter_upwards [he.eventually, eventually_failShowing _ _ .notAFunction]
        with depth hdepth hshow
      rw [evaluate_call hhead, evaluateCall, outcome_bind_ok hdepth, hv]
      refine (outcome_failOn _ _ _ _).trans ?_
      rw [hshow]
  | .argumentFails identity hhead he hfunction hargs => eventually_of_succ <| by
      filter_upwards [he.eventually, hargs.eventually] with depth hdepth harguments
      rw [evaluate_call hhead, evaluateCall, outcome_bind_ok hdepth, if_pos hfunction]
      exact outcome_bind_error harguments
  | .call identity hhead he hfunction hargs happly => eventually_of_succ <| by
      filter_upwards [he.eventually, hargs.eventually, happly.eventually]
        with depth hdepth harguments happlied
      rw [evaluate_call hhead, evaluateCall, outcome_bind_ok hdepth, if_pos hfunction,
        outcome_bind_ok harguments]
      exact happlied

theorem EvaluatesAll.eventually {es : List Value} {f : FrameId} {s s' : Store}
    {r : Except Failure (List Value)} : EvaluatesAll es f s r s' →
    ∀ᶠ depth in atTop, (evaluateArguments (evaluate false depth) f es).outcome s = (r, s')
  | .nil f s => .of_forall fun _ => rfl
  | .cons he hrest => by
      filter_upwards [he.eventually, hrest.eventually] with depth hdepth htail
      rw [evaluateArguments, outcome_bind_ok hdepth, outcome_bind_ok htail]
      rfl
  | .firstFails rest he => by
      filter_upwards [he.eventually] with depth hdepth
      exact outcome_bind_error hdepth
  | .restFails he hrest => by
      filter_upwards [he.eventually, hrest.eventually] with depth hdepth htail
      rw [evaluateArguments, outcome_bind_ok hdepth, outcome_bind_error htail]

theorem Applies.eventually {function : Value} {args : List Value} {s s' : Store}
    {r : Except Failure Value} : Applies function args s r s' → ∀ᶠ depth in atTop,
      (applyWith (Store.view depth) (evaluate false depth) false function args).outcome s = (r, s')
  | @Applies.closure identity formals body frame _ _ _ _ hcount hbody => by
      filter_upwards [hbody.eventually] with depth hdepth
      have hpush := outcome_extendFrame identity formals body frame args s
      rw [if_pos hcount] at hpush
      exact (outcome_bind_ok hpush).trans hdepth
  | @Applies.closureCount identity formals body frame _ s hcount => .of_forall fun depth => by
      have hfail := outcome_extendFrame identity formals body frame args s
      rw [if_neg hcount] at hfail
      exact outcome_bind_error hfail
  | .primitive happly => by
      filter_upwards [eventually_applyWith s _ args] with depth hdepth
      refine outcome_bind_ok ((outcome_observe _ s).trans ?_)
      rw [hdepth, happly]
  | .primitiveFails happly => by
      filter_upwards [eventually_applyWith _ _ args] with depth hdepth
      refine outcome_bind_error ((outcome_observe _ _).trans ?_)
      rw [hdepth, happly]

end

end Completeness

section Failures

theorem Value.blame_ne_nestingTooDeep (s : Store) (v : Value) (fault : Text → Fault) :
    v.blame s fault ≠ .nestingTooDeep := by
  rw [Value.blame]
  cases v.text? s <;> simp

theorem Store.wholeView_failsWithin (s : Store) (args : List Value) :
    s.wholeView.FailsWithin (· ≠ .nestingTooDeep) args where
  fault _ := by simp
  display v _ := by
    simp only [wholeView]
    cases v.text? s with
    | some text => trivial
    | none => exact fun h => by cases h
  compare _ _ _ _ := trivial

mutual

/-- No failure at the limit is derived. -/
theorem Evaluates.ne_nestingTooDeep {e : Value} {f : FrameId} {s s' : Store}
    {r : Except Failure Value} : Evaluates e f s r s' → r ≠ .error .nestingTooDeep
  | .bound .. | .unbound .. | .integer .. | .boolean .. | .primitive .. | .closure .. | .foreign ..
  | .emptyList .. | .quote .. | .quoteParts .. | .define .. | .defineIncomplete .. | .lambda ..
  | .lambdaParts .. | .ifParts .. => by simp
  | .defineTarget .. | .lambdaParameter .. | .lambdaParameters .. | .notAFunction .. => by
      simpa using Value.blame_ne_nestingTooDeep _ _ _
  | .ifTrue _ _ _ hc => hc.ne_nestingTooDeep
  | .ifOther _ _ _ _ ha => ha.ne_nestingTooDeep
  | .defineFails _ _ he | .ifFails _ _ _ he | .headFails _ _ _ he => he.ne_nestingTooDeep
  | .argumentFails _ _ _ _ hargs => by simpa using hargs.ne_nestingTooDeep
  | .call _ _ _ _ _ happly => happly.ne_nestingTooDeep

theorem EvaluatesAll.ne_nestingTooDeep {es : List Value} {f : FrameId} {s s' : Store}
    {r : Except Failure (List Value)} : EvaluatesAll es f s r s' → r ≠ .error .nestingTooDeep
  | .nil .. | .cons .. => by simp
  | .firstFails _ he => by simpa using he.ne_nestingTooDeep
  | .restFails _ hrest => hrest.ne_nestingTooDeep

theorem Applies.ne_nestingTooDeep {function : Value} {args : List Value} {s s' : Store}
    {r : Except Failure Value} : Applies function args s r s' → r ≠ .error .nestingTooDeep
  | .closure _ hbody => hbody.ne_nestingTooDeep
  | .closureCount .. | .primitive .. => by simp
  | @Applies.primitiveFails _ p _ _ s happly => by
      have hends := p.ends_applyWith Value.Hereditary.true (fun _ _ => trivial)
        (s.wholeView_failsWithin args) (by simp)
      simpa using hends.of_error happly

end

end Failures

/-- The evaluator computes what the rules derive: every outcome that is not a failure at the limit
is reached at some depth if and only if it is derived, then at every larger depth too, and where
nothing is derived every depth ends in a failure at the limit. -/
theorem evaluate_adequate (e : Value) (f : FrameId) (s : Store) :
    (∀ r s', Evaluates e f s r s' ↔
      r ≠ .error .nestingTooDeep ∧ ∃ depth, (evaluate false depth e f).outcome s = (r, s')) ∧
    (∀ depth depth' r s', depth ≤ depth' → (evaluate false depth e f).outcome s = (r, s') →
      r ≠ .error .nestingTooDeep → (evaluate false depth' e f).outcome s = (r, s')) ∧
    ((∀ r s', ¬ Evaluates e f s r s') →
      ∀ depth, ((evaluate false depth e f).outcome s).1 = .error .nestingTooDeep) := by
  refine ⟨fun r s' => ⟨fun h => ?_, ?_⟩, ?_, ?_⟩
  · exact ⟨h.ne_nestingTooDeep, h.eventually.exists⟩
  · rintro ⟨hr, depth, h⟩
    exact derives_evaluate depth e f s r s' h hr
  · intro depth depth' r s' hle h hr
    rcases upToDepth_evaluate hle e f s with heq | hdeep
    · rw [← heq, h]
    · rw [h] at hdeep
      exact absurd hdeep hr
  · intro hnone depth
    by_contra hr
    exact hnone _ _ (derives_evaluate depth e f s _ _ rfl hr)

end SmallLisp
