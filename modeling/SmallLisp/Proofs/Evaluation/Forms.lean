import Mathlib.Tactic.SplitIfs
import SmallLisp.Evaluation
/-!
Special forms: which heads introduce them, the shapes that they have, well-formed and malformed, and
what each malformed one evaluates to.
-/

namespace SmallLisp

namespace SpecialForm

/-- The symbol that introduces a special form. -/
def name : SpecialForm → Text
  | quote => "quote"
  | define => "define"
  | lambda => "lambda"
  | conditional => "if"

theorem specialHead?_name (form : SpecialForm) :
    specialHead? (.symbol form.name) = some form := by
  cases form <;> rfl

theorem specialHead?_eq_some_iff {head : Value} {form : SpecialForm} :
    specialHead? head = some form ↔ head = .symbol form.name := by
  constructor
  · intro h
    cases head with
    | symbol text =>
      simp only [specialHead?, ofName?] at h
      split_ifs at h with hquote hdefine hlambda hif <;> cases h
      · rw [hquote, name]
      · rw [hdefine, name]
      · rw [hlambda, name]
      · rw [hif, name]
    | _ => cases h
  · rintro rfl
    exact specialHead?_name form

theorem specialHead?_eq_none_iff {head : Value} :
    specialHead? head = none ↔ ∀ form : SpecialForm, head ≠ .symbol form.name := by
  simp only [Option.eq_none_iff_forall_ne_some, ne_eq, specialHead?_eq_some_iff]

/-- The shapes that the parts of a special form can have. -/
inductive Shape : SpecialForm → List Value → Prop
  | quote (datum : Value) : Shape .quote [datum]
  | quoteParts {parts : List Value} : parts.length ≠ 1 → Shape .quote parts
  | define (name : Text) (e : Value) (rest : List Value) :
      Shape .define (.symbol name :: e :: rest)
  | defineTarget {target : Value} (e : Value) (rest : List Value) :
      (∀ name, target ≠ .symbol name) → Shape .define (target :: e :: rest)
  | defineIncomplete {parts : List Value} : parts.length < 2 → Shape .define parts
  | lambda (parameters : List Value) (identity : Option Nat) (body : Value) :
      Shape .lambda [.list parameters identity, body]
  | lambdaParameters {parameters : Value} (body : Value) :
      (∀ items identity, parameters ≠ .list items identity) → Shape .lambda [parameters, body]
  | lambdaParts {parts : List Value} : parts.length ≠ 2 → Shape .lambda parts
  | conditional (test consequent alternate : Value) :
      Shape .conditional [test, consequent, alternate]
  | conditionalParts {parts : List Value} : parts.length ≠ 3 → Shape .conditional parts

/-- Every special form has one of the shapes. -/
theorem shape (form : SpecialForm) (parts : List Value) : form.Shape parts := by
  cases form with
  | quote =>
    match parts with
    | [datum] => exact .quote datum
    | [] | _ :: _ :: _ => exact .quoteParts (by simp)
  | define =>
    match parts with
    | target :: e :: rest =>
      cases target with
      | symbol name => exact .define name e rest
      | _ => exact .defineTarget e rest (by simp)
    | [] | [_] => exact .defineIncomplete (by simp)
  | lambda =>
    match parts with
    | [parameters, body] =>
      cases parameters with
      | list items identity => exact .lambda items identity body
      | _ => exact .lambdaParameters body (by simp)
    | [] | [_] | _ :: _ :: _ :: _ => exact .lambdaParts (by simp)
  | conditional =>
    match parts with
    | [test, consequent, alternate] => exact .conditional test consequent alternate
    | [] | [_] | [_, _] | _ :: _ :: _ :: _ :: _ => exact .conditionalParts (by simp)

open Evaluation

variable {view : Store → View} {eval : Value → FrameId → Evaluation Value} {parts : List Value}

theorem evaluateWith_quoteParts (h : parts.length ≠ 1) (f : FrameId) :
    quote.evaluateWith view eval parts f = fail (.quoteParts parts.length) := by
  rw [evaluateWith]
  rintro datum rfl
  exact h rfl

theorem evaluateWith_defineTarget {target e : Value} {rest : List Value}
    (h : ∀ name, target ≠ .symbol name) (f : FrameId) :
    define.evaluateWith view eval (target :: e :: rest) f = failOn view target .defineTarget := by
  rw [evaluateWith]
  exact h

theorem evaluateWith_defineIncomplete (h : parts.length < 2) (f : FrameId) :
    define.evaluateWith view eval parts f = fail .defineIncomplete := by
  rw [evaluateWith]
  · rintro name e rest rfl
    simp only [List.length_cons] at h
    omega
  · rintro target e rest rfl
    simp only [List.length_cons] at h
    omega

theorem evaluateWith_lambdaParameters {parameters body : Value}
    (h : ∀ items identity, parameters ≠ .list items identity) (f : FrameId) :
    lambda.evaluateWith view eval [parameters, body] f =
      failOn view parameters .lambdaParameters := by
  rw [evaluateWith]
  exact h

theorem evaluateWith_lambdaParts (h : parts.length ≠ 2) (f : FrameId) :
    lambda.evaluateWith view eval parts f = fail (.lambdaParts parts.length) := by
  rw [evaluateWith]
  · rintro parameters identity body rfl
    exact h rfl
  · rintro parameters body rfl
    exact h rfl

theorem evaluateWith_conditionalParts (h : parts.length ≠ 3) (f : FrameId) :
    conditional.evaluateWith view eval parts f = fail .ifParts := by
  rw [evaluateWith]
  rintro test consequent alternate rfl
  exact h rfl

end SpecialForm

/-- A list of parameters consists of symbols, or there is a first one that is no symbol. -/
theorem parameters_cases (parameters : List Value) :
    (∃ names : List Text, parameters = names.map .symbol) ∨
      ∃ (names : List Text) (v : Value) (rest : List Value),
        parameters = names.map .symbol ++ v :: rest ∧ ∀ name, v ≠ .symbol name := by
  induction parameters with
  | nil => exact Or.inl ⟨[], rfl⟩
  | cons parameter tail ih =>
    cases parameter with
    | symbol name =>
      rcases ih with ⟨names, rfl⟩ | ⟨names, v, rest, rfl, hv⟩
      · exact Or.inl ⟨name :: names, rfl⟩
      · exact Or.inr ⟨name :: names, v, rest, rfl, hv⟩
    | _ => exact Or.inr ⟨[], _, tail, rfl, by simp⟩

end SmallLisp
