import SmallLisp.Proofs.Evaluation.Later
import SmallLisp.Proofs.Prelude.Original
/-!
Names in the body of a prelude function.

A call pushes a frame on the global frame, so a name is a parameter or a global binding.  While the
body is evaluated, frames and identities come in but the bindings stay: a scope holds in every later
store.  The calls of which the prelude's bodies are made are derived here once for all scopes.
-/

namespace SmallLisp

open Prelude

section Global

variable {s s' : Store} {g : FrameId}

theorem Store.IsGlobal.lt_size (h : s.IsGlobal g) : g < s.frames.size := by
  obtain ⟨frame, hframe, -⟩ := h
  exact (Array.getElem?_eq_some_iff.mp hframe).1

theorem Store.IsGlobal.later (h : s.IsGlobal g) (hlater : s.Later s') : s'.IsGlobal g := by
  have hlt := h.lt_size
  obtain ⟨frame, hframe, hparent⟩ := h
  exact ⟨frame, (hlater.frames g hlt).trans hframe, hparent⟩

theorem Store.Later.getIn?_eq (h : s.Later s') (hg : g < s.frames.size) (name : Text) :
    s'.getIn? name g = s.getIn? name g := by
  rw [getIn?, getIn?, h.frames g hg]

theorem Store.Original.later {name : Text} (h : s.Original g name) (hg : g < s.frames.size)
    (hlater : s.Later s') : s'.Original g name := by
  have hsame := hlater.getIn?_eq hg name
  cases h with
  | primitive hp hname hbound => exact .primitive hp hname (hsame.trans hbound)
  | prelude hforms hmem hname hbound => exact .prelude hforms hmem hname (hsame.trans hbound)

theorem Store.IsGlobal.lookup? (h : s.IsGlobal g) (name : Text) :
    s.lookup? g name = s.getIn? name g := by
  obtain ⟨frame, hframe, hparent⟩ := h
  have hchain : s.chain g = [g] := by
    simp [chain, chainWithin, parent?, hframe, hparent]
  rw [Store.lookup?, hchain]
  simp

end Global

/-- Frame `c` of a call in the global frame `g`.  The names are bound globally as in a new session
and are no parameters. -/
structure Scope (s : Store) (c g : FrameId) (callee : Frame) (names : List Text) : Prop where
  frame : s.frames[c]? = some callee
  parent : callee.parent = some g
  isGlobal : s.IsGlobal g
  lt : g < c
  original : ∀ name ∈ names, s.Original g name
  free : ∀ name ∈ names, callee.get? name = none

/-- A call of a prelude function and its outcome, whatever the identity of the function. -/
def Prelude.Function.Runs (function : Function) (g : FrameId) (args : List Value) (s : Store)
    (r : Except Failure Value) (s' : Store) : Prop :=
  ∀ identity, Applies (function.closure identity g) args s r s'

theorem Prelude.Function.Runs.later {function : Function} {g : FrameId} {args : List Value}
    {s s' : Store} {r : Except Failure Value} (h : function.Runs g args s r s') : s.Later s' :=
  (h 0).later

section Entry

/-- In every later store, a call of a prelude function evaluates its body in a scope. -/
theorem exists_scope (function : Function) (args : List Value)
    (hcount : args.length = function.formals.length) {s s₁ : Store} {g : FrameId}
    {names : List Text} (hglobal : s.IsGlobal g) (horiginal : ∀ name ∈ names, s.Original g name)
    (hfree : ∀ name ∈ names, name ∉ function.formals) (hlater : s.Later s₁) : ∃ s₂ c,
      Scope s₂ c g (calleeFrame function.formals g args) names ∧ s₁.Later s₂ ∧
        ∀ r s', Evaluates function.body c s₂ r s' → function.Runs g args s₁ r s' := by
  have hnew := s₁.later_push (calleeFrame function.formals g args)
  have hpush := hlater.trans hnew
  refine ⟨_, s₁.nextFrame, ?_, hnew, fun r s' hbody identity => .closure hcount hbody⟩
  refine ⟨by simp [Store.push, Store.nextFrame], Frame.parent_defineAll _ _, hglobal.later hpush,
    (hglobal.later hlater).lt_size, fun name hname => ?_, fun name hname => ?_⟩
  · exact (horiginal name hname).later hglobal.lt_size hpush
  · have hkeys : name ∉ Table.keys (function.formals.zip args) := by
      intro hmem
      obtain ⟨entry, hentry, rfl⟩ := List.mem_map.mp hmem
      exact hfree _ hname (List.of_mem_zip hentry).1
    exact Frame.get?_defineAll_of_not_mem hkeys _

end Entry

namespace Scope

variable {s s' s'' : Store} {c g : FrameId} {callee : Frame} {names : List Text}

theorem later (h : Scope s c g callee names) (hlater : s.Later s') :
    Scope s' c g callee names where
  frame := (hlater.frames c (Array.getElem?_eq_some_iff.mp h.frame).1).trans h.frame
  parent := h.parent
  isGlobal := h.isGlobal.later hlater
  lt := h.lt
  original name hname := (h.original name hname).later h.isGlobal.lt_size hlater
  free := h.free

theorem lookup? (h : Scope s c g callee names) (name : Text) :
    s.lookup? c name = (callee.get? name).or (s.getIn? name g) := by
  obtain ⟨frame, hframe, hparent⟩ := h.isGlobal
  obtain ⟨c', rfl⟩ := Nat.exists_eq_add_one_of_ne_zero (Nat.ne_zero_of_lt h.lt)
  have hchain : s.chain (c' + 1) = [c' + 1, g] := by
    simp [Store.chain, Store.chainWithin, Store.parent?, h.frame, h.parent, hframe, hparent]
  have hcallee : s.getIn? name (c' + 1) = callee.get? name := by
    simp [Store.getIn?, h.frame]
  rw [Store.lookup?, hchain, List.findSome?_cons, hcallee]
  cases callee.get? name <;> simp

/-- A parameter is evaluated to its argument. -/
theorem parameter (h : Scope s c g callee names) (name : Text) {v : Value}
    (hv : callee.get? name = some v) : Evaluates (.symbol name) c s (.ok v) s :=
  .bound (by rw [h.lookup?, hv]; rfl)

/-- The call of a parameter. -/
theorem callParameter (h : Scope s c g callee names) (name : Text)
    (hname : specialHead? (.symbol name) = none) {function : Value}
    (hv : callee.get? name = some function) {es args : List Value} {r : Except Failure Value}
    (hargs : EvaluatesAll es c s (.ok args) s') (happlies : Applies function args s' r s'') :
    Evaluates (call name es) c s r s'' :=
  .call none (SpecialForm.specialHead?_eq_none_iff.mp hname) (h.parameter name hv)
    happlies.isFunction hargs happlies

/-- A global name is evaluated to what it is bound to. -/
theorem globalName (h : Scope s c g callee names) (name : Text) (hmem : name ∈ names) {v : Value}
    (hv : s.getIn? name g = some v) : Evaluates (.symbol name) c s (.ok v) s :=
  .bound (by rw [h.lookup?, h.free name hmem, hv]; rfl)

/-- The call of a global name. -/
theorem callGlobal (h : Scope s c g callee names) {name : Text} (hmem : name ∈ names)
    (hname : specialHead? (.symbol name) = none) {function : Value}
    (hv : s.getIn? name g = some function) {es args : List Value} {r : Except Failure Value}
    (hargs : EvaluatesAll es c s (.ok args) s') (happlies : Applies function args s' r s'') :
    Evaluates (call name es) c s r s'' :=
  .call none (SpecialForm.specialHead?_eq_none_iff.mp hname) (h.globalName _ hmem hv)
    happlies.isFunction hargs happlies

theorem specialHead?_of_mem_catalog {p : Primitive} (hp : p ∈ Primitive.catalog) :
    specialHead? (.symbol p.name) = none := by
  have hcatalog : ∀ p ∈ Primitive.catalog, SpecialForm.ofName? p.name = none := by decide
  exact hcatalog p hp

theorem specialHead?_of_mem_functions {function : Function} (h : function ∈ functions) :
    specialHead? (.symbol function.name) = none := by
  have hnames : ∀ name ∈ functions.map Function.name, SpecialForm.ofName? name = none := by decide
  exact hnames _ (List.mem_map_of_mem h)

/-- The call of a function of the prelude. -/
theorem callFunction (h : Scope s c g callee names) (function : Function)
    (hfunction : function ∈ functions) (hmem : function.name ∈ names) {es args : List Value}
    {r : Except Failure Value} (hargs : EvaluatesAll es c s (.ok args) s')
    (hruns : function.Runs g args s' r s'') : Evaluates (call function.name es) c s r s'' := by
  obtain ⟨identity, hbound⟩ := (h.original function.name hmem).getIn?_function hfunction
  exact h.callGlobal hmem (specialHead?_of_mem_functions hfunction) hbound hargs (hruns identity)

/-- A call of a function of the prelude whose arguments fail. -/
theorem callFunction_fails (h : Scope s c g callee names) (function : Function)
    (hfunction : function ∈ functions) (hmem : function.name ∈ names) {es : List Value}
    {failure : Failure} (hargs : EvaluatesAll es c s (.error failure) s') :
    Evaluates (call function.name es) c s (.error failure) s' := by
  obtain ⟨identity, hbound⟩ := (h.original function.name hmem).getIn?_function hfunction
  exact .argumentFails none
    (SpecialForm.specialHead?_eq_none_iff.mp (specialHead?_of_mem_functions hfunction))
    (h.globalName _ hmem hbound) rfl hargs

/-- The call of a primitive that fails. -/
theorem callPrimitive_fails (h : Scope s c g callee names) {p : Primitive}
    (hp : p ∈ Primitive.catalog) (hmem : p.name ∈ names) {es args : List Value}
    {failure : Failure} (hargs : EvaluatesAll es c s (.ok args) s')
    (hfails : p.applyWith s'.wholeView args = .error failure) :
    Evaluates (call p.name es) c s (.error failure) s' := by
  obtain ⟨identity, hbound⟩ := (h.original p.name hmem).getIn?_primitive hp
  exact h.callGlobal hmem (specialHead?_of_mem_catalog hp) hbound hargs (.primitiveFails hfails)

/-- The call of a primitive that succeeds. -/
theorem callPrimitive (h : Scope s c g callee names) {p : Primitive}
    (hp : p ∈ Primitive.catalog) (hmem : p.name ∈ names) {es args : List Value} {v : Value}
    (hargs : EvaluatesAll es c s (.ok args) s') (hv : p.applyWith s'.wholeView args = .ok v) :
    Evaluates (call p.name es) c s (.ok (v.identified s'.nextIdentity)) s'.takeIdentity := by
  obtain ⟨identity, hbound⟩ := (h.original p.name hmem).getIn?_primitive hp
  exact h.callGlobal hmem (specialHead?_of_mem_catalog hp) hbound hargs (.primitive hv)

section Lists

variable (var : Text) {x : Value} {xs items : List Value} {identity : Option Nat}

theorem isNull (h : Scope s c g callee names) (hmem : ("null?" : Text) ∈ names)
    (hvar : callee.get? var = some (.list items identity)) :
    Evaluates (call "null?" [.symbol var]) c s (.ok (.boolean items.isEmpty)) s.takeIdentity := by
  have happly : Primitive.applyWith s.wholeView (.ofOperation ["x"] none .isNull)
      [.list items identity] = .ok (.boolean items.isEmpty) := by
    cases items <;> rfl
  exact h.callPrimitive (by decide) hmem (.cons (h.parameter var hvar) (.nil c s)) happly

theorem car (h : Scope s c g callee names) (hmem : ("car" : Text) ∈ names)
    (hvar : callee.get? var = some (.list (x :: xs) identity)) :
    Evaluates (call "car" [.symbol var]) c s (.ok (x.identified s.nextIdentity))
      s.takeIdentity :=
  h.callPrimitive (p := .ofOperation ["lst"] none .car) (by decide) hmem
    (.cons (h.parameter var hvar) (.nil c s)) rfl

theorem cdr (h : Scope s c g callee names) (hmem : ("cdr" : Text) ∈ names)
    (hvar : callee.get? var = some (.list (x :: xs) identity)) :
    Evaluates (call "cdr" [.symbol var]) c s (.ok (.list xs (some s.nextIdentity)))
      s.takeIdentity :=
  h.callPrimitive (p := .ofOperation ["lst"] none .cdr) (by decide) hmem
    (.cons (h.parameter var hvar) (.nil c s)) rfl

theorem cons (h : Scope s c g callee names) (hmem : ("cons" : Text) ∈ names) {first rest : Value}
    (hargs : EvaluatesAll [first, rest] c s (.ok [x, .list xs identity]) s') :
    Evaluates (call "cons" [first, rest]) c s (.ok (.list (x :: xs) (some s'.nextIdentity)))
      s'.takeIdentity :=
  h.callPrimitive (p := .ofOperation ["x", "lst"] none .cons) (by decide) hmem hargs rfl

/-- The branches for the empty list and for other lists. -/
theorem ifNull (h : Scope s c g callee names) (hmem : ("null?" : Text) ∈ names)
    (hvar : callee.get? var = some (.list items identity)) (consequent alternate : Value)
    {r : Except Failure Value}
    (hbranch : Evaluates (bif items.isEmpty then consequent else alternate) c s.takeIdentity r s') :
    Evaluates (call "if" [call "null?" [.symbol var], consequent, alternate]) c s r s' := by
  have htest := h.isNull var hmem hvar
  cases items with
  | nil => exact .ifTrue alternate none htest hbranch
  | cons x xs => exact .ifOther consequent none htest (by simp) hbranch

theorem car_nil (h : Scope s c g callee names) (hmem : ("car" : Text) ∈ names)
    (hvar : callee.get? var = some (.list [] identity)) :
    Evaluates (call "car" [.symbol var]) c s
      (.error (.fault (.nonEmptyListExpected "car" "()"))) s :=
  h.callPrimitive_fails (p := .ofOperation ["lst"] none .car) (by decide) hmem
    (.cons (h.parameter var hvar) (.nil c s)) rfl

theorem cdr_nil (h : Scope s c g callee names) (hmem : ("cdr" : Text) ∈ names)
    (hvar : callee.get? var = some (.list [] identity)) :
    Evaluates (call "cdr" [.symbol var]) c s
      (.error (.fault (.nonEmptyListExpected "cdr" "()"))) s :=
  h.callPrimitive_fails (p := .ofOperation ["lst"] none .cdr) (by decide) hmem
    (.cons (h.parameter var hvar) (.nil c s)) rfl

end Lists

section Numbers

variable (var : Text) {n : Int}

theorem equalsZero (h : Scope s c g callee names) (hmem : ("=" : Text) ∈ names)
    (hvar : callee.get? var = some (.integer n)) :
    Evaluates (call "=" [.symbol var, .integer 0]) c s (.ok (.boolean (n == 0)))
      s.takeIdentity :=
  h.callPrimitive (p := .ofOperation ["a", "b"] none .same) (v := .boolean (n == 0)) (by decide)
    hmem (.cons (h.parameter var hvar) (.cons (.integer 0 c s) (.nil c s))) rfl

/-- The branches for zero and for other numbers. -/
theorem ifZero (h : Scope s c g callee names) (hmem : ("=" : Text) ∈ names)
    (hvar : callee.get? var = some (.integer n)) (consequent alternate : Value)
    {r : Except Failure Value}
    (hbranch : Evaluates (bif n == 0 then consequent else alternate) c s.takeIdentity r s') :
    Evaluates (call "if" [call "=" [.symbol var, .integer 0], consequent, alternate]) c s r s' := by
  have htest := h.equalsZero var hmem hvar
  cases hn : n == 0 with
  | true =>
    rw [hn] at htest hbranch
    exact .ifTrue alternate none htest hbranch
  | false =>
    rw [hn] at htest hbranch
    exact .ifOther consequent none htest (by simp) hbranch

theorem minusOne (h : Scope s c g callee names) (hmem : ("-" : Text) ∈ names)
    (hvar : callee.get? var = some (.integer n)) :
    Evaluates (call "-" [.symbol var, .integer 1]) c s (.ok (.integer (n - 1)))
      s.takeIdentity :=
  h.callPrimitive (p := .ofOperation ["n"] (some "m") .subtract) (v := .integer (n - 1))
    (by decide) hmem (.cons (h.parameter var hvar) (.cons (.integer 1 c s) (.nil c s))) rfl

end Numbers

end Scope

/-- A call of a prelude function that looks first whether a list is empty evaluates one of its
branches in a scope. -/
theorem exists_scope_null (function : Function) (args : List Value)
    (hcount : args.length = function.formals.length) {var : Text} {consequent alternate : Value}
    (hbody : function.body = call "if" [call "null?" [.symbol var], consequent, alternate])
    {s s₁ : Store} {g : FrameId} {names : List Text} (hglobal : s.IsGlobal g)
    (horiginal : ∀ name ∈ names, s.Original g name) (hmem : ("null?" : Text) ∈ names)
    (hfree : ∀ name ∈ names, name ∉ function.formals) (hlater : s.Later s₁) {items : List Value}
    {identity : Option Nat}
    (hvar : (calleeFrame function.formals g args).get? var = some (.list items identity)) :
    ∃ s₂ c, Scope s₂ c g (calleeFrame function.formals g args) names ∧ s₁.Later s₂ ∧
      ∀ r s', Evaluates (bif items.isEmpty then consequent else alternate) c s₂ r s' →
        function.Runs g args s₁ r s' := by
  obtain ⟨s₂, c, hscope, hlater₂, hruns⟩ := exists_scope function args hcount hglobal horiginal
    hfree hlater
  have htest := s₂.later_takeIdentity
  refine ⟨s₂.takeIdentity, c, hscope.later htest, hlater₂.trans htest, fun r s' hbranch => ?_⟩
  refine hruns r s' ?_
  rw [hbody]
  exact hscope.ifNull var hmem hvar consequent alternate hbranch

end SmallLisp
