import Mathlib.Data.List.Basic
import SmallLisp.Primitive.Application
import SmallLisp.Proofs.Limit
/-!
Calls of primitives under different views of values.

A primitive looks at its arguments through a view only to compare them and to word a failure.  So
views that agree on the arguments give the same result, and a limited view gives the result of a
wider one unless it stops at its limit.  What a primitive returns is made of its arguments.
-/

namespace SmallLisp

namespace Operation

variable {limited : Prop} {view view' : View} {op : Operation} {args : List Value}

theorem integers_map (view : View) (op : Operation) (numbers : List Int) :
    integers view op (numbers.map .integer) = .ok numbers := by
  induction numbers with
  | nil => rfl
  | cons n rest ih =>
    rw [List.map_cons, integers, ih]
    rfl

theorem failShowing_upToLimit {α : Type} {v : Value}
    (h : UpToLimit limited (view.display v) (view'.display v)) (fault : Text → Fault) :
    UpToLimit limited (failShowing view v fault : Except Failure α)
      (failShowing view' v fault) :=
  h.bind_same _

theorem integers_upToLimit
    (h : ∀ v ∈ args, UpToLimit limited (view.display v) (view'.display v)) :
    UpToLimit limited (integers view op args) (integers view' op args) := by
  induction args with
  | nil => exact UpToLimit.refl _ _
  | cons v rest ih =>
    cases v with
    | integer n => exact (ih fun w hw => h w (List.mem_cons_of_mem _ hw)).map _
    | _ => exact failShowing_upToLimit (h _ List.mem_cons_self) _

theorem listItems_upToLimit {v : Value}
    (h : UpToLimit limited (view.display v) (view'.display v)) :
    UpToLimit limited (listItems view op v) (listItems view' op v) := by
  cases v with
  | list items identity => exact UpToLimit.refl _ _
  | _ => exact failShowing_upToLimit h _

theorem nonEmptyList_upToLimit {v : Value}
    (h : UpToLimit limited (view.display v) (view'.display v)) :
    UpToLimit limited (nonEmptyList view op v) (nonEmptyList view' op v) := by
  cases v with
  | list items identity =>
    cases items with
    | nil => exact failShowing_upToLimit h _
    | cons x xs => exact UpToLimit.refl _ _
  | _ => exact failShowing_upToLimit h _

/-- An operation looks only at its own arguments. -/
theorem run_upToLimit (h : View.UpToLimit limited args view view') :
    UpToLimit limited (op.run view args) (op.run view' args) := by
  have hintegers : UpToLimit limited (integers view op args) (integers view' op args) :=
    integers_upToLimit h.display
  fun_cases run view op args with
  | case12 a b =>
    refine (h.compare a ?_ b ?_).bind_same _
    · exact List.mem_cons_self
    · exact List.mem_cons_of_mem a List.mem_cons_self
  | case16 x rest =>
    refine (listItems_upToLimit (h.display rest ?_)).bind_same _
    exact List.mem_cons_of_mem x List.mem_cons_self
  | case17 v rest | case18 v rest =>
    exact (nonEmptyList_upToLimit (h.display v List.mem_cons_self)).bind_same _
  | case20 v rest =>
    exact (listItems_upToLimit (h.display v List.mem_cons_self)).bind_same _
  | case1 | case2 | case3 | case4 | case5 | case6 | case7 | case8 | case9 | case10 | case11 =>
    exact hintegers.bind_same _
  | case13 | case14 | case15 | case19 | case21 | case22 | case23 | case24 | case25 | case26
  | case27 =>
    exact UpToLimit.refl _ _
  | case28 =>
    rw [run]
    · exact UpToLimit.refl _ _
    all_goals assumption

end Operation

theorem Primitive.applyWith_upToLimit {limited : Prop} {view view' : View} {args : List Value}
    (p : Primitive) (h : View.UpToLimit limited args view view') :
    UpToLimit limited (p.applyWith view args) (p.applyWith view' args) := by
  rw [applyWith, applyWith]
  split
  · exact Operation.run_upToLimit h
  · exact UpToLimit.refl _ _

/-- A call of `equal?` is a comparison. -/
theorem Primitive.applyWith_equal {p : Primitive} (hp : p ∈ catalog) (hname : p.name = "equal?")
    (view : View) (a b : Value) :
    p.applyWith view [a, b] = (view.compare a b).map .boolean := by
  have hcatalog : ∀ p ∈ catalog, p.name = "equal?" → p = ofOperation ["a", "b"] none .equal := by
    decide
  obtain rfl := hcatalog p hp hname
  rfl

/-- A property that integers and booleans have, and new lists of what has it, and that the elements
of a list have with it. -/
structure Value.Hereditary (P : Value → Prop) : Prop where
  integer : ∀ n, P (.integer n)
  boolean : ∀ b, P (.boolean b)
  list : ∀ {items : List Value}, (∀ v ∈ items, P v) → P (.list items)
  items : ∀ {items : List Value} {identity : Option Nat}, P (.list items identity) →
    ∀ v ∈ items, P v

theorem Value.Hereditary.true : Value.Hereditary fun _ => True :=
  ⟨fun _ => trivial, fun _ => trivial, fun _ => trivial, fun _ _ _ => trivial⟩

/-- A property that lists keep with an identity. -/
theorem Value.identified_of_list {P : Value → Prop} {identity : Nat}
    (hlist : ∀ items, P (.list items) → P (.list items (some identity))) {v : Value} (h : P v) :
    P (v.identified identity) := by
  rw [Value.identified.eq_def]
  split
  · exact hlist _ h
  · exact h

/-- A computation that returns what satisfies `P` or fails as `E` allows. -/
def Ends {α : Type} (P : α → Prop) (E : Failure → Prop) : Except Failure α → Prop
  | .ok a => P a
  | .error e => E e

section Ends

variable {α β : Type} {P : α → Prop} {Q : β → Prop} {E : Failure → Prop} {x : Except Failure α}

theorem Ends.of_error (h : Ends P E x) {e : Failure} (he : x = .error e) : E e := by
  subst he
  exact h

theorem Ends.bind {f : α → Except Failure β} (h : Ends P E x) (hf : ∀ a, P a → Ends Q E (f a)) :
    Ends Q E (x >>= f) := by
  cases x with
  | error e => exact h
  | ok a => exact hf a h

end Ends

/-- A view of some values that fails as `E` allows, which also allows every fault. -/
structure View.FailsWithin (E : Failure → Prop) (args : List Value) (view : View) : Prop where
  fault : ∀ fault, E (.fault fault)
  display : ∀ v ∈ args, Ends (fun _ => True) E (view.display v)
  compare : ∀ a ∈ args, ∀ b ∈ args, Ends (fun _ => True) E (view.compare a b)

/-- Every view fails as it may. -/
theorem View.failsWithin_true (args : List Value) (view : View) :
    view.FailsWithin (fun _ => True) args where
  fault _ := trivial
  display v _ := by cases view.display v <;> trivial
  compare a _ b _ := by cases view.compare a b <;> trivial

namespace Operation

variable {P : Value → Prop} {E : Failure → Prop} {view : View} {op : Operation}
  {args : List Value}

theorem ends_failShowing {α : Type} (Q : α → Prop) (hview : view.FailsWithin E args) {v : Value}
    (hv : v ∈ args) (fault : Text → Fault) : Ends Q E (failShowing view v fault) :=
  (hview.display v hv).bind fun _ _ => hview.fault _

theorem ends_integers (hview : view.FailsWithin E args) :
    Ends (fun numbers => numbers.length = args.length) E (integers view op args) := by
  induction args with
  | nil => exact rfl
  | cons v rest ih =>
    cases v with
    | integer n =>
      have hrest := ih ⟨hview.fault,
        fun w hw => hview.display w (List.mem_cons_of_mem _ hw),
        fun a ha b hb => hview.compare a (List.mem_cons_of_mem _ ha) b (List.mem_cons_of_mem _ hb)⟩
      rw [integers]
      cases h : integers view op rest with
      | error e => exact hrest.of_error h
      | ok numbers =>
        rw [h] at hrest
        exact congrArg (· + 1) hrest
    | _ => exact ends_failShowing _ hview List.mem_cons_self _

theorem ends_onTwo {numbers : List Int} (hmissing : numbers.length ≠ 2 → E .missingArgument)
    {f : Int → Int → Except Failure Value} (h : ∀ a b, Ends P E (f a b)) :
    Ends P E (onTwo f numbers) := by
  rw [onTwo.eq_def]
  split
  · exact h _ _
  · rename_i hnumbers
    apply hmissing
    intro hlength
    obtain ⟨a, b, rfl⟩ := List.length_eq_two.mp hlength
    exact hnumbers a b rfl

theorem ends_comparing (hP : Value.Hereditary P) {numbers : List Int}
    (hmissing : numbers.length ≠ 2 → E .missingArgument) (f : Int → Int → Bool) :
    Ends P E (comparing f numbers) := by
  apply ends_onTwo hmissing
  intro a b
  exact hP.boolean (f a b)

theorem ends_divideBy (hfault : ∀ fault, E (.fault fault)) (n : Int) (divisors : List Int) :
    Ends (fun _ => True) E (divideBy n divisors) := by
  induction divisors generalizing n with
  | nil => trivial
  | cons d rest ih =>
    rw [divideBy]
    split
    · exact hfault _
    · exact ih _

theorem ends_listItems (hP : Value.Hereditary P) (hview : view.FailsWithin E args) {v : Value}
    (hmem : v ∈ args) (hv : P v) :
    Ends (fun items => ∀ w ∈ items, P w) E (listItems view op v) := by
  cases v with
  | list items identity => exact hP.items hv
  | _ => exact ends_failShowing _ hview hmem _

theorem ends_nonEmptyList (hP : Value.Hereditary P) (hview : view.FailsWithin E args) {v : Value}
    (hmem : v ∈ args) (hv : P v) :
    Ends (fun parts => P parts.1 ∧ ∀ w ∈ parts.2, P w) E (nonEmptyList view op v) := by
  cases v with
  | list items identity =>
    cases items with
    | nil => exact ends_failShowing _ hview hmem _
    | cons x xs => exact List.forall_mem_cons.mp (hP.items hv)
  | _ => exact ends_failShowing _ hview hmem _

/-- The numbers of arguments for which an operation is defined. -/
def Fits (op : Operation) (count : Nat) : Prop :=
  match op with
  | .add | .multiply | .and | .or | .list => True
  | .modulo | .same | .different | .less | .atMost | .greater | .atLeast | .equal | .cons =>
      count = 2
  | _ => 0 < count

/-- What an operation returns is made of its arguments, integers and booleans; it fails by a fault
or because its view of the arguments does, and for want of an argument only if the number of
arguments does not fit. -/
theorem ends_run (hP : Value.Hereditary P) (hargs : ∀ v ∈ args, P v)
    (hview : view.FailsWithin E args) (hmissing : ¬ op.Fits args.length → E .missingArgument) :
    Ends P E (op.run view args) := by
  have hintegers : Ends (fun numbers => numbers.length = args.length) E (integers view op args) :=
    ends_integers hview
  fun_cases run view op args with
  | case1 | case3 => exact hintegers.bind fun _ _ => hP.integer _
  | case2 =>
    apply hintegers.bind
    intro numbers hlength
    split
    · exact hmissing fun hfits => Nat.ne_of_lt hfits hlength
    · exact hP.integer _
    · exact hP.integer _
  | case4 =>
    apply hintegers.bind
    intro numbers hlength
    split
    · exact hmissing fun hfits => Nat.ne_of_lt hfits hlength
    · exact (ends_divideBy hview.fault _ _).bind fun _ _ => hP.integer _
  | case5 =>
    refine hintegers.bind fun numbers hlength => ends_onTwo (hlength ▸ hmissing) fun a b => ?_
    split
    · exact hview.fault _
    · exact hP.integer _
  | case6 | case7 | case8 | case9 | case10 | case11 =>
    exact hintegers.bind fun numbers hlength => ends_comparing hP (hlength ▸ hmissing) _
  | case12 a b =>
    have hcompare := hview.compare a List.mem_cons_self b (by simp)
    exact hcompare.bind fun _ _ => hP.boolean _
  | case16 x rest =>
    have hmem : rest ∈ [x, rest] := by simp
    apply (ends_listItems hP hview hmem (hargs rest hmem)).bind
    intro items hitems
    exact hP.list (List.forall_mem_cons.mpr ⟨hargs x List.mem_cons_self, hitems⟩)
  | case17 v rest =>
    have hmem : v ∈ v :: rest := List.mem_cons_self
    exact (ends_nonEmptyList hP hview hmem (hargs v hmem)).bind fun parts hparts => hparts.1
  | case18 v rest =>
    have hmem : v ∈ v :: rest := List.mem_cons_self
    apply (ends_nonEmptyList hP hview hmem (hargs v hmem)).bind
    intro parts hparts
    exact hP.list hparts.2
  | case19 => exact hP.list hargs
  | case20 v rest =>
    have hmem : v ∈ v :: rest := List.mem_cons_self
    exact (ends_listItems hP hview hmem (hargs v hmem)).bind fun _ _ => hP.integer _
  | case13 | case14 | case15 | case21 | case22 | case23 | case24 | case25 | case26 | case27 =>
    exact hP.boolean _
  | case28 =>
    apply hmissing
    intro hfits
    cases op with
    | equal | cons =>
      obtain ⟨a, b, rfl⟩ := List.length_eq_two.mp hfits
      simp_all
    | not | car | cdr | length | isNull | isPair | isList | isSymbol | isNumber | isBoolean
    | isProcedure =>
      obtain ⟨v, rest, rfl⟩ := List.exists_cons_of_length_pos hfits
      simp_all
    | _ => contradiction

end Operation

theorem Primitive.ends_applyWith {P : Value → Prop} {E : Failure → Prop} {view : View}
    {args : List Value} (hP : Value.Hereditary P) (p : Primitive) (hargs : ∀ v ∈ args, P v)
    (hview : view.FailsWithin E args)
    (hmissing : p.accepts args.length = true → ¬ p.operation.Fits args.length →
      E .missingArgument) : Ends P E (p.applyWith view args) := by
  rw [applyWith]
  split
  · rename_i haccepts
    exact Operation.ends_run hP hargs hview (hmissing haccepts)
  · exact hview.fault _

end SmallLisp
