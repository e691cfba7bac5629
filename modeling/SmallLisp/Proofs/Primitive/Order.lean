import Mathlib.Algebra.Group.Nat.Defs
import Mathlib.Data.Nat.Find
import Mathlib.Tactic.Push
import SmallLisp.Proofs.Evaluation.Native
/-!
In which order a call of a primitive fails.

The number of the arguments comes first, then their kinds from left to right, then the divisors; no
operation looks for an argument that is not there.  Main statement: which error a call of a function
of the catalog raises, if and only if what is wrong with its arguments.  A message shows a value and
`equal?` compares values, so that the limits on their size stand for some of the errors.
-/

namespace SmallLisp

/-- What an operation asks of an argument. -/
inductive Demand
  | anything | integer | list | nonEmptyList
deriving DecidableEq, Repr

/-- Whether a value is what is asked for. -/
def Demand.Admits : Demand → Value → Prop
  | .anything, _ | .integer, .integer _ | .list, .list _ _ | .nonEmptyList, .list (_ :: _) _ => True
  | _, _ => False

/-- The error of an argument that is not what is asked for. -/
def Demand.complaint (op : Operation) : Demand → Text → Fault
  | .integer => .integersExpected op.name
  | .nonEmptyList => .nonEmptyListExpected op.name
  | _ => .listExpected op.name

namespace Operation

/-- What an operation asks of its argument at a place. -/
def demand : Operation → Nat → Demand
  | .add, _ | .subtract, _ | .multiply, _ | .divide, _ | .modulo, _ | .same, _ | .different, _
  | .less, _ | .atMost, _ | .greater, _ | .atLeast, _ => .integer
  | .cons, 1 | .length, 0 => .list
  | .car, 0 | .cdr, 0 => .nonEmptyList
  | _, _ => .anything

/-- The first argument that is not what the operation asks for, and its place. -/
structure Misfit (op : Operation) (args : List Value) (i : Nat) (v : Value) : Prop where
  get : args[i]? = some v
  misfit : ¬ (op.demand i).Admits v
  first : ∀ j < i, ∀ w, args[j]? = some w → (op.demand j).Admits w

/-- Whether an operation would divide by zero. -/
def ZeroDivisor (op : Operation) (args : List Value) : Prop :=
  (op = .divide ∨ op = .modulo) ∧ .integer 0 ∈ args.tail

/-- How an operation ends, by its arguments. -/
inductive Ending (op : Operation) (view : View) (args : List Value) : Except Failure Value → Prop
  | misfit {i : Nat} {v : Value} : op.Misfit args i v →
      Ending op view args (failShowing view v ((op.demand i).complaint op))
  | zeroDivisor : (∀ i v, ¬ op.Misfit args i v) → op.ZeroDivisor args →
      Ending op view args (.error (.fault (.divisionByZero op.name)))
  | uncompared {a b : Value} {e : Failure} : op = .equal → args = [a, b] →
      view.compare a b = .error e → Ending op view args (.error e)
  | value {v : Value} : (∀ i v, ¬ op.Misfit args i v) → ¬ op.ZeroDivisor args →
      (∀ a b, op = .equal → args = [a, b] → ∃ same, view.compare a b = .ok same) →
      Ending op view args (.ok v)

section Endings

variable {op : Operation} {view : View} {args : List Value}

/-- Every argument is what the operation asks for, or there is a first one that is not. -/
theorem misfit_or_admits (op : Operation) (args : List Value) :
    (∃ i v, op.Misfit args i v) ∨ ∀ i v, args[i]? = some v → (op.demand i).Admits v := by
  classical
  by_cases h : ∃ i v, args[i]? = some v ∧ ¬ (op.demand i).Admits v
  · obtain ⟨v, hget, hmisfit⟩ := Nat.find_spec h
    refine Or.inl ⟨Nat.find h, v, hget, hmisfit, fun j hj w hw => ?_⟩
    by_contra hnot
    exact Nat.find_min h hj ⟨w, hw, hnot⟩
  · push Not at h
    exact Or.inr h

theorem not_misfit (h : ∀ i v, args[i]? = some v → (op.demand i).Admits v) (i : Nat) (v : Value) :
    ¬ op.Misfit args i v :=
  fun hmisfit => hmisfit.misfit (h i v hmisfit.get)

/-- There is one first misfit at most. -/
theorem Misfit.misfit_iff {i j : Nat} {v w : Value} (h : op.Misfit args i v) :
    op.Misfit args j w ↔ j = i ∧ w = v := by
  constructor
  · intro h'
    obtain rfl : j = i := by
      rcases Nat.lt_trichotomy i j with hlt | heq | hlt
      · exact absurd (h'.first i hlt v h.get) h.misfit
      · exact heq.symm
      · exact absurd (h.first j hlt w h'.get) h'.misfit
    exact ⟨rfl, Option.some.inj (h'.get.symm.trans h.get)⟩
  · rintro ⟨rfl, rfl⟩
    exact h

theorem not_misfit_equal (h : op = .equal) : ∀ i v, ¬ op.Misfit args i v := by
  subst h
  exact not_misfit fun _ _ _ => trivial

theorem Misfit.ne_equal {i : Nat} {v : Value} (h : op.Misfit args i v) : op ≠ .equal :=
  fun hequal => not_misfit_equal hequal i v h

/-- Nothing comes after a failure that shows a value. -/
theorem failShowing_bind {α β : Type} (v : Value) (fault : Text → Fault)
    (next : α → Except Failure β) :
    (failShowing view v fault >>= next) = failShowing view v fault := by
  rw [failShowing, failShowing]
  cases view.display v <;> rfl

/-- Integers are read up to the first argument that is none. -/
theorem integers_of_misfit {i : Nat} {v : Value} (hget : args[i]? = some v)
    (hmisfit : ¬ Demand.integer.Admits v)
    (hfirst : ∀ j < i, ∀ w, args[j]? = some w → Demand.integer.Admits w) :
    integers view op args = failShowing view v (.integersExpected op.name) := by
  induction args generalizing i with
  | nil => simp at hget
  | cons w rest ih =>
    cases i with
    | zero =>
      obtain rfl : w = v := by simpa using hget
      cases w with
      | integer n => exact absurd trivial hmisfit
      | _ => rfl
    | succ i =>
      have hw := hfirst 0 (Nat.succ_pos i) w rfl
      cases w with
      | integer n =>
        have hrest : integers view op rest = failShowing view v (.integersExpected op.name) :=
          ih hget fun j hj => hfirst (j + 1) (Nat.succ_lt_succ hj)
        rw [integers, hrest]
        exact failShowing_bind v _ fun numbers => .ok (n :: numbers)
      | _ => exact absurd hw id

/-- Arguments that are all integers. -/
theorem exists_eq_map_integer
    (h : ∀ (i : Nat) (v : Value), args[i]? = some v → Demand.integer.Admits v) :
    ∃ numbers : List Int, args = numbers.map .integer := by
  induction args with
  | nil => exact ⟨[], rfl⟩
  | cons v rest ih =>
    obtain ⟨numbers, rfl⟩ := ih fun i w hw => h (i + 1) w hw
    have hv := h 0 v rfl
    cases v with
    | integer n => exact ⟨n :: numbers, rfl⟩
    | _ => exact absurd hv id

/-- An operation on integers ends as its part after the reading of the integers does. -/
theorem ending_of_integers (hdemand : ∀ i, op.demand i = .integer)
    (next : List Int → Except Failure Value)
    (hrun : op.run view args = integers view op args >>= next)
    (hnext : ∀ numbers : List Int, args = numbers.map .integer → (∀ i v, ¬ op.Misfit args i v) →
      op.Ending view args (next numbers)) :
    op.Ending view args (op.run view args) := by
  rcases misfit_or_admits op args with ⟨i, v, hmisfit⟩ | hadmits
  · have hintegers : integers view op args = failShowing view v (.integersExpected op.name) :=
      integers_of_misfit hmisfit.get (hdemand i ▸ hmisfit.misfit)
        fun j hj w hw => hdemand j ▸ hmisfit.first j hj w hw
    have hending : op.Ending view args (failShowing view v ((op.demand i).complaint op)) :=
      .misfit hmisfit
    rw [hdemand i] at hending
    rw [hrun, hintegers, failShowing_bind]
    exact hending
  · have hintegers : ∀ (i : Nat) (v : Value), args[i]? = some v → Demand.integer.Admits v :=
      fun i v hv => hdemand i ▸ hadmits i v hv
    obtain ⟨numbers, hnumbers⟩ := exists_eq_map_integer hintegers
    have hread : integers view op args = .ok numbers := by rw [hnumbers, integers_map]
    rw [hrun, hread]
    exact hnext numbers hnumbers (not_misfit hadmits)

/-- An operation that neither divides nor compares, and that finds no misfit, ends with a value. -/
theorem Ending.of_not_misfit (hop : op ∉ [divide, modulo, equal])
    (hfit : ∀ i v, ¬ op.Misfit args i v) (v : Value) : op.Ending view args (.ok v) := by
  simp only [List.mem_cons, List.not_mem_nil, or_false, not_or] at hop
  exact .value hfit (fun h => h.1.elim hop.1 hop.2.1) fun _ _ h => absurd h hop.2.2

/-- A division fails if and only if there is a zero among the divisors. -/
theorem divideBy_cases (n : Int) (divisors : List Int) :
    0 ∈ divisors ∧ divideBy n divisors = .error (.fault (.divisionByZero divide.name)) ∨
      0 ∉ divisors ∧ ∃ q, divideBy n divisors = .ok q := by
  induction divisors generalizing n with
  | nil => exact Or.inr ⟨by simp, n, rfl⟩
  | cons d rest ih =>
    by_cases hd : d = 0
    · exact Or.inl ⟨by simp [hd], by rw [divideBy, if_pos hd]⟩
    · simpa [divideBy, hd, Ne.symm hd] using ih (n.tdiv d)

theorem zeroDivisor_map_integer {n : Int} {divisors : List Int} (hop : op = .divide ∨ op = .modulo)
    (hargs : args = (n :: divisors).map .integer) : op.ZeroDivisor args ↔ 0 ∈ divisors := by
  simp [ZeroDivisor, hop, hargs]

/-- An operation that asks nothing of the arguments after the first one. -/
theorem not_misfit_cons {v : Value} {rest : List Value} (h : (op.demand 0).Admits v)
    (hrest : ∀ i, op.demand (i + 1) = .anything) (i : Nat) (w : Value) :
    ¬ op.Misfit (v :: rest) i w := by
  intro hmisfit
  cases i with
  | zero => exact hmisfit.misfit (Option.some.inj hmisfit.get ▸ h)
  | succ i => exact hmisfit.misfit (hrest i ▸ trivial)

theorem listItems_cases (view : View) (op : Operation) (v : Value) :
    (∃ items, Demand.list.Admits v ∧ listItems view op v = .ok items) ∨
      ¬ Demand.list.Admits v ∧
        listItems view op v = failShowing view v (.listExpected op.name) := by
  cases v with
  | list items identity => exact Or.inl ⟨items, trivial, rfl⟩
  | _ => exact Or.inr ⟨id, rfl⟩

theorem nonEmptyList_cases (view : View) (op : Operation) (v : Value) :
    (∃ x xs, Demand.nonEmptyList.Admits v ∧ nonEmptyList view op v = .ok (x, xs)) ∨
      ¬ Demand.nonEmptyList.Admits v ∧
        nonEmptyList view op v = failShowing view v (.nonEmptyListExpected op.name) := by
  cases v with
  | list items identity =>
    cases items with
    | nil => exact Or.inr ⟨id, rfl⟩
    | cons x xs => exact Or.inl ⟨x, xs, trivial, rfl⟩
  | _ => exact Or.inr ⟨id, rfl⟩

/-- How the comparison of two integers ends. -/
theorem ending_comparing (hdemand : ∀ i, op.demand i = .integer)
    (hop : op ∉ [divide, modulo, equal]) (f : Int → Int → Bool)
    (hrun : op.run view args = integers view op args >>= comparing f)
    (hcount : args.length = 2) : op.Ending view args (op.run view args) := by
  refine ending_of_integers hdemand _ hrun fun numbers hargs hfit => ?_
  obtain ⟨a, b, rfl⟩ : ∃ a b, numbers = [a, b] :=
    List.length_eq_two.mp (by simpa [hargs] using hcount)
  exact .of_not_misfit hop hfit _

/-- An operation on fitting arguments ends in one of the ways. -/
theorem ending_run (view : View) (hfits : op.Fits args.length) :
    op.Ending view args (op.run view args) := by
  -- The operations on integers read all their arguments before they compute with any.
  cases op with
  | add | multiply =>
    refine ending_of_integers (fun _ => rfl) _ rfl fun numbers hargs hfit => ?_
    exact .of_not_misfit (by decide) hfit _
  | subtract =>
    refine ending_of_integers (fun _ => rfl) _ rfl fun numbers hargs hfit => ?_
    rcases numbers with _ | ⟨n, _ | ⟨m, rest⟩⟩
    · simp [hargs, Fits] at hfits
    · exact .of_not_misfit (by decide) hfit _
    · exact .of_not_misfit (by decide) hfit _
  | divide =>
    refine ending_of_integers (fun _ => rfl) _ rfl fun numbers hargs hfit => ?_
    cases numbers with
    | nil => simp [hargs, Fits] at hfits
    | cons n divisors =>
      have hzero := zeroDivisor_map_integer (Or.inl rfl) hargs
      rcases divideBy_cases n divisors with ⟨hmem, hdivide⟩ | ⟨hmem, q, hdivide⟩
      · simp only [hdivide]
        exact .zeroDivisor hfit (hzero.mpr hmem)
      · simp only [hdivide]
        exact .value hfit (fun h => hmem (hzero.mp h)) (by simp)
  | modulo =>
    refine ending_of_integers (fun _ => rfl) _ rfl fun numbers hargs hfit => ?_
    obtain ⟨a, b, rfl⟩ : ∃ a b, numbers = [a, b] :=
      List.length_eq_two.mp (by simpa [hargs, Fits] using hfits)
    have hzero := zeroDivisor_map_integer (Or.inr rfl) hargs
    rw [List.mem_singleton] at hzero
    rw [onTwo]
    by_cases hb : b = 0
    · rw [if_pos hb]
      exact .zeroDivisor hfit (hzero.mpr hb.symm)
    · rw [if_neg hb]
      exact .value hfit (fun h => hb (hzero.mp h).symm) (by simp)
  | same | different | less | atMost | greater | atLeast =>
    exact ending_comparing (fun _ => rfl) (by decide) _ rfl hfits
  | equal =>
    obtain ⟨a, b, rfl⟩ := List.length_eq_two.mp hfits
    cases hcompare : view.compare a b with
    | error e =>
      have hrun : equal.run view [a, b] = .error e := by
        simp only [run, hcompare]
        rfl
      rw [hrun]
      exact .uncompared rfl rfl hcompare
    | ok same =>
      have hrun : equal.run view [a, b] = .ok (.boolean same) := by
        simp only [run, hcompare]
        rfl
      rw [hrun]
      refine .value (not_misfit_equal rfl) (fun h => by simp [ZeroDivisor] at h) ?_
      rintro a' b' - ⟨⟩
      exact ⟨same, hcompare⟩
  | cons =>
    obtain ⟨x, v, rfl⟩ := List.length_eq_two.mp hfits
    have hfirst : ∀ j < 1, ∀ w, [x, v][j]? = some w → (cons.demand j).Admits w := by
      intro j hj
      obtain rfl := Nat.lt_one_iff.mp hj
      exact fun _ _ => trivial
    rcases listItems_cases view cons v with ⟨items, hv, hitems⟩ | ⟨hv, hitems⟩
    · rw [run, hitems]
      refine .of_not_misfit (by decide) (fun i w hmisfit => ?_) _
      rcases i with _ | _ | i
      · exact hmisfit.misfit trivial
      · exact hmisfit.misfit (Option.some.inj hmisfit.get ▸ hv)
      · simpa using hmisfit.get
    · have hmisfit : cons.Misfit [x, v] 1 v := ⟨rfl, hv, hfirst⟩
      rw [run, hitems, failShowing_bind]
      exact .misfit hmisfit
  | car | cdr =>
    obtain ⟨v, rest, rfl⟩ := List.exists_cons_of_length_pos hfits
    rcases nonEmptyList_cases view _ v with ⟨x, xs, hv, hparts⟩ | ⟨hv, hparts⟩
    · rw [run, hparts]
      refine .of_not_misfit (by decide) ?_ _
      exact not_misfit_cons hv fun _ => rfl
    · rw [run, hparts, failShowing_bind]
      exact .misfit (i := 0) ⟨rfl, hv, by simp⟩
  | length =>
    obtain ⟨v, rest, rfl⟩ := List.exists_cons_of_length_pos hfits
    rcases listItems_cases view length v with ⟨items, hv, hitems⟩ | ⟨hv, hitems⟩
    · rw [run, hitems]
      refine .of_not_misfit (by decide) ?_ _
      exact not_misfit_cons hv fun _ => rfl
    · rw [run, hitems, failShowing_bind]
      exact .misfit (i := 0) ⟨rfl, hv, by simp⟩
  | not | isNull | isPair | isList | isSymbol | isNumber | isBoolean | isProcedure =>
    obtain ⟨v, rest, rfl⟩ := List.exists_cons_of_length_pos hfits
    refine .of_not_misfit (by decide) ?_ _
    exact not_misfit fun _ _ _ => trivial
  | and | or | list =>
    refine .of_not_misfit (by decide) ?_ _
    exact not_misfit fun _ _ _ => trivial

end Endings

end Operation

/-- A value without data of an embedding program in it. -/
inductive Value.OfLanguage : Value → Prop
  | symbol (name : Text) : OfLanguage (.symbol name)
  | integer (n : Int) : OfLanguage (.integer n)
  | boolean (b : Bool) : OfLanguage (.boolean b)
  | list {items : List Value} (identity : Option Nat) : (∀ v ∈ items, OfLanguage v) →
      OfLanguage (.list items identity)
  | primitive (identity : Nat) (p : Primitive) : OfLanguage (.primitive identity p)
  | closure (identity : Nat) (formals : List Text) (body : Value) (f : FrameId) :
      OfLanguage (.closure identity formals body f)

/-- A value that shows an integer of more than `maxDigits` digits. -/
inductive Value.ShowsLongInteger : Value → Prop
  | integer {n : Int} : 10 ^ Text.maxDigits ≤ n.natAbs → ShowsLongInteger (.integer n)
  | item {items : List Value} {identity : Option Nat} {v : Value} : v ∈ items →
      ShowsLongInteger v → ShowsLongInteger (.list items identity)

/-- A computation that ends with an error of a kind. -/
def Raises {α : Type} (kind : FaultKind) (r : Except Failure α) : Prop :=
  ∃ fault, r = .error (.fault fault) ∧ fault.kind = kind

namespace Primitive

/-- Whether a call may have so many arguments: the required ones, and more if there is a name for
them. -/
def Admits (p : Primitive) (count : Nat) : Prop :=
  p.parameters.length ≤ count ∧ (p.rest = none → count = p.parameters.length)

/-- How a call ends, and which error it raises if and only if what is wrong with the arguments. -/
structure FailsInOrder (p : Primitive) (view : View) (args : List Value)
    (r : Except Failure Value) : Prop where
  ends : (∃ v, r = .ok v ∧ v.OfLanguage) ∨ Raises .arity r ∨ Raises .wrongType r ∨
    Raises .zeroDivision r ∨ r = .error .integerTooLong ∨ r = .error .nestingTooDeep
  arity : Raises .arity r ↔ ¬ p.Admits args.length
  /-- The first argument of a wrong kind is the one that the message shows. -/
  wrongType : Raises .wrongType r ↔ p.Admits args.length ∧
    ∃ i v shown, p.operation.Misfit args i v ∧ view.display v = .ok shown ∧
      r = .error (.fault ((p.operation.demand i).complaint p.operation shown))
  zeroDivision : Raises .zeroDivision r ↔ p.Admits args.length ∧
    (∀ i v, ¬ p.operation.Misfit args i v) ∧ p.operation.ZeroDivisor args
  /-- The message would show too long an integer. -/
  tooLong : r = .error .integerTooLong ↔ p.Admits args.length ∧
    ∃ i v, p.operation.Misfit args i v ∧ view.display v = .error .integerTooLong
  /-- The message would show, or `equal?` would compare, what is nested too deep. -/
  tooDeep : r = .error .nestingTooDeep ↔ p.Admits args.length ∧
    ((∃ i v, p.operation.Misfit args i v ∧ view.display v = .error .nestingTooDeep) ∨
      ∃ a b, p.operation = .equal ∧ args = [a, b] ∧ view.compare a b = .error .nestingTooDeep)

end Primitive

namespace Value

theorem hereditary_ofLanguage : Hereditary OfLanguage where
  integer := .integer
  boolean := .boolean
  list := .list none
  items h := by
    cases h with
    | list _ hitems => exact hitems

mutual

/-- A value has no text because of its integers only. -/
theorem text?_eq_none_iff (s : Store) : ∀ v : Value, v.text? s = none ↔ v.ShowsLongInteger
  | .integer n => by
      rw [text?, Text.integerText?, Nat.pow_eq]
      constructor
      · intro h
        refine .integer (Nat.le_of_not_lt fun hlt => ?_)
        simp [hlt] at h
      · rintro ⟨hle⟩
        rw [if_neg (Nat.not_lt.mpr hle)]
  | .list items identity => by
      rw [text?, Option.map_eq_none_iff, texts?_eq_none_iff s items]
      constructor
      · rintro ⟨v, hv, hlong⟩
        exact .item hv hlong
      · rintro ⟨⟩
        exact ⟨_, ‹_›, ‹_›⟩
  | .symbol _ | .boolean _ | .primitive .. | .closure .. | .foreign _ => by
      simp only [text?, reduceCtorEq, false_iff]
      nofun

theorem texts?_eq_none_iff (s : Store) :
    ∀ items : List Value, texts? s items = none ↔ ∃ v ∈ items, v.ShowsLongInteger
  | [] => by simp [texts?]
  | v :: rest => by
      have hv := text?_eq_none_iff s v
      have hrest := texts?_eq_none_iff s rest
      rw [List.exists_mem_cons_iff, ← hv, ← hrest, texts?]
      cases v.text? s <;> cases texts? s rest <;> simp

end

/-- The echo of a value fails at the limit on integers because of them only, and because of them
unless it meets the limit on nesting. -/
theorem displayWithin_eq_integerTooLong (s : Store) (depth : Nat) (v : Value) :
    (displayWithin s depth v = .error .integerTooLong → v.ShowsLongInteger) ∧
    (v.isNestedWithin depth = true →
      (displayWithin s depth v = .error .integerTooLong ↔ v.ShowsLongInteger) ∧
      displayWithin s depth v ≠ .error .nestingTooDeep) := by
  have hwhole : orTooLong (v.text? s) = .error .integerTooLong ↔ v.ShowsLongInteger := by
    rw [← text?_eq_none_iff s]
    cases v.text? s <;> simp [orTooLong]
  constructor
  · intro h
    have hview := (s.view_upToLimit depth [v]).display v List.mem_cons_self
    have heq : displayWithin s depth v = orTooLong (v.text? s) :=
      hview.eq_of_ne (by simp [Store.view, h])
    exact hwhole.mp (heq.symm.trans h)
  · intro hnested
    rw [displayWithin_of_isNestedWithin s hnested]
    refine ⟨hwhole, ?_⟩
    cases v.text? s <;> simp [orTooLong]

/-- A comparison with a value nested within the limit does not meet it. -/
theorem exists_compareWithin_eq_ok {depth : Nat} {a b : Value}
    (h : a.isNestedWithin depth = true ∨ b.isNestedWithin depth = true) :
    ∃ same, compareWithin depth a b = .ok same := by
  rcases h with ha | hb
  · exact ⟨same a b, compareWithin_of_isNestedWithin ha⟩
  induction depth generalizing a b with
  | zero => simp [isNestedWithin] at hb
  | succ depth ih =>
    cases a with
    | list xs i =>
      cases b with
      | list ys j =>
        rw [compareWithin]
        split
        · exact ⟨true, rfl⟩
        · simp only [isNestedWithin, List.all_eq_true] at hb
          induction xs generalizing ys with
          | nil => cases ys <;> exact ⟨_, rfl⟩
          | cons x xs ih' =>
            cases ys with
            | nil => exact ⟨false, rfl⟩
            | cons y ys =>
              obtain ⟨hy, hrest⟩ := List.forall_mem_cons.mp hb
              obtain ⟨same, hsame⟩ := ih (a := x) hy
              rw [compareItems, hsame]
              cases same with
              | false => exact ⟨false, rfl⟩
              | true => exact ih' ys hrest
      | _ => exact ⟨_, rfl⟩
    | _ => exact ⟨_, rfl⟩

end Value

theorem not_raises_ok {α : Type} (kind : FaultKind) (a : α) : ¬ Raises kind (.ok a) := by
  rintro ⟨fault, ⟨⟩, -⟩

theorem raises_fault_iff {α : Type} {kind : FaultKind} {fault : Fault} :
    Raises kind (.error (.fault fault) : Except Failure α) ↔ fault.kind = kind := by
  simp [Raises]

theorem Failure.IsLimit.not_raises {α : Type} {e : Failure} (h : e.IsLimit) (kind : FaultKind) :
    ¬ Raises kind (.error e : Except Failure α) := by
  rintro ⟨fault, ⟨⟩, -⟩
  simp [IsLimit] at h

theorem Demand.kind_complaint (d : Demand) (op : Operation) (shown : Text) :
    (d.complaint op shown).kind = .wrongType := by
  cases d <;> rfl

namespace Primitive

variable {p : Primitive} {view : View} {args : List Value} {r : Except Failure Value}

theorem accepts_iff_admits (p : Primitive) (count : Nat) :
    p.accepts count = true ↔ p.Admits count := by
  rw [accepts, variadic, Admits, arity]
  cases p.rest with
  | none =>
    simp only [Option.isSome_none, Bool.false_eq_true, if_false, beq_iff_eq, forall_const]
    omega
  | some name => simp

theorem failsInOrder_of_not_admits (hcount : ¬ p.Admits args.length) {fault : Fault}
    (hkind : fault.kind = .arity) : p.FailsInOrder view args (.error (.fault fault)) where
  ends := Or.inr (Or.inl (raises_fault_iff.mpr hkind))
  arity := by simp [raises_fault_iff, hkind, hcount]
  wrongType := by simp [raises_fault_iff, hkind, hcount]
  zeroDivision := by simp [raises_fault_iff, hkind, hcount]
  tooLong := by simp [hcount]
  tooDeep := by simp [hcount]

/-- A first misfit whose message shows it. -/
theorem failsInOrder_of_shown (hcount : p.Admits args.length) {i : Nat} {v : Value}
    (hmisfit : p.operation.Misfit args i v) {shown : Text} (hshown : view.display v = .ok shown) :
    p.FailsInOrder view args
      (.error (.fault ((p.operation.demand i).complaint p.operation shown))) where
  ends := Or.inr (Or.inr (Or.inl (raises_fault_iff.mpr (Demand.kind_complaint _ _ _))))
  arity := by simp [raises_fault_iff, Demand.kind_complaint, hcount]
  wrongType := by
    simp [raises_fault_iff, Demand.kind_complaint, hcount, hmisfit.misfit_iff, hshown]
  zeroDivision := by simp [raises_fault_iff, Demand.kind_complaint, hmisfit.misfit_iff]
  tooLong := by simp [hmisfit.misfit_iff, hshown]
  tooDeep := by simp [hmisfit.misfit_iff, hshown, hmisfit.ne_equal]

/-- A first misfit that has no text. -/
theorem failsInOrder_of_not_shown (hcount : p.Admits args.length) {i : Nat} {v : Value}
    (hmisfit : p.operation.Misfit args i v) {e : Failure} (he : view.display v = .error e)
    (hlimit : e.IsLimit) : p.FailsInOrder view args (.error e) where
  ends := by
    rcases hlimit with rfl | rfl <;> simp
  arity := iff_of_false (hlimit.not_raises _) fun h => h hcount
  wrongType := iff_of_false (hlimit.not_raises _) (by simp [hmisfit.misfit_iff, he])
  zeroDivision := iff_of_false (hlimit.not_raises _) fun h => h.2.1 i v hmisfit
  tooLong := by simp [hcount, hmisfit.misfit_iff, he]
  tooDeep := by simp [hcount, hmisfit.misfit_iff, he, hmisfit.ne_equal]

/-- Arguments of the right kinds. -/
theorem failsInOrder_of_not_misfit (hcount : p.Admits args.length)
    (hfit : ∀ i v, ¬ p.operation.Misfit args i v)
    (hends : (∃ v, r = .ok v ∧ v.OfLanguage) ∨ Raises .zeroDivision r ∨ r = .error .nestingTooDeep)
    (hzero : Raises .zeroDivision r ↔ p.operation.ZeroDivisor args)
    (hdeep : r = .error .nestingTooDeep ↔
      ∃ a b, p.operation = .equal ∧ args = [a, b] ∧ view.compare a b = .error .nestingTooDeep) :
    p.FailsInOrder view args r := by
  have hothers : ¬ Raises .arity r ∧ ¬ Raises .wrongType r ∧ r ≠ .error .integerTooLong := by
    rcases hends with ⟨v, rfl, -⟩ | ⟨fault, rfl, hkind⟩ | rfl
    · simp [not_raises_ok]
    · simp [raises_fault_iff, hkind]
    · have hlimit : Failure.nestingTooDeep.IsLimit := Or.inl rfl
      simp [hlimit.not_raises]
  obtain ⟨harity, htype, hlong⟩ := hothers
  constructor
  · rcases hends with hvalue | hraises | hlimit
    · exact Or.inl hvalue
    · exact Or.inr (Or.inr (Or.inr (Or.inl hraises)))
    · simp [hlimit]
  · simp [harity, hcount]
  · simp [htype, hfit]
  · simp [hzero, hcount, hfit]
  · simp [hlong, hfit]
  · simp [hdeep, hcount, hfit]

/-- The ways in which an operation ends are told apart by what is wrong with the arguments. -/
theorem failsInOrder_of_ending (hcount : p.Admits args.length)
    (hending : p.operation.Ending view args r)
    (hdisplay : ∀ v, FailsAtLimit (view.display v))
    (hcompare : ∀ a b e, view.compare a b = .error e → e = .nestingTooDeep)
    (hvalue : ∀ v, r = .ok v → v.OfLanguage) : p.FailsInOrder view args r := by
  cases hending with
  | @misfit i v hmisfit =>
    rw [failShowing]
    cases hshown : view.display v with
    | ok shown => exact failsInOrder_of_shown hcount hmisfit hshown
    | error e => exact failsInOrder_of_not_shown hcount hmisfit hshown (hdisplay v e hshown)
  | zeroDivisor hfit hzero =>
    refine failsInOrder_of_not_misfit hcount hfit (Or.inr (Or.inl (raises_fault_iff.mpr rfl)))
      (iff_of_true (raises_fault_iff.mpr rfl) hzero) (iff_of_false (by simp) ?_)
    rintro ⟨a, b, hequal, -, -⟩
    rcases hzero.1 with h | h <;> simp [hequal] at h
  | @uncompared a b e hop hargs he =>
    -- A comparison fails at the limit on nesting only, and it admits arguments of all kinds.
    obtain rfl := hcompare a b e he
    have hlimit : Failure.nestingTooDeep.IsLimit := Or.inl rfl
    refine failsInOrder_of_not_misfit hcount (Operation.not_misfit_equal hop) (Or.inr (Or.inr rfl))
      (iff_of_false (hlimit.not_raises _) fun hzero => ?_) (iff_of_true rfl ⟨a, b, hop, hargs, he⟩)
    rcases hzero.1 with h | h <;> simp [hop] at h
  | @value v hfit hzero hsame =>
    refine failsInOrder_of_not_misfit hcount hfit (Or.inl ⟨v, rfl, hvalue v rfl⟩)
      (iff_of_false (not_raises_ok _ v) hzero) (iff_of_false (by simp) ?_)
    rintro ⟨a, b, hequal, hargs, hdeep⟩
    obtain ⟨same, hcompared⟩ := hsame a b hequal hargs
    simp [hcompared] at hdeep

/-- A call of a function of the catalog checks the number of the arguments first, then their kinds
from left to right, then the divisors, and ends with a value if they are right.  The limits on the
size of what a message shows, and of what `equal?` compares, stand for the errors that meet them. -/
theorem applyWith_failsInOrder {p : Primitive} (hp : p ∈ catalog) (s : Store) (depth : Nat)
    {args : List Value} (hargs : ∀ v ∈ args, v.OfLanguage) :
    p.FailsInOrder (s.view depth) args (p.applyWith (s.view depth) args) ∧
    (∀ v : Value, ((s.view depth).display v = .error .integerTooLong → v.ShowsLongInteger) ∧
      (v.isNestedWithin depth = true →
        ((s.view depth).display v = .error .integerTooLong ↔ v.ShowsLongInteger) ∧
        (s.view depth).display v ≠ .error .nestingTooDeep)) ∧
    ∀ a b : Value, a.isNestedWithin depth = true ∨ b.isNestedWithin depth = true →
      ∃ same, (s.view depth).compare a b = .ok same := by
  refine ⟨?_, Value.displayWithin_eq_integerTooLong s depth,
    fun a b => Value.exists_compareWithin_eq_ok⟩
  have hview : (s.view depth).FailsWithin (fun _ => True) args := View.failsWithin_true args _
  have hends := ends_applyWith Value.hereditary_ofLanguage p hargs hview fun _ _ => trivial
  rw [applyWith] at hends ⊢
  split at hends
  · rename_i haccepts
    rw [if_pos haccepts]
    refine failsInOrder_of_ending ((accepts_iff_admits p _).mp haccepts)
      (Operation.ending_run _ (fits_of_accepts hp haccepts))
      (Value.failsAtLimit_displayWithin s depth) ?_ ?_
    · intro a b e he
      rcases (s.view_upToLimit depth [a, b]).compare a (by simp) b (by simp) with h | ⟨-, h⟩
      · have hwhole : Except.error e = .ok (a.same b) := he.symm.trans h
        cases hwhole
      · exact Except.error.inj (he.symm.trans h)
    · intro v hv
      rw [hv] at hends
      exact hends
  · rename_i haccepts
    rw [if_neg haccepts]
    exact failsInOrder_of_not_admits (fun h => haccepts ((accepts_iff_admits p _).mpr h)) rfl

/-- The third argument of a division is none, after a divisor that is zero. -/
theorem applyWith_failsInOrder_divide :
    ofOperation ["n", "d"] (some "more") .divide ∈ catalog ∧
    (∀ v ∈ [Value.integer 1, .integer 0, .boolean true], v.OfLanguage) ∧
    ∃ r, r = (ofOperation ["n", "d"] (some "more") .divide).applyWith (Store.view 1 {})
        [.integer 1, .integer 0, .boolean true] ∧
      (ofOperation ["n", "d"] (some "more") .divide).FailsInOrder (Store.view 1 {})
        [.integer 1, .integer 0, .boolean true] r ∧
      r = .error (.fault (.integersExpected "/" "#t")) := by
  have hp : ofOperation ["n", "d"] (some "more") .divide ∈ catalog := by decide
  have hargs : ∀ v ∈ [Value.integer 1, .integer 0, .boolean true], v.OfLanguage := by
    simp [Value.OfLanguage.integer, Value.OfLanguage.boolean]
  exact ⟨hp, hargs, _, rfl, (applyWith_failsInOrder hp {} 1 hargs).1, rfl⟩

end Primitive

/-- The empty list in so many lists. -/
def Value.nested : Nat → Value
  | 0 => .list []
  | n + 1 => .list [nested n]

theorem Value.ofLanguage_nested (n : Nat) : (nested n).OfLanguage := by
  induction n with
  | zero => exact .list none (by simp)
  | succ n ih => exact .list none (by simpa using ih)

theorem Value.compareWithin_nested {depth n : Nat} (h : depth ≤ n) :
    compareWithin depth (nested n) (nested n) = .error .nestingTooDeep := by
  induction depth generalizing n with
  | zero => rfl
  | succ depth ih =>
    obtain ⟨n, rfl⟩ : ∃ m, n = m + 1 := ⟨n - 1, by omega⟩
    have hitems : compareWithin depth (nested n) (nested n) = .error .nestingTooDeep :=
      ih (Nat.le_of_succ_le_succ h)
    rw [nested, compareWithin, compareItems, hitems]
    rfl

/-- A comparison of lists nested beyond the limit neither returns nor raises an error of the
language, and has no integer to show. -/
theorem Primitive.apply_equal_nested :
    ∃ p ∈ catalog, p.name = "equal?" ∧
      (∀ v ∈ [Value.nested nestingLimit, .nested nestingLimit], v.OfLanguage) ∧
      ¬ ((∃ v, p.apply {} [.nested nestingLimit, .nested nestingLimit] = .ok v) ∨
        (∃ fault, p.apply {} [.nested nestingLimit, .nested nestingLimit]
          = .error (.fault fault)) ∨
        p.apply {} [.nested nestingLimit, .nested nestingLimit] = .error .integerTooLong) := by
  refine ⟨ofOperation ["a", "b"] none .equal, by decide, rfl, ?_, ?_⟩
  · simp [Value.ofLanguage_nested]
  · have hcompare : ((({} : Store).view nestingLimit).compare (.nested nestingLimit)
        (.nested nestingLimit)) = .error .nestingTooDeep :=
      Value.compareWithin_nested (Nat.le_refl _)
    have hend : (ofOperation ["a", "b"] none .equal).apply {}
        [.nested nestingLimit, .nested nestingLimit] = .error .nestingTooDeep := by
      have haccepts : (ofOperation ["a", "b"] none .equal).accepts 2 = true := rfl
      rw [apply, applyWith, List.length_cons, List.length_singleton, if_pos haccepts, ofOperation,
        Operation.run, hcompare]
      rfl
    rw [hend]
    simp

end SmallLisp
