import SmallLisp.Proofs.Primitive
/-!
What showing and comparing values can fail of.

Main statements: an integer with too many digits and lists nested too deep are the only reasons for
which a value has no text, in the echoed and in the tagged form, or cannot be compared.
-/

namespace SmallLisp

/-- The failures at a limit on the size of values. -/
def Failure.IsLimit (e : Failure) : Prop :=
  e = .nestingTooDeep ∨ e = .integerTooLong

instance (e : Failure) : Decidable e.IsLimit :=
  inferInstanceAs (Decidable (_ ∨ _))

/-- The failures that a program can run into: the errors of the language, and the limits. -/
def Failure.IsOrdinary (e : Failure) : Prop :=
  (∃ fault, e = .fault fault) ∨ e.IsLimit

theorem Failure.isOrdinary_fault (fault : Fault) : (Failure.fault fault).IsOrdinary :=
  Or.inl ⟨fault, rfl⟩

theorem Failure.isOrdinary_nestingTooDeep : Failure.nestingTooDeep.IsOrdinary :=
  Or.inr (Or.inl rfl)

/-- A computation that fails at a limit if it fails. -/
def FailsAtLimit {α : Type} (x : Except Failure α) : Prop :=
  ∀ e, x = .error e → e.IsLimit

section FailsAtLimit

variable {α β : Type} {x : Except Failure α}

theorem failsAtLimit_ok (a : α) : FailsAtLimit (.ok a) := by
  rintro e ⟨⟩

theorem failsAtLimit_nestingTooDeep : FailsAtLimit (.error .nestingTooDeep : Except Failure α) := by
  rintro e ⟨⟩
  exact Or.inl rfl

theorem FailsAtLimit.bind {f : α → Except Failure β} (h : FailsAtLimit x)
    (hf : ∀ a, FailsAtLimit (f a)) : FailsAtLimit (x >>= f) := by
  cases x with
  | error e =>
    rintro e' ⟨⟩
    exact h e rfl
  | ok a => exact hf a

theorem FailsAtLimit.ends (h : FailsAtLimit x) {E : Failure → Prop}
    (hlimit : ∀ e, e.IsLimit → E e) : Ends (fun _ => True) E x := by
  cases x with
  | error e => exact hlimit e (h e rfl)
  | ok a => trivial

theorem failsAtLimit_orTooLong (text : Option α) : FailsAtLimit (Value.orTooLong text) := by
  cases text with
  | none =>
    rintro e ⟨⟩
    exact Or.inr rfl
  | some a => exact failsAtLimit_ok a

theorem failsAtLimit_mapM {f : α → Except Failure β} {xs : List α}
    (h : ∀ a ∈ xs, FailsAtLimit (f a)) : FailsAtLimit (xs.mapM f) := by
  induction xs with
  | nil => exact failsAtLimit_ok []
  | cons a rest ih =>
    rw [List.mapM_cons]
    apply (h a List.mem_cons_self).bind
    intro b
    apply (ih fun c hc => h c (List.mem_cons_of_mem a hc)).bind
    exact fun bs => failsAtLimit_ok (b :: bs)

end FailsAtLimit

namespace Value

theorem failsAtLimit_displayWithin (s : Store) (depth : Nat) (v : Value) :
    FailsAtLimit (displayWithin s depth v) := by
  induction depth generalizing v with
  | zero => exact failsAtLimit_nestingTooDeep
  | succ depth ih =>
    cases v with
    | integer n => exact failsAtLimit_orTooLong _
    | list items identity =>
      have htexts : FailsAtLimit (items.mapM (displayWithin s depth)) :=
        failsAtLimit_mapM fun item _ => ih item
      exact htexts.bind fun texts => failsAtLimit_ok _
    | _ => exact failsAtLimit_ok _

theorem failsAtLimit_shownBindings (s : Store) (depth : Nat) (bindings : List (Text × Value)) :
    FailsAtLimit (shownBindings s depth bindings) := by
  induction bindings with
  | nil => exact failsAtLimit_ok []
  | cons entry rest ih =>
    obtain ⟨name, v⟩ := entry
    have hshown : FailsAtLimit (do
        let text ← displayWithin s depth v
        let texts ← shownBindings s depth rest
        return (name ++ "=" ++ text) :: texts) := by
      apply (failsAtLimit_displayWithin s depth v).bind
      intro text
      exact ih.bind fun texts => failsAtLimit_ok ((name ++ "=" ++ text) :: texts)
    cases v with
    | primitive identity p => exact ih
    | _ =>
      rw [shownBindings]
      · exact hshown
      · rintro identity p ⟨⟩

theorem failsAtLimit_frameTextWithin (s : Store) (depth : Nat) (f : FrameId) :
    FailsAtLimit (s.frameTextWithin depth f) := by
  have hbindings : FailsAtLimit (s.bindingsTextWithin depth f) :=
    (failsAtLimit_shownBindings s depth _).bind fun texts => failsAtLimit_ok _
  exact hbindings.bind fun text => failsAtLimit_ok _

theorem failsAtLimit_detailedWithin (s : Store) (depth : Nat) (v : Value) :
    FailsAtLimit (detailedWithin s depth v) := by
  induction depth generalizing v with
  | zero => exact failsAtLimit_nestingTooDeep
  | succ depth ih =>
    cases v with
    | integer n =>
      have htext : FailsAtLimit (integerText n) := failsAtLimit_orTooLong _
      exact htext.bind fun text => failsAtLimit_ok _
    | list items identity =>
      cases items with
      | nil => exact failsAtLimit_ok _
      | cons item rest =>
        have htexts : FailsAtLimit ((item :: rest).mapM (detailedWithin s depth)) :=
          failsAtLimit_mapM fun v _ => ih v
        exact htexts.bind fun texts => failsAtLimit_ok _
    | closure identity formals body frame =>
      apply (failsAtLimit_displayWithin s depth body).bind
      intro bodyText
      exact (failsAtLimit_frameTextWithin s depth frame).bind fun text => failsAtLimit_ok _
    | _ => exact failsAtLimit_ok _

theorem failsAtLimit_compareWithin (depth : Nat) (a b : Value) :
    FailsAtLimit (compareWithin depth a b) := by
  induction depth generalizing a b with
  | zero => exact failsAtLimit_nestingTooDeep
  | succ depth ih =>
    cases a with
    | list xs i =>
      cases b with
      | list ys j =>
        rw [compareWithin]
        split
        · exact failsAtLimit_ok true
        · induction xs generalizing ys with
          | nil => cases ys <;> exact failsAtLimit_ok _
          | cons x xs ih' =>
            cases ys with
            | nil => exact failsAtLimit_ok false
            | cons y ys =>
              apply (ih x y).bind
              intro same
              cases same with
              | false => exact failsAtLimit_ok false
              | true => exact ih' ys
      | _ => exact failsAtLimit_ok _
    | _ => exact failsAtLimit_ok _

end Value

end SmallLisp
