import SmallLisp.Proofs.Correspondence.Value
/-!
Results that correspond to each other.

Two computations that correspond both succeed, or both fail of errors of the same kind: the wording
of an error has names in it.  Main statement: a call of a primitive on values that correspond gives
results that correspond.
-/

namespace SmallLisp

/-- Failures of the same kind: errors of one kind, or one and the same limit. -/
inductive Failure.SameKind : Failure → Failure → Prop
  | fault {a b : Fault} : a.kind = b.kind → SameKind (.fault a) (.fault b)
  | refl (e : Failure) : SameKind e e

/-- Results that are related by `P`, or failures of the same kind. -/
inductive Matches {α β : Type} (P : α → β → Prop) : Except Failure α → Except Failure β → Prop
  | ok {a : α} {b : β} : P a b → Matches P (.ok a) (.ok b)
  | error {e e' : Failure} : e.SameKind e' → Matches P (.error e) (.error e')

section Matches

variable {α α' β β' : Type} {P : α → α' → Prop} {Q : β → β' → Prop} {x : Except Failure α}
  {x' : Except Failure α'}

theorem Matches.bind {f : α → Except Failure β} {f' : α' → Except Failure β'}
    (h : Matches P x x') (hf : ∀ a a', P a a' → Matches Q (f a) (f' a')) :
    Matches Q (x >>= f) (x' >>= f') := by
  cases h with
  | ok hP => exact hf _ _ hP
  | error hkind => exact .error hkind

theorem Matches.exists_ok {a : α} (h : Matches P (.ok a) x') : ∃ a', x' = .ok a' ∧ P a a' := by
  cases h with
  | ok hp => exact ⟨_, rfl, hp⟩

theorem Matches.exists_of_ok {a' : α'} (h : Matches P x (.ok a')) : ∃ a, x = .ok a ∧ P a a' := by
  cases h with
  | ok hp => exact ⟨_, rfl, hp⟩

theorem Matches.exists_error {e : Failure} (h : Matches P (.error e) x') :
    ∃ e', x' = .error e' ∧ e.SameKind e' := by
  cases h with
  | error hkind => exact ⟨_, rfl, hkind⟩

theorem Matches.map {f : α → β} {f' : α' → β'} (h : Matches P x x')
    (hf : ∀ a a', P a a' → Q (f a) (f' a')) : Matches Q (x.map f) (x'.map f') := by
  cases h with
  | ok hp => exact .ok (hf _ _ hp)
  | error hkind => exact .error hkind

theorem Matches.and_ends {R : α → Prop} {E : Failure → Prop} (h : Matches P x x')
    (hends : Ends R E x) : Matches (fun a a' => R a ∧ P a a') x x' := by
  cases h with
  | ok hp => exact .ok ⟨hends, hp⟩
  | error hkind => exact .error hkind

theorem matches_eq (x : Except Failure α) : Matches Eq x x := by
  cases x with
  | ok a => exact .ok rfl
  | error e => exact .error (.refl e)

/-- Computations that fail alike. -/
theorem matches_of_failureOf? (h : failureOf? x = failureOf? x') :
    Matches (fun _ _ => True) x x' := by
  cases x with
  | ok a =>
    cases x' with
    | ok a' => exact .ok trivial
    | error e => cases h
  | error e =>
    cases x' with
    | ok a' => cases h
    | error e' =>
      obtain rfl := Option.some.inj h
      exact .error (.refl e)

end Matches

/-- Views that fail alike and compare alike on values and what stands for them. -/
structure View.Corresponds (value : Value → Value) (view view' : View) : Prop where
  display : ∀ v, failureOf? (view.display v) = failureOf? (view'.display (value v))
  compare : ∀ a b, view.compare a b = view'.compare (value a) (value b)

/-- Failures that show values which fail alike. -/
theorem matches_failShowing {α β : Type} {P : α → β → Prop} {view view' : View} {v v' : Value}
    (h : failureOf? (view.display v) = failureOf? (view'.display v')) {fault fault' : Text → Fault}
    (hkind : ∀ shown shown', (fault shown).kind = (fault' shown').kind) :
    Matches P (failShowing view v fault) (failShowing view' v' fault') :=
  (matches_of_failureOf? h).bind fun shown shown' _ => .error (.fault (hkind shown shown'))

namespace Operation

variable {K : Correspondence} {aliases : List Text} {view view' : View} {op : Operation}
  {args : List Value}

theorem matches_integers (h : view.Corresponds (K.value aliases) view') :
    Matches Eq (integers view op args) (integers view' op (args.map (K.value aliases))) := by
  induction args with
  | nil => exact matches_eq _
  | cons v rest ih =>
    have hfail : Matches Eq (failShowing view v (.integersExpected op.name))
        (failShowing view' (K.value aliases v) (.integersExpected op.name) :
          Except Failure (List Int)) :=
      matches_failShowing (h.display v) fun _ _ => rfl
    cases v with
    | integer n =>
      rw [List.map_cons, Correspondence.value_integer, integers, integers]
      exact ih.map fun _ _ h => congrArg (n :: ·) h
    | _ => simpa only [List.map_cons, Correspondence.value, integers] using hfail

theorem matches_listItems (h : view.Corresponds (K.value aliases) view') (v : Value) :
    Matches (fun items items' : List Value => items' = items.map (K.value aliases))
      (listItems view op v) (listItems view' op (K.value aliases v)) := by
  have hfail : Matches (fun items items' : List Value => items' = items.map (K.value aliases))
      (failShowing view v (.listExpected op.name))
      (failShowing view' (K.value aliases v) (.listExpected op.name)) :=
    matches_failShowing (h.display v) fun _ _ => rfl
  cases v with
  | list items identity =>
    rw [Correspondence.value_list]
    exact .ok rfl
  | _ => simpa only [Correspondence.value, listItems] using hfail

theorem matches_nonEmptyList (h : view.Corresponds (K.value aliases) view') (v : Value) :
    Matches (fun parts parts' : Value × List Value =>
        parts' = (K.value aliases parts.1, parts.2.map (K.value aliases)))
      (nonEmptyList view op v) (nonEmptyList view' op (K.value aliases v)) := by
  have hfail : Matches (fun parts parts' : Value × List Value =>
        parts' = (K.value aliases parts.1, parts.2.map (K.value aliases)))
      (failShowing view v (.nonEmptyListExpected op.name))
      (failShowing view' (K.value aliases v) (.nonEmptyListExpected op.name)) :=
    matches_failShowing (h.display v) fun _ _ => rfl
  cases v with
  | list items identity =>
    cases items with
    | nil => simpa only [Correspondence.value, List.map_nil, nonEmptyList] using hfail
    | cons first rest =>
      rw [Correspondence.value_list]
      exact .ok rfl
  | _ => simpa only [Correspondence.value, nonEmptyList] using hfail

theorem matches_onTwo (f : Int → Int → Except Failure Value)
    (hf : ∀ a b, Matches (fun v v' => v' = K.value aliases v) (f a b) (f a b))
    (numbers : List Int) :
    Matches (fun v v' => v' = K.value aliases v) (onTwo f numbers) (onTwo f numbers) := by
  rw [onTwo.eq_def]
  split
  · exact hf _ _
  · exact .error (.refl _)

theorem matches_boolean (b : Bool) :
    Matches (fun v v' => v' = K.value aliases v) (.ok (.boolean b)) (.ok (.boolean b)) :=
  .ok (Correspondence.value_boolean b).symm

theorem matches_integer (n : Int) :
    Matches (fun v v' => v' = K.value aliases v) (.ok (.integer n)) (.ok (.integer n)) :=
  .ok (Correspondence.value_integer n).symm

/-- An operation does the same to values and to what stands for them. -/
theorem matches_run (h : view.Corresponds (K.value aliases) view') :
    Matches (fun v v' => v' = K.value aliases v) (op.run view args)
      (op.run view' (args.map (K.value aliases))) := by
  have hintegers : Matches Eq (integers view op args)
      (integers view' op (args.map (K.value aliases))) := matches_integers h
  fun_cases run view op args with
  | case1 | case3 =>
    refine hintegers.bind fun numbers _ hnumbers => hnumbers ▸ matches_integer _
  | case2 =>
    refine hintegers.bind fun numbers _ hnumbers => ?_
    subst hnumbers
    split
    · exact .error (.refl _)
    · exact matches_integer _
    · exact matches_integer _
  | case4 =>
    refine hintegers.bind fun numbers _ hnumbers => ?_
    subst hnumbers
    split
    · exact .error (.refl _)
    · exact (matches_eq _).bind fun n _ hn => hn ▸ matches_integer n
  | case5 =>
    refine hintegers.bind fun numbers _ hnumbers => hnumbers ▸ matches_onTwo _ (fun a b => ?_) _
    split
    · exact .error (.refl _)
    · exact matches_integer _
  | case6 | case7 | case8 | case9 | case10 | case11 =>
    exact hintegers.bind fun numbers _ hnumbers =>
      hnumbers ▸ matches_onTwo _ (fun a b => matches_boolean _) _
  | case12 a b =>
    have hcompare : Matches Eq (view.compare a b)
        (view'.compare (K.value aliases a) (K.value aliases b)) :=
      h.compare a b ▸ matches_eq _
    exact hcompare.bind fun same _ hsame => hsame ▸ matches_boolean same
  | case13 v rest =>
    have htrue : (K.value aliases v).isTrue = v.isTrue := Correspondence.isTrue_value v
    exact htrue ▸ matches_boolean _
  | case14 =>
    have hall : (args.map (K.value aliases)).all Value.isTrue = args.all Value.isTrue := by
      simp only [List.all_map, Function.comp_def, Correspondence.isTrue_value]
    exact .ok (by rw [hall, Correspondence.value_boolean])
  | case15 =>
    have hany : (args.map (K.value aliases)).any Value.isTrue = args.any Value.isTrue := by
      simp only [List.any_map, Function.comp_def, Correspondence.isTrue_value]
    exact .ok (by rw [hany, Correspondence.value_boolean])
  | case16 x rest =>
    refine (matches_listItems h rest).bind fun items _ hitems => .ok ?_
    rw [hitems, Correspondence.value_list]
    rfl
  | case17 v rest =>
    exact (matches_nonEmptyList h v).bind fun parts _ hparts => .ok (by rw [hparts])
  | case18 v rest =>
    refine (matches_nonEmptyList h v).bind fun parts _ hparts => .ok ?_
    rw [hparts, Correspondence.value_list]
    rfl
  | case19 =>
    refine .ok ?_
    rw [Correspondence.value_list]
    rfl
  | case20 v rest =>
    refine (matches_listItems h v).bind fun items _ hitems => ?_
    rw [hitems, List.length_map]
    exact matches_integer _
  | case27 v rest =>
    have hfunction : (K.value aliases v).isFunction = v.isFunction :=
      Correspondence.isFunction_value v
    exact hfunction ▸ matches_boolean _
  | case21 v rest | case22 v rest | case23 v rest | case24 v rest | case25 v rest
  | case26 v rest =>
    rw [List.map_cons]
    cases v with
    | list items identity =>
      rw [Correspondence.value_list]
      cases items <;> exact matches_boolean _
    | _ =>
      simp only [Correspondence.value]
      exact matches_boolean _
  | case28 =>
    rw [run]
    exact .error (.refl _)
    all_goals
      intros
      simp_all [List.map_eq_cons_iff]

end Operation

section Views

variable {K : Correspondence} {aliases : List Text} {view view' : View}

/-- A call of a primitive does the same to values and to what stands for them. -/
theorem Primitive.matches_applyWith (h : view.Corresponds (K.value aliases) view') (p : Primitive)
    (args : List Value) :
    Matches (fun v v' => v' = K.value aliases v) (p.applyWith view args)
      (p.applyWith view' (args.map (K.value aliases))) := by
  rw [applyWith, applyWith, List.length_map]
  split
  · exact Operation.matches_run h
  · exact .error (.refl _)

/-- What is shown in messages fails alike in any two stores. -/
theorem Correspondence.view_corresponds (K : Correspondence) (aliases : List Text) (depth : Nat)
    (s s' : Store) : (s.view depth).Corresponds (K.value aliases) (s'.view depth) where
  display v := by
    rw [Store.view, Store.view, Value.failureOf?_displayWithin, Value.failureOf?_displayWithin,
      displayStop_value]
  compare a b := (compareWithin_value depth a b).symm

end Views

end SmallLisp
