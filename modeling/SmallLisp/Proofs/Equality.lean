import SmallLisp.Proofs.Evaluation.History
import SmallLisp.Proofs.Primitive.Order
import SmallLisp.Proofs.Reading.Readable
/-!
What `equal?` tells apart.

Two values have the same structure if they are built in the same way of the same atoms and
functions, whatever lists they share.  That is so if and only if they become one value when the
identities of lists are forgotten, and no function of the catalog other than `equal?` looks at these
identities.  Main statement: in every store that is reached, `equal?` tells whether two values have
the same structure, unless both are nested beyond the limit; it is an equivalence whose classes no
primitive and no text takes apart.
-/

namespace SmallLisp

namespace Value

/-- The kinds of values. -/
inductive Kind
  | symbol | integer | boolean | emptyList | pair | function | foreign
deriving DecidableEq, Repr

/-- The kind of a value. -/
def kind : Value → Kind
  | .symbol _ => .symbol
  | .integer _ => .integer
  | .boolean _ => .boolean
  | .list [] _ => .emptyList
  | .list (_ :: _) _ => .pair
  | .primitive .. | .closure .. => .function
  | .foreign _ => .foreign

/-- The same atom, the same function, or lists of one length with elements of the same structure in
the same places. -/
inductive SameStructure : Value → Value → Prop
  | symbol (name : Text) : SameStructure (.symbol name) (.symbol name)
  | integer (n : Int) : SameStructure (.integer n) (.integer n)
  | boolean (b : Bool) : SameStructure (.boolean b) (.boolean b)
  | function {v : Value} : v.isFunction = true → SameStructure v v
  | list {xs ys : List Value} (i j : Option Nat) : xs.length = ys.length →
      (∀ (place : Nat) (x y : Value), xs[place]? = some x → ys[place]? = some y →
        SameStructure x y) →
      SameStructure (.list xs i) (.list ys j)
  /-- Data of an embedding program. -/
  | foreign (text : Option Text) : SameStructure (.foreign text) (.foreign text)

/-- Results that are values of the same structure, or one and the same failure. -/
inductive SameResult : Except Failure Value → Except Failure Value → Prop
  | ok {a b : Value} : a.SameStructure b → SameResult (.ok a) (.ok b)
  | error (e : Failure) : SameResult (.error e) (.error e)

end Value

/-- What a call of `equal?` answers for values of a store with a history, in lists nested at most
`depth` deep. -/
structure Primitive.TellsStructure (p : Primitive) (s : Store) (made : List Value) (depth : Nat) :
    Prop where
  /-- It meets the limit only if both values are nested beyond it. -/
  answers : ∀ a b : Value, a.MadeOf made → b.MadeOf made →
    (∃ answer, p.applyWith (s.view depth) [a, b] = .ok (.boolean answer) ∧
      (answer = true ↔ a.SameStructure b)) ∨
    p.applyWith (s.view depth) [a, b] = .error .nestingTooDeep ∧
      a.isNestedWithin depth = false ∧ b.isNestedWithin depth = false
  otherKind : ∀ a b : Value, a.MadeOf made → b.MadeOf made → a.kind ≠ b.kind → 0 < depth →
    p.applyWith (s.view depth) [a, b] = .ok (.boolean false)
  /-- A list that has been made equals itself, however deep it is nested. -/
  reflexive : ∀ a : Value, a.MadeOf made →
    a.isNestedWithin depth = true ∨ a.identity? ≠ none ∧ 0 < depth →
    p.applyWith (s.view depth) [a, a] = .ok (.boolean true)
  symmetric : ∀ a b : Value,
    p.applyWith (s.view depth) [a, b] = p.applyWith (s.view depth) [b, a]
  transitive : ∀ a b c : Value, a.MadeOf made → b.MadeOf made → c.MadeOf made →
    p.applyWith (s.view depth) [a, b] = .ok (.boolean true) →
    p.applyWith (s.view depth) [b, c] = .ok (.boolean true) →
    p.applyWith (s.view depth) [a, c] = .ok (.boolean true)

/-- What values of the same structure have in common, and what is made of them. -/
structure Store.KeepsStructure (s : Store) : Prop where
  equivalence : Equivalence Value.SameStructure
  kind : ∀ a b : Value, a.SameStructure b → a.kind = b.kind
  singleton : ∀ (v : Value) (identity : Option Nat), ¬ Value.SameStructure (.list [v] identity) v
  length : ∀ (xs ys : List Value) (i j : Option Nat),
    Value.SameStructure (.list xs i) (.list ys j) → xs.length = ys.length
  pair : ∀ (x y : Value) (xs ys : List Value) (i j i' j' : Option Nat),
    Value.SameStructure (.list (x :: xs) i) (.list (y :: ys) j) ↔
      x.SameStructure y ∧ Value.SameStructure (.list xs i') (.list ys j')
  identified : ∀ (v : Value) (identity : Nat), (v.identified identity).SameStructure v
  display : ∀ a b : Value, a.SameStructure b → ∀ depth,
    a.displayWithin s depth = b.displayWithin s depth
  /-- The other primitives, those that make and take apart lists among them, do the same. -/
  others : ∀ p : Primitive, p.operation ≠ .equal → ∀ (depth : Nat) (args args' : List Value),
    List.Forall₂ Value.SameStructure args args' →
    Value.SameResult (p.applyWith (s.view depth) args) (p.applyWith (s.view depth) args')

namespace Value

section Structure

variable {a b c : Value}

/-- A value that is no list has the structure of no other value. -/
theorem eq_of_bare_eq (hb : ∀ items identity, b ≠ .list items identity)
    (h : a.bare = b.bare) : a = b := by
  cases b with
  | list items identity => exact absurd rfl (hb items identity)
  | _ => cases a <;> simp_all [bare]

theorem bare_list_map_bare (items : List Value) (identity : Option Nat) :
    bare (.list (items.map bare) identity) = bare (.list items identity) := by
  rw [bare_list, bare_list, map_bare_map_bare]

theorem SameStructure.bare_eq (h : a.SameStructure b) : a.bare = b.bare := by
  induction h with
  | @list xs ys i j hlength _ ih =>
    have hitems : xs.map bare = ys.map bare := by
      apply List.ext_getElem
      · rw [List.length_map, List.length_map, hlength]
      · intro place hx hy
        rw [List.getElem_map, List.getElem_map]
        exact ih place _ _ (List.getElem?_eq_getElem _) (List.getElem?_eq_getElem _)
    rw [bare_list, bare_list, hitems]
  | _ => rfl

mutual

theorem sameStructure_of_bare_eq : ∀ {a b : Value}, a.bare = b.bare → a.SameStructure b
  | .list xs i, b, h => by
      cases b with
      | list ys j =>
        rw [bare_list, bare_list, list.injEq] at h
        refine .list i j ?_ fun place x y => sameStructure_of_map_bare_eq h.1 place
        simpa using congrArg List.length h.1
      | _ => simp [bare] at h
  | .symbol name, b, h => by
      obtain rfl := eq_of_bare_eq (by simp) h.symm
      exact .symbol name
  | .integer n, b, h => by
      obtain rfl := eq_of_bare_eq (by simp) h.symm
      exact .integer n
  | .boolean v, b, h => by
      obtain rfl := eq_of_bare_eq (by simp) h.symm
      exact .boolean v
  | .primitive .., b, h | .closure .., b, h => by
      obtain rfl := eq_of_bare_eq (by simp) h.symm
      exact .function rfl
  | .foreign text, b, h => by
      obtain rfl := eq_of_bare_eq (by simp) h.symm
      exact .foreign text

theorem sameStructure_of_map_bare_eq : ∀ {xs ys : List Value}, xs.map bare = ys.map bare →
    ∀ (place : Nat) {x y : Value}, xs[place]? = some x → ys[place]? = some y → x.SameStructure y
  | [], _, _, _, _, _, hx, _ => by cases hx
  | x :: xs, [], h, _, _, _, _, _ => by cases h
  | x :: xs, y :: ys, h, place, x', y', hx, hy => by
      obtain ⟨hhead, htail⟩ := List.cons.inj h
      cases place with
      | zero =>
        cases hx
        cases hy
        exact sameStructure_of_bare_eq hhead
      | succ place => exact sameStructure_of_map_bare_eq htail place hx hy

end

/-- Structure is what is left when the identities of lists are forgotten. -/
theorem sameStructure_iff : a.SameStructure b ↔ a.bare = b.bare :=
  ⟨SameStructure.bare_eq, sameStructure_of_bare_eq⟩

theorem sameResult_iff {r r' : Except Failure Value} :
    SameResult r r' ↔ r.map bare = r'.map bare := by
  constructor
  · intro h
    cases h with
    | ok h => exact congrArg Except.ok h.bare_eq
    | error e => rfl
  · intro h
    cases r with
    | error e =>
      cases r' with
      | error e' =>
        cases h
        exact .error e
      | ok v' => cases h
    | ok v =>
      cases r' with
      | error e' => cases h
      | ok v' => exact .ok (sameStructure_of_bare_eq (Except.ok.inj h))

theorem equivalence_sameStructure : Equivalence SameStructure where
  refl _ := sameStructure_iff.mpr rfl
  symm h := sameStructure_iff.mpr h.bare_eq.symm
  trans h h' := sameStructure_iff.mpr (h.bare_eq.trans h'.bare_eq)

theorem SameStructure.kind_eq (h : a.SameStructure b) : a.kind = b.kind := by
  cases h with
  | @list xs ys _ _ hlength => cases xs <;> cases ys <;> simp at hlength <;> rfl
  | _ => rfl

/-- A list is larger than its element. -/
theorem not_sameStructure_singleton (v : Value) (identity : Option Nat) :
    ¬ SameStructure (.list [v] identity) v := by
  intro h
  have hbare := h.bare_eq
  rw [bare_list, List.map_singleton] at hbare
  have hsize := congrArg sizeOf hbare
  simp only [Value.list.sizeOf_spec, List.cons.sizeOf_spec] at hsize
  omega

theorem sameStructure_identified (v : Value) (identity : Nat) :
    SameStructure (v.identified identity) v :=
  sameStructure_iff.mpr (bare_identified v identity)

/-- No text shows the identity of a list. -/
theorem displayWithin_bare (s : Store) (depth : Nat) (v : Value) :
    displayWithin s depth v.bare = displayWithin s depth v := by
  induction depth generalizing v with
  | zero => rfl
  | succ depth ih =>
    cases v with
    | list items identity =>
      have hcomp : displayWithin s depth ∘ bare = displayWithin s depth := funext ih
      rw [bare_list, displayWithin, displayWithin, List.mapM_map, hcomp]
    | _ =>
      rw [bare]
      simp

end Structure

end Value

namespace Operation

open Value

variable {view : View} {op : Operation} {args : List Value}

theorem failShowing_bare {α : Type} (hview : ∀ v, view.display v.bare = view.display v)
    (v : Value) (fault : Text → Fault) :
    (failShowing view v.bare fault : Except Failure α) = failShowing view v fault := by
  rw [failShowing, failShowing, hview]

theorem integers_bare (hview : ∀ v, view.display v.bare = view.display v) :
    integers view op (args.map bare) = integers view op args := by
  induction args with
  | nil => rfl
  | cons v rest ih =>
    cases v with
    | integer n =>
      rw [List.map_cons, bare, integers, integers, ih]
      simp
    | list items identity =>
      rw [List.map_cons]
      have hshown := failShowing_bare (α := List Int) hview (.list items identity)
        (.integersExpected op.name)
      rw [bare_list] at hshown ⊢
      exact hshown
    | _ =>
      rw [List.map_cons, bare]
      · rfl
      · simp

theorem map_failShowing {α β : Type} (f : α → β) (v : Value) (fault : Text → Fault) :
    (failShowing view v fault).map f = failShowing view v fault := by
  rw [failShowing, failShowing]
  cases view.display v <;> rfl

theorem listItems_bare (v : Value) :
    listItems view op v.bare = (listItems view op v).map (List.map bare) := by
  cases v with
  | list items identity =>
    rw [bare_list]
    rfl
  | _ =>
    rw [bare]
    · exact (map_failShowing _ _ _).symm
    · simp

theorem nonEmptyList_bare (hview : ∀ v, view.display v.bare = view.display v) (v : Value) :
    nonEmptyList view op v.bare =
      (nonEmptyList view op v).map fun parts => (parts.1.bare, parts.2.map bare) := by
  cases v with
  | list items identity =>
    cases items with
    | nil =>
      have hshown := failShowing_bare (α := Value × List Value) hview (.list [] identity)
        (.nonEmptyListExpected op.name)
      rw [bare_list] at hshown ⊢
      exact hshown.trans (map_failShowing _ _ _).symm
    | cons x xs =>
      rw [bare_list]
      rfl
  | _ =>
    rw [bare]
    · exact (map_failShowing _ _ _).symm
    · simp

theorem isTrue_bare (v : Value) : v.bare.isTrue = v.isTrue := by
  cases v <;> simp [bare, Value.isTrue]

/-- No operation but the comparison of values looks at the identities of lists. -/
theorem map_bare_run (hview : ∀ v, view.display v.bare = view.display v) (hop : op ≠ .equal) :
    (op.run view (args.map bare)).map bare = (op.run view args).map bare := by
  have hintegers : integers view op (args.map bare) = integers view op args :=
    integers_bare hview
  have htrue : Value.isTrue ∘ bare = Value.isTrue := funext isTrue_bare
  fun_cases run view op args with
  | case1 | case2 | case3 | case4 | case5 | case6 | case7 | case8 | case9 | case10 | case11 =>
    rw [run, hintegers]
  | case12 => exact absurd rfl hop
  | case13 v rest => rw [List.map_cons, run, isTrue_bare]
  | case14 => rw [run, List.all_map, htrue]
  | case15 => rw [run, List.any_map, htrue]
  | case16 x rest =>
    rw [List.map_cons, List.map_singleton, run, listItems_bare]
    cases listItems view cons rest with
    | error e => rfl
    | ok items => exact congrArg Except.ok (bare_list_map_bare (x :: items) none)
  | case17 v rest =>
    rw [List.map_cons, run, nonEmptyList_bare hview]
    cases nonEmptyList view car v with
    | error e => rfl
    | ok parts => exact congrArg Except.ok (bare_bare parts.1)
  | case18 v rest =>
    rw [List.map_cons, run, nonEmptyList_bare hview]
    cases nonEmptyList view cdr v with
    | error e => rfl
    | ok parts => exact congrArg Except.ok (bare_list_map_bare parts.2 none)
  | case19 => exact congrArg Except.ok (bare_list_map_bare args none)
  | case20 v rest =>
    rw [List.map_cons, run, listItems_bare]
    cases listItems view length v with
    | error e => rfl
    | ok items =>
      have hlength : (items.map bare).length = items.length := List.length_map bare
      exact congrArg (fun count : Nat => Except.ok (Value.integer count).bare) hlength
  | case21 v rest | case22 v rest | case23 v rest | case24 v rest | case25 v rest | case26 v rest
  | case27 v rest =>
    rw [List.map_cons]
    cases v with
    | list items identity =>
      rw [bare_list]
      cases items <;> rfl
    | _ =>
      rw [bare]
      · rfl
      · simp
  | case28 =>
    rw [run]
    all_goals
      intros
      simp_all [List.map_eq_cons_iff]

end Operation

/-- A call of another function of the catalog does the same to values of the same structure. -/
theorem Primitive.sameResult_applyWith {p : Primitive} {view : View}
    (hview : ∀ v : Value, view.display v.bare = view.display v) (hp : p.operation ≠ .equal)
    {args args' : List Value} (hargs : List.Forall₂ Value.SameStructure args args') :
    Value.SameResult (p.applyWith view args) (p.applyWith view args') := by
  have hbare : args.map Value.bare = args'.map Value.bare := by
    induction hargs with
    | nil => rfl
    | cons h _ ih => rw [List.map_cons, List.map_cons, h.bare_eq, ih]
  have hlength : args.length = args'.length := by simpa using congrArg List.length hbare
  rw [Value.sameResult_iff, applyWith, applyWith, hlength]
  split
  · rw [← Operation.map_bare_run hview hp, hbare, Operation.map_bare_run hview hp]
  · rfl

namespace Value

section Comparison

variable {s : Store} {made : List Value} {depth : Nat} {a b c : Value}

theorem isSame_iff {i j : Option Nat} : isSame i j = true ↔ i = j ∧ j ≠ none := by
  cases i <;> cases j <;> simp [isSame]

/-- A list that two values share is one value. -/
theorem eq_of_isSame (h : s.Records made) {xs ys : List Value} {i j : Option Nat}
    (ha : (list xs i).MadeOf made) (hb : (list ys j).MadeOf made) (hshared : isSame i j = true) :
    list xs i = list ys j :=
  h.eq_of_identity? ha hb (isSame_iff.mp hshared).1 (isSame_iff.mp hshared).2

mutual

/-- What is equal, whatever the nesting, has the same structure. -/
theorem same_iff_bare_eq (h : s.Records made) : ∀ {a b : Value}, a.MadeOf made → b.MadeOf made →
    (same a b = true ↔ a.bare = b.bare)
  | .list xs i, b, ha, hb => by
      cases b with
      | list ys j =>
        have hitems : sameItems xs ys = true ↔ xs.map bare = ys.map bare :=
          sameItems_iff_map_bare_eq h (fun v hv => ha.item hv) fun v hv => hb.item hv
        rw [same, Bool.or_eq_true, hitems]
        constructor
        · rintro (hshared | hequal)
          · rw [eq_of_isSame h ha hb hshared]
          · rw [bare_list, bare_list, hequal]
        · intro hbare
          rw [bare_list, bare_list, list.injEq] at hbare
          exact Or.inr hbare.1
      | _ => simp [same, equal, bare]
  | .primitive .., b, ha, hb | .closure .., b, ha, hb => by
      cases b with
      | primitive | closure => simpa [same, bare] using h.equal_iff_eq ha hb rfl
      | _ => simp [same, equal, bare]
  | .symbol _, b, _, _ | .integer _, b, _, _ | .boolean _, b, _, _ | .foreign _, b, _, _ => by
      cases b <;> simp [same, equal, bare]

theorem sameItems_iff_map_bare_eq (h : s.Records made) : ∀ {xs ys : List Value},
    (∀ v ∈ xs, v.MadeOf made) → (∀ v ∈ ys, v.MadeOf made) →
    (sameItems xs ys = true ↔ xs.map bare = ys.map bare)
  | [], [], _, _ => by simp [sameItems]
  | [], _ :: _, _, _ | _ :: _, [], _, _ => by simp [sameItems]
  | x :: xs, y :: ys, hxs, hys => by
      obtain ⟨hx, hxs⟩ := List.forall_mem_cons.mp hxs
      obtain ⟨hy, hys⟩ := List.forall_mem_cons.mp hys
      rw [sameItems, Bool.and_eq_true, same_iff_bare_eq h hx hy,
        sameItems_iff_map_bare_eq h hxs hys, List.map_cons, List.map_cons, List.cons.injEq]

end

/-- What a comparison says if it does not meet the limit. -/
theorem compareWithin_iff (h : s.Records made) (ha : a.MadeOf made) (hb : b.MadeOf made)
    {answer : Bool} (hcompare : compareWithin depth a b = .ok answer) :
    answer = true ↔ a.SameStructure b := by
  have hview := (s.view_upToLimit depth [a, b]).compare a (by simp) b (by simp)
  have hsame : compareWithin depth a b = .ok (same a b) :=
    hview.eq_of_ne (by simp [Store.view, hcompare])
  obtain rfl : answer = same a b := Except.ok.inj (hcompare.symm.trans hsame)
  rw [same_iff_bare_eq h ha hb, sameStructure_iff]

/-- A comparison meets the limit only if both values are nested beyond it. -/
theorem compareWithin_cases (h : s.Records made) (depth : Nat) (ha : a.MadeOf made)
    (hb : b.MadeOf made) :
    (∃ answer, compareWithin depth a b = .ok answer ∧ (answer = true ↔ a.SameStructure b)) ∨
      compareWithin depth a b = .error .nestingTooDeep ∧ a.isNestedWithin depth = false ∧
        b.isNestedWithin depth = false := by
  by_cases hnested : a.isNestedWithin depth = true ∨ b.isNestedWithin depth = true
  · obtain ⟨answer, hcompare⟩ := exists_compareWithin_eq_ok hnested
    exact Or.inl ⟨answer, hcompare, compareWithin_iff h ha hb hcompare⟩
  · rw [not_or, Bool.not_eq_true, Bool.not_eq_true] at hnested
    rcases (s.view_upToLimit depth [a, b]).compare a (by simp) b (by simp) with hwhole | ⟨-, hdeep⟩
    · exact Or.inl ⟨_, hwhole, compareWithin_iff h ha hb hwhole⟩
    · exact Or.inr ⟨hdeep, hnested⟩

/-- A comparison of elements that finds no difference. -/
theorem compareItems_eq_true_iff {compare : Value → Value → Except Failure Bool}
    {xs ys : List Value} : compareItems compare xs ys = .ok true ↔ xs.length = ys.length ∧
      ∀ (place : Nat) (x y : Value), xs[place]? = some x → ys[place]? = some y →
        compare x y = .ok true := by
  induction xs generalizing ys with
  | nil => cases ys <;> simp [compareItems]
  | cons x xs ih =>
    cases ys with
    | nil => simp [compareItems]
    | cons y ys =>
      have hstep : compareItems compare (x :: xs) (y :: ys) = .ok true ↔
          compare x y = .ok true ∧ compareItems compare xs ys = .ok true := by
        rw [compareItems]
        cases compare x y with
        | error e => simp [bind, Except.bind]
        | ok answer => cases answer <;> simp [bind, Except.bind]
      rw [hstep, ih, List.length_cons, List.length_cons, Nat.add_right_cancel_iff]
      constructor
      · rintro ⟨hfirst, hlength, hrest⟩
        refine ⟨hlength, fun place x' y' hx hy => ?_⟩
        cases place with
        | zero =>
          cases hx
          cases hy
          exact hfirst
        | succ place => exact hrest place x' y' hx hy
      · rintro ⟨hlength, hall⟩
        exact ⟨hall 0 x y rfl rfl, hlength, fun place => hall (place + 1)⟩

theorem compareItems_comm {compare : Value → Value → Except Failure Bool}
    (h : ∀ x y, compare x y = compare y x) (xs ys : List Value) :
    compareItems compare xs ys = compareItems compare ys xs := by
  induction xs generalizing ys with
  | nil => cases ys <;> rfl
  | cons x xs ih =>
    cases ys with
    | nil => rfl
    | cons y ys => rw [compareItems, compareItems, h x y, ih ys]

theorem isSame_comm (i j : Option Nat) : isSame i j = isSame j i := by
  cases i <;> cases j <;> simp [isSame, Bool.beq_comm]

theorem compareWithin_comm (depth : Nat) (a b : Value) :
    compareWithin depth a b = compareWithin depth b a := by
  induction depth generalizing a b with
  | zero => rfl
  | succ depth ih =>
    cases a with
    | list xs i =>
      cases b with
      | list ys j => rw [compareWithin, compareWithin, isSame_comm, compareItems_comm ih]
      | _ => rfl
    | _ => cases b <;> simp [compareWithin, equal, Bool.beq_comm]

/-- What equals the same value at the limit is equal at the limit. -/
theorem compareWithin_trans (h : s.Records made) (ha : a.MadeOf made) (hb : b.MadeOf made)
    (hc : c.MadeOf made) (hab : compareWithin depth a b = .ok true)
    (hbc : compareWithin depth b c = .ok true) : compareWithin depth a c = .ok true := by
  induction depth generalizing a b c with
  | zero => cases hab
  | succ depth ih =>
    by_cases hlist : ∃ ys j, b = list ys j
    · obtain ⟨ys, j, rfl⟩ := hlist
      cases a with
      | list xs i =>
        cases c with
        | list zs k =>
          -- Where a list is shared, the other comparison is the one in question.
          by_cases hij : isSame i j = true
          · rw [eq_of_isSame h ha hb hij]
            exact hbc
          by_cases hjk : isSame j k = true
          · rw [← eq_of_isSame h hb hc hjk]
            exact hab
          rw [compareWithin, if_neg hij, compareItems_eq_true_iff] at hab
          rw [compareWithin, if_neg hjk, compareItems_eq_true_iff] at hbc
          rw [compareWithin]
          split
          · rfl
          rw [compareItems_eq_true_iff]
          refine ⟨hab.1.trans hbc.1, fun place x z hx hz => ?_⟩
          have hplace : place < ys.length := hab.1 ▸ (List.getElem?_eq_some_iff.mp hx).1
          have hy := List.getElem?_eq_getElem hplace
          exact ih (ha.item (List.mem_of_getElem? hx)) (hb.item (List.mem_of_getElem? hy))
            (hc.item (List.mem_of_getElem? hz)) (hab.2 place x _ hx hy) (hbc.2 place _ z hy hz)
        | _ => cases hbc
      | _ => cases hab
    · have hbare := ((compareWithin_iff h ha hb hab).mp rfl).bare_eq
      have hatom : ∀ items identity, b ≠ list items identity :=
        fun items identity heq => hlist ⟨items, identity, heq⟩
      rw [eq_of_bare_eq hatom hbare]
      exact hbc

theorem compareWithin_of_kind_ne (h : s.Records made) (ha : a.MadeOf made) (hb : b.MadeOf made)
    (hkind : a.kind ≠ b.kind) : compareWithin (depth + 1) a b = .ok false := by
  obtain ⟨answer, hcompare⟩ : ∃ answer, compareWithin (depth + 1) a b = .ok answer := by
    cases a with
    | list xs i =>
      cases b with
      | list ys j =>
        rw [compareWithin]
        split
        · exact ⟨true, rfl⟩
        · cases xs <;> cases ys
          · exact absurd rfl hkind
          · exact ⟨false, rfl⟩
          · exact ⟨false, rfl⟩
          · exact absurd rfl hkind
      | _ => exact ⟨_, rfl⟩
    | _ => exact ⟨_, rfl⟩
  cases answer with
  | false => exact hcompare
  | true => exact absurd ((compareWithin_iff h ha hb hcompare).mp rfl).kind_eq hkind

theorem compareWithin_self (h : s.Records made) (ha : a.MadeOf made)
    (hends : a.isNestedWithin depth = true ∨ a.identity? ≠ none ∧ 0 < depth) :
    compareWithin depth a a = .ok true := by
  rcases hends with hnested | ⟨hidentity, hpos⟩
  · obtain ⟨answer, hcompare⟩ := exists_compareWithin_eq_ok (Or.inl hnested)
    rw [hcompare, (compareWithin_iff h ha ha hcompare).mpr (equivalence_sameStructure.refl a)]
  · obtain ⟨depth, rfl⟩ := Nat.exists_eq_succ_of_ne_zero (Nat.ne_of_gt hpos)
    cases a with
    | list xs i =>
      have hshared : isSame i i = true := isSame_iff.mpr ⟨rfl, hidentity⟩
      rw [compareWithin, if_pos hshared]
    | primitive | closure => simp [compareWithin, equal]
    | _ => exact absurd rfl hidentity

end Comparison

theorem madeOf_nested (made : List Value) (n : Nat) : (nested n).MadeOf made := by
  induction n with
  | zero => exact .list (by simp)
  | succ n ih => exact .list (by simpa using ih)

end Value

theorem Store.keepsStructure (s : Store) : s.KeepsStructure where
  equivalence := Value.equivalence_sameStructure
  kind _ _ h := h.kind_eq
  singleton := Value.not_sameStructure_singleton
  length xs ys i j h := by
    cases h with
    | list _ _ hlength => exact hlength
    | function => rfl
  pair x y xs ys i j i' j' := by
    simp [Value.sameStructure_iff, Value.bare_list]
  identified := Value.sameStructure_identified
  display a b h depth := by
    rw [← Value.displayWithin_bare, h.bare_eq, Value.displayWithin_bare]
  others p hp depth args args' hargs :=
    Primitive.sameResult_applyWith (Value.displayWithin_bare s depth) hp hargs

namespace Primitive

variable {p : Primitive} {s : Store} {made : List Value}

theorem tellsStructure (hp : p ∈ catalog) (hname : p.name = "equal?") (h : s.Records made)
    (depth : Nat) : p.TellsStructure s made depth := by
  have hcall : ∀ a b : Value, p.applyWith (s.view depth) [a, b] =
      (Value.compareWithin depth a b).map .boolean := applyWith_equal hp hname (s.view depth)
  have htrue : ∀ a b : Value, p.applyWith (s.view depth) [a, b] = .ok (.boolean true) ↔
      Value.compareWithin depth a b = .ok true := by
    intro a b
    rw [hcall]
    cases Value.compareWithin depth a b <;> simp [Except.map]
  constructor
  case answers =>
    intro a b ha hb
    rw [hcall]
    rcases Value.compareWithin_cases h depth ha hb with ⟨answer, hanswer, hiff⟩ | ⟨hdeep, hnested⟩
    · rw [hanswer]
      exact Or.inl ⟨answer, rfl, hiff⟩
    · rw [hdeep]
      exact Or.inr ⟨rfl, hnested⟩
  case otherKind =>
    intro a b ha hb hkind hpos
    obtain ⟨depth, rfl⟩ := Nat.exists_eq_succ_of_ne_zero (Nat.ne_of_gt hpos)
    rw [hcall, Value.compareWithin_of_kind_ne h ha hb hkind]
    rfl
  case reflexive =>
    intro a ha hends
    rw [htrue]
    exact Value.compareWithin_self h ha hends
  case symmetric =>
    intro a b
    rw [hcall, hcall, Value.compareWithin_comm]
  case transitive =>
    intro a b c ha hb hc
    rw [htrue, htrue, htrue]
    exact Value.compareWithin_trans h ha hb hc

/-- In a store that is reached `equal?` tells whether two values have the same structure, unless
both are nested beyond the limit.  That is an equivalence whose classes are not taken apart. -/
theorem tellsStructure_of_reached (hp : p ∈ catalog) (hname : p.name = "equal?")
    (hs : s.Reached made) (depth : Nat) : p.TellsStructure s made depth ∧ s.KeepsStructure :=
  ⟨tellsStructure hp hname hs.records depth, s.keepsStructure⟩

/-- Two lists of one element that have been made one after the other. -/
theorem tellsStructure_of_reached_twoLists :
    let equal := ofOperation ["a", "b"] none .equal
    let s := ({} : Store).takeIdentity.takeIdentity
    let a := Value.list [.integer 1] (some 0)
    let b := Value.list [.integer 1] (some 1)
    equal ∈ catalog ∧ equal.name = "equal?" ∧ s.Reached [b, a] ∧
      (equal.TellsStructure s [b, a] 2 ∧ s.KeepsStructure) ∧
      equal.applyWith (s.view 2) [a, b] = .ok (.boolean true) ∧ a.SameStructure b := by
  intro equal s a b
  have hp : equal ∈ catalog := by decide
  have hitems : ∀ made : List Value, (Value.list [.integer 1]).MadeOf made := by
    intro made
    refine .list fun v hv => ?_
    obtain rfl := List.mem_singleton.mp hv
    exact .integer 1
  have hs : s.Reached [b, a] := .list (.list .empty (hitems [])) (hitems [a])
  have hlaws := tellsStructure_of_reached hp rfl hs 2
  have hcall : equal.applyWith (s.view 2) [a, b] = .ok (.boolean true) := rfl
  refine ⟨hp, rfl, hs, hlaws, hcall, ?_⟩
  have ha : a.MadeOf [b, a] := .made (by simp)
  have hb : b.MadeOf [b, a] := .made (by simp)
  rcases hlaws.1.answers a b ha hb with ⟨answer, hanswer, hiff⟩ | ⟨hdeep, -⟩
  · rw [hcall] at hanswer
    cases hanswer
    exact hiff.mp rfl
  · rw [hcall] at hdeep
    cases hdeep

/-- Lists nested beyond the limit have one structure, and `equal?` does not say so. -/
theorem apply_equal_beyond_limit :
    ∃ p ∈ catalog, p.name = "equal?" ∧ Store.Reached {} [] ∧
      (Value.nested nestingLimit).OfLanguage ∧ (Value.nested nestingLimit).MadeOf [] ∧
      ¬ (p.apply {} [.nested nestingLimit, .nested nestingLimit] = .ok (.boolean true) ↔
        (Value.nested nestingLimit).SameStructure (.nested nestingLimit)) := by
  refine ⟨ofOperation ["a", "b"] none .equal, by decide, rfl, .empty, Value.ofLanguage_nested _,
    Value.madeOf_nested _ _, fun hiff => ?_⟩
  have hsame := hiff.mpr (Value.equivalence_sameStructure.refl _)
  have hdeep : (Store.view nestingLimit {}).compare (.nested nestingLimit) (.nested nestingLimit) =
      .error .nestingTooDeep := Value.compareWithin_nested (Nat.le_refl _)
  rw [apply, applyWith_equal (by decide) rfl, hdeep] at hsame
  cases hsame

end Primitive

end SmallLisp
