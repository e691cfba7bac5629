import SmallLisp.Proofs.Display.Stop
import SmallLisp.Proofs.Evaluation.Forms
/-!
Renaming a name in code.

A renaming goes through the parameter lists, the targets of definitions and the expressions of a
piece of code.  It does not go into quoted data, and not into functions that code holds.  Main
statements: renaming a name to itself changes nothing, a renaming to a name that does not occur
keeps different names different, and it keeps the shapes of special forms.
-/

namespace SmallLisp

/-- A name with `y` in the place of `x`. -/
def Text.renamed (x y name : Text) : Text :=
  if name = x then y else name

/-- A datum in which a name occurs as a symbol, outside its functions. -/
inductive Value.Names (name : Text) : Value → Prop
  | symbol : Names name (.symbol name)
  | item {items : List Value} {identity : Option Nat} {v : Value} :
      v ∈ items → Names name v → Names name (.list items identity)

mutual

/-- A datum with `y` in the place of `x` everywhere outside its functions. -/
def Value.replace (x y : Text) : Value → Value
  | .symbol name => .symbol (Text.renamed x y name)
  | .list items identity => .list (Value.replaceIn x y items) identity
  | v => v

/-- Several data with `y` in the place of `x`. -/
def Value.replaceIn (x y : Text) : List Value → List Value
  | [] => []
  | v :: rest => v.replace x y :: Value.replaceIn x y rest

end

mutual

/-- An expression with `y` in the place of `x`, as far as it is code. -/
def Value.rename (x y : Text) : Value → Value
  | .symbol name => .symbol (Text.renamed x y name)
  | .list (head :: parts) identity =>
      match specialHead? head with
      | some form => .list (head :: form.rename x y parts) identity
      | none => .list (head.rename x y :: Value.renameIn x y parts) identity
  | v => v

/-- The parts of a special form with `y` in the place of `x`.  What a definition defines and what a
function takes are no expressions. -/
def SpecialForm.rename (x y : Text) (form : SpecialForm) : List Value → List Value
  | [] => []
  | first :: parts =>
      match form with
      | .quote => first :: parts
      | .define | .lambda => first.replace x y :: Value.renameIn x y parts
      | .conditional => first.rename x y :: Value.renameIn x y parts

/-- Several expressions with `y` in the place of `x`. -/
def Value.renameIn (x y : Text) : List Value → List Value
  | [] => []
  | e :: rest => e.rename x y :: Value.renameIn x y rest

end

namespace Text

variable {x y : Text}

theorem renamed_old (x y : Text) : renamed x y x = y :=
  if_pos rfl

theorem renamed_of_ne {name : Text} (h : name ≠ x) (y : Text) : renamed x y name = name :=
  if_neg h

theorem renamed_self (x name : Text) : renamed x x name = name := by
  rw [renamed, ite_eq_right_iff]
  exact Eq.symm

/-- Names other than `y` stay different from each other. -/
theorem renamed_inj {a b : Text} (ha : a = y → y = x) (hb : b = y → y = x) :
    renamed x y a = renamed x y b ↔ a = b := by
  refine ⟨fun h => ?_, congrArg _⟩
  rw [renamed, renamed] at h
  split_ifs at h with hax hbx hbx
  · rw [hax, hbx]
  · rw [hax, ← hb h.symm, h]
  · rw [hbx, ← ha h, h]
  · exact h

end Text

namespace Value

variable {x y : Text}

theorem names_list {name : Text} {items : List Value} {identity : Option Nat} :
    (Value.list items identity).Names name ↔ ∃ v ∈ items, v.Names name := by
  constructor
  · rintro (_ | ⟨hmem, hv⟩)
    exact ⟨_, hmem, hv⟩
  · rintro ⟨v, hmem, hv⟩
    exact .item hmem hv

theorem names_symbol {name other : Text} : (Value.symbol other).Names name ↔ other = name := by
  constructor
  · rintro ⟨⟩
    rfl
  · rintro rfl
    exact .symbol

theorem replaceIn_eq_map (x y : Text) (items : List Value) :
    replaceIn x y items = items.map (replace x y) := by
  induction items with
  | nil => rfl
  | cons v rest ih => rw [replaceIn, ih, List.map_cons]

theorem renameIn_eq_map (x y : Text) (es : List Value) :
    renameIn x y es = es.map (rename x y) := by
  induction es with
  | nil => rfl
  | cons e rest ih => rw [renameIn, ih, List.map_cons]

theorem replace_list (x y : Text) (items : List Value) (identity : Option Nat) :
    replace x y (.list items identity) = .list (items.map (replace x y)) identity := by
  rw [replace, replaceIn_eq_map]

theorem replace_ne_symbol {v : Value} (h : ∀ name, v ≠ .symbol name) (name : Text) :
    v.replace x y ≠ .symbol name := by
  cases v <;> simp_all [replace]

theorem replace_ne_list {v : Value} (h : ∀ items identity, v ≠ .list items identity)
    (items : List Value) (identity : Option Nat) : v.replace x y ≠ .list items identity := by
  cases v <;> simp_all [replace]

theorem length_rename (form : SpecialForm) (parts : List Value) :
    (form.rename x y parts).length = parts.length := by
  cases parts with
  | nil => rfl
  | cons first parts => cases form <;> simp [SpecialForm.rename, renameIn_eq_map]

theorem rename_special {head : Value} {form : SpecialForm} (h : specialHead? head = some form)
    (x y : Text) (parts : List Value) (identity : Option Nat) :
    rename x y (.list (head :: parts) identity) =
      .list (head :: form.rename x y parts) identity := by
  rw [rename, h]

theorem rename_call {head : Value} (h : specialHead? head = none) (x y : Text)
    (parts : List Value) (identity : Option Nat) :
    rename x y (.list (head :: parts) identity) =
      .list (head.rename x y :: parts.map (rename x y)) identity := by
  rw [rename, h, renameIn_eq_map]

mutual

theorem replace_self (x : Text) : ∀ v : Value, replace x x v = v
  | .symbol name => congrArg Value.symbol (Text.renamed_self x name)
  | .list items identity => congrArg (Value.list · identity) (replaceIn_self x items)
  | .integer _ | .boolean _ | .primitive .. | .closure .. | .foreign _ => rfl

theorem replaceIn_self (x : Text) : ∀ items : List Value, replaceIn x x items = items
  | [] => rfl
  | v :: rest => congrArg₂ List.cons (replace_self x v) (replaceIn_self x rest)

end

mutual

/-- Nothing changes where a name is renamed to itself. -/
theorem rename_self (x : Text) : ∀ e : Value, rename x x e = e
  | .symbol name => congrArg Value.symbol (Text.renamed_self x name)
  | .list [] _ => rfl
  | .list (head :: parts) identity => by
      rw [rename]
      cases specialHead? head with
      | some form => simp only [SpecialForm.rename_self x form parts]
      | none => simp only [rename_self x head, renameIn_self x parts]
  | .integer _ | .boolean _ | .primitive .. | .closure .. | .foreign _ => rfl

theorem SpecialForm.rename_self (x : Text) (form : SpecialForm) : ∀ parts : List Value,
    form.rename x x parts = parts
  | [] => rfl
  | first :: parts => by
      have hparts := renameIn_self x parts
      cases form with
      | quote => rfl
      | define | lambda => exact congrArg₂ List.cons (replace_self x first) hparts
      | conditional => exact congrArg₂ List.cons (rename_self x first) hparts

theorem renameIn_self (x : Text) : ∀ es : List Value, renameIn x x es = es
  | [] => rfl
  | e :: rest => congrArg₂ List.cons (rename_self x e) (renameIn_self x rest)

end

/-- What introduces no special form introduces none after a renaming to such a name. -/
theorem specialHead?_rename {head : Value} (hy : SpecialForm.ofName? y = none)
    (h : specialHead? head = none) : specialHead? (head.rename x y) = none := by
  cases head with
  | symbol name =>
    by_cases hname : name = x
    · rw [rename, hname, Text.renamed_old]
      exact hy
    · rw [rename, Text.renamed_of_ne hname]
      exact h
  | list items identity =>
    cases items with
    | nil => rfl
    | cons first parts =>
      cases hfirst : specialHead? first with
      | some form =>
        rw [rename_special hfirst]
        rfl
      | none =>
        rw [rename_call hfirst]
        rfl
  | _ => rfl

theorem stop_replace (function : Nat → Value → FrameId → Option Failure) (depth : Nat) (v : Value) :
    stop function depth (v.replace x y) = stop function depth v := by
  induction depth generalizing v with
  | zero => rfl
  | succ depth ih =>
    cases v with
    | list items identity =>
      rw [replace_list, stop, stop]
      exact findSome?_map_of_eq fun v _ => ih v
    | _ => rfl

/-- A renaming does not change where the showing of an expression stops. -/
theorem stop_rename (function : Nat → Value → FrameId → Option Failure) (depth : Nat) (e : Value) :
    stop function depth (e.rename x y) = stop function depth e := by
  induction depth generalizing e with
  | zero => rfl
  | succ depth ih =>
    have hreplace := stop_replace (x := x) (y := y) function depth
    have hrename : ∀ es : List Value, (renameIn x y es).findSome? (stop function depth) =
        es.findSome? (stop function depth) := fun es => by
      rw [renameIn_eq_map]
      exact findSome?_map_of_eq fun e _ => ih e
    cases e with
    | list items identity =>
      cases items with
      | nil => rfl
      | cons head parts =>
        cases hhead : specialHead? head with
        | some form =>
          rw [rename_special hhead, stop, stop, List.findSome?_cons, List.findSome?_cons]
          congr 1
          cases parts with
          | nil => rfl
          | cons first rest =>
            cases form <;>
              simp only [SpecialForm.rename, List.findSome?_cons, hreplace, hrename, ih]
        | none =>
          rw [rename_call hhead, ← List.map_cons, stop, stop]
          exact findSome?_map_of_eq fun e _ => ih e
    | _ => rfl

end Value

end SmallLisp
