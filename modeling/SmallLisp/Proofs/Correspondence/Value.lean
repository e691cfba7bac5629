import Mathlib.Logic.Function.Basic
import SmallLisp.Proofs.Primitive
import SmallLisp.Proofs.Renaming
/-!
Values that correspond to each other.

Two runs that do the same may take frames and identities in different order, and one of them may
know a variable under another name.  A correspondence says which frame and which identity of the
second run stand for those of the first; a list of aliases says, for every frame of the first run,
which name stands there for the variable.  Main statements: values that correspond are equal to
each other and compare alike, and what corresponds to a value does not change when frames are added.
-/

namespace SmallLisp

/-- Frames and identities that stand for others, and a variable that may be known under aliases. -/
structure Correspondence where
  frame : FrameId → FrameId
  identity : Nat → Nat
  old : Text
  frame_injective : Function.Injective frame
  identity_injective : Function.Injective identity

namespace Correspondence

variable (K : Correspondence) (aliases : List Text)

/-- The name that stands for the variable in a frame. -/
def aliasOf (f : FrameId) : Text :=
  aliases[f]?.getD K.old

/-- The value that stands for another one.  A function is renamed as its frame says. -/
def value : Value → Value
  | .list items identity => .list (items.map value) (identity.map K.identity)
  | .primitive identity p => .primitive (K.identity identity) p
  | .closure identity formals body f =>
      .closure (K.identity identity) (formals.map (Text.renamed K.old (K.aliasOf aliases f)))
        ((value body).rename K.old (K.aliasOf aliases f)) (K.frame f)
  | v => v

/-- The code that stands for an expression where the variable is known as `y`. -/
def code (y : Text) (e : Value) : Value :=
  (K.value aliases e).rename K.old y

/-- A value whose functions were made in frames that have an alias, each without another use of the
alias. -/
inductive Known : Value → Prop
  | symbol (name : Text) : Known (.symbol name)
  | integer (n : Int) : Known (.integer n)
  | boolean (b : Bool) : Known (.boolean b)
  | list {items : List Value} (identity : Option Nat) : (∀ v ∈ items, Known v) →
      Known (.list items identity)
  | primitive (identity : Nat) (p : Primitive) : Known (.primitive identity p)
  | closure (identity : Nat) {formals : List Text} {body : Value} {f : FrameId} {y : Text} :
      aliases[f]? = some y → (y ∈ formals → y = K.old) → (body.Names y → y = K.old) →
      Known body → Known (.closure identity formals body f)
  | foreign (text : Option Text) : Known (.foreign text)

variable {K} {aliases}

theorem aliasOf_of_getElem? {f : FrameId} {y : Text} (h : aliases[f]? = some y) :
    K.aliasOf aliases f = y := by
  rw [aliasOf, h]
  rfl

theorem value_symbol (name : Text) : K.value aliases (.symbol name) = .symbol name := by
  simp only [value]

theorem value_integer (n : Int) : K.value aliases (.integer n) = .integer n := by
  simp only [value]

theorem value_boolean (b : Bool) : K.value aliases (.boolean b) = .boolean b := by
  simp only [value]

theorem value_primitive (identity : Nat) (p : Primitive) :
    K.value aliases (.primitive identity p) = .primitive (K.identity identity) p := by
  simp only [value]

theorem value_list (items : List Value) (identity : Option Nat) :
    K.value aliases (.list items identity) =
      .list (items.map (K.value aliases)) (identity.map K.identity) := by
  rw [value]

theorem value_closure (identity : Nat) (formals : List Text) (body : Value) {f : FrameId}
    {y : Text} (h : aliases[f]? = some y) :
    K.value aliases (.closure identity formals body f) =
      .closure (K.identity identity) (formals.map (Text.renamed K.old y))
        (K.code aliases y body) (K.frame f) := by
  rw [value, aliasOf_of_getElem? h, code]

theorem known_list {items : List Value} {identity : Option Nat} :
    K.Known aliases (.list items identity) ↔ ∀ v ∈ items, K.Known aliases v := by
  constructor
  · rintro (_ | _ | _ | ⟨_, hitems⟩)
    exact hitems
  · exact .list identity

theorem hereditary_known (K : Correspondence) (aliases : List Text) :
    Value.Hereditary (K.Known aliases) where
  integer := .integer
  boolean := .boolean
  list := known_list.mpr
  items := known_list.mp

section Growth

variable {more : List Text} {v : Value}

theorem getElem?_of_isPrefix (h : aliases <+: more) {f : FrameId} {y : Text}
    (hf : aliases[f]? = some y) : more[f]? = some y := by
  obtain ⟨rest, rfl⟩ := h
  rw [List.getElem?_append_left (List.getElem?_eq_some_iff.mp hf).1]
  exact hf

theorem Known.mono (h : aliases <+: more) (hv : K.Known aliases v) : K.Known more v := by
  induction hv with
  | symbol name => exact .symbol name
  | integer n => exact .integer n
  | boolean b => exact .boolean b
  | list identity _ ih => exact .list identity ih
  | primitive identity p => exact .primitive identity p
  | closure identity hf hformals hbody _ ih =>
    exact .closure identity (getElem?_of_isPrefix h hf) hformals hbody ih
  | foreign text => exact .foreign text

/-- What stands for a value stands for it when there are more frames. -/
theorem Known.value_eq (h : aliases <+: more) (hv : K.Known aliases v) :
    K.value more v = K.value aliases v := by
  induction hv with
  | list identity _ ih =>
    rw [value_list, value_list, List.map_congr_left ih]
  | closure identity hf _ _ _ ih =>
    rw [value_closure _ _ _ hf, value_closure _ _ _ (getElem?_of_isPrefix h hf), code, code, ih]
  | _ => simp only [value]

theorem Known.code_eq (h : aliases <+: more) (hv : K.Known aliases v) (y : Text) :
    K.code more y v = K.code aliases y v := by
  rw [code, code, hv.value_eq h]

end Growth

section Comparison

theorem isTrue_value (v : Value) : (K.value aliases v).isTrue = v.isTrue := by
  cases v <;> simp only [value, Value.isTrue]

theorem isFunction_value (v : Value) : (K.value aliases v).isFunction = v.isFunction := by
  cases v <;> simp only [value, Value.isFunction]

theorem specialHead?_value (v : Value) : specialHead? (K.value aliases v) = specialHead? v := by
  cases v <;> simp only [value, specialHead?]

theorem identified_value (v : Value) (identity : Nat) :
    (K.value aliases v).identified (K.identity identity) =
      K.value aliases (v.identified identity) := by
  cases v with
  | list items identity' => cases identity' <;> simp [value_list, Value.identified]
  | _ => simp only [value, Value.identified]

theorem eq_symbol_of_value {v : Value} {name : Text}
    (h : K.value aliases v = .symbol name) : v = .symbol name := by
  cases v <;> simp_all [value]

theorem value_ne_symbol {v : Value} (h : ∀ name, v ≠ .symbol name) (name : Text) :
    K.value aliases v ≠ .symbol name :=
  fun heq => h name (eq_symbol_of_value heq)

theorem exists_of_value_list {v : Value} {items : List Value} {identity : Option Nat}
    (h : K.value aliases v = .list items identity) :
    ∃ items' identity', v = .list items' identity' ∧ items = items'.map (K.value aliases) := by
  cases v with
  | list items' identity' =>
    rw [value_list, Value.list.injEq] at h
    exact ⟨items', identity', rfl, h.1.symm⟩
  | _ => simp [value] at h

theorem value_ne_list {v : Value} (h : ∀ items identity, v ≠ .list items identity)
    (items : List Value) (identity : Option Nat) : K.value aliases v ≠ .list items identity := by
  intro heq
  obtain ⟨items', identity', hv, -⟩ := exists_of_value_list heq
  exact h items' identity' hv

mutual

/-- Values are equal if and only if what stands for them is. -/
theorem equal_value (a b : Value) :
    (K.value aliases a).equal (K.value aliases b) = a.equal b := by
  cases a with
  | list xs i =>
    cases b with
    | list ys j =>
      rw [value_list, value_list, Value.equal, Value.equal]
      exact equalItems_value xs ys
    | _ => simp only [value, Value.equal]
  | primitive i p | closure i formals body f =>
    cases b <;> simp [value, Value.equal, K.identity_injective.eq_iff]
  | _ => cases b <;> simp only [value, Value.equal]

theorem equalItems_value : ∀ xs ys : List Value,
    Value.equalItems (xs.map (K.value aliases)) (ys.map (K.value aliases)) =
      Value.equalItems xs ys
  | [], [] | [], _ :: _ | _ :: _, [] => rfl
  | x :: xs, y :: ys => by
      simp only [List.map_cons, Value.equalItems, equal_value x y, equalItems_value xs ys]

end

theorem isSame_value (i j : Option Nat) :
    Value.isSame (i.map K.identity) (j.map K.identity) = Value.isSame i j := by
  cases i <;> cases j <;> simp [Value.isSame, K.identity_injective.eq_iff]

/-- Values compare as what stands for them does. -/
theorem compareWithin_value (depth : Nat) (a b : Value) :
    Value.compareWithin depth (K.value aliases a) (K.value aliases b) =
      Value.compareWithin depth a b := by
  induction depth generalizing a b with
  | zero => rfl
  | succ depth ih =>
    have hitems : ∀ xs ys : List Value,
        Value.compareItems (Value.compareWithin depth) (xs.map (K.value aliases))
            (ys.map (K.value aliases)) =
          Value.compareItems (Value.compareWithin depth) xs ys := by
      intro xs
      induction xs with
      | nil => intro ys; cases ys <;> rfl
      | cons x xs ih' =>
        intro ys
        cases ys with
        | nil => rfl
        | cons y ys =>
          simp only [List.map_cons, Value.compareItems, ih, ih']
    have hequal : Value.equal (K.value aliases a) (K.value aliases b) = Value.equal a b :=
      equal_value a b
    cases a with
    | list xs i =>
      cases b with
      | list ys j => simp only [value_list, Value.compareWithin, isSame_value, hitems]
      | _ => simp only [value, Value.compareWithin, Value.equal]
    | _ => cases b <;> simp_all only [value, Value.compareWithin]

end Comparison

section Stop

/-- What stands for a value has a text if the value has one. -/
theorem displayStop_value (depth : Nat) (v : Value) :
    (K.value aliases v).displayStop depth = v.displayStop depth := by
  induction depth generalizing v with
  | zero => rfl
  | succ depth ih =>
    cases v with
    | list items identity =>
      rw [value_list]
      exact findSome?_map_of_eq fun v _ => ih v
    | _ => simp only [value, Value.displayStop, Value.stop]

theorem bindingStop_value (depth : Nat) (v : Value) :
    (K.value aliases v).bindingStop depth = v.bindingStop depth := by
  cases v with
  | primitive identity p => rw [value_primitive, Value.bindingStop, Value.bindingStop]
  | _ => rw [Value.bindingStop_of_ne, Value.bindingStop_of_ne, displayStop_value] <;> simp [value]

theorem displayStop_code (depth : Nat) (y : Text) (e : Value) :
    (K.code aliases y e).displayStop depth = e.displayStop depth :=
  (Value.stop_rename _ depth _).trans (displayStop_value depth e)

/-- The same of another text, if it is so for the functions in the value. -/
theorem Known.stop_value {function function' : Nat → Value → FrameId → Option Failure}
    (h : ∀ (depth : Nat) (body : Value) (f : FrameId) (y : Text), aliases[f]? = some y →
      function' depth (K.code aliases y body) (K.frame f) = function depth body f) {v : Value}
    (hv : K.Known aliases v) (depth : Nat) :
    (K.value aliases v).stop function' depth = v.stop function depth := by
  induction depth generalizing v with
  | zero => rfl
  | succ depth ih =>
    cases hv with
    | list identity hitems =>
      rw [value_list]
      exact findSome?_map_of_eq fun v hv => ih (hitems v hv)
    | closure identity hf hformals hbody hknown =>
      rw [value_closure _ _ _ hf]
      exact h depth _ _ _ hf
    | _ => simp only [value, Value.stop]

end Stop

section Code

variable {y : Text}

theorem code_symbol (y name : Text) :
    K.code aliases y (.symbol name) = .symbol (Text.renamed K.old y name) := by
  simp only [code, value, Value.rename]

theorem code_nil (y : Text) (identity : Option Nat) :
    K.code aliases y (.list [] identity) = .list [] (identity.map K.identity) := by
  rw [code, value_list, List.map_nil, Value.rename.eq_def]

theorem code_special {head : Value} {form : SpecialForm} (h : specialHead? head = some form)
    (y : Text) (parts : List Value) (identity : Option Nat) :
    K.code aliases y (.list (head :: parts) identity) =
      .list (head :: form.rename K.old y (parts.map (K.value aliases)))
        (identity.map K.identity) := by
  have hvalue : K.value aliases head = head := by
    rw [SpecialForm.specialHead?_eq_some_iff.mp h, value_symbol]
  rw [code, value_list, List.map_cons, hvalue, Value.rename_special h]

theorem code_call {head : Value} (h : specialHead? head = none) (y : Text) (parts : List Value)
    (identity : Option Nat) :
    K.code aliases y (.list (head :: parts) identity) =
      .list (K.code aliases y head :: parts.map (K.code aliases y)) (identity.map K.identity) := by
  have hvalue : specialHead? (K.value aliases head) = none := (specialHead?_value head).trans h
  rw [code, value_list, List.map_cons, Value.rename_call hvalue, List.map_map]
  rfl

theorem rename_define (y : Text) (target : Value) (parts : List Value) :
    SpecialForm.define.rename K.old y ((target :: parts).map (K.value aliases)) =
      (K.value aliases target).replace K.old y :: parts.map (K.code aliases y) := by
  rw [List.map_cons, SpecialForm.rename, Value.renameIn_eq_map, List.map_map]
  rfl

theorem rename_lambda (y : Text) (parameters : Value) (parts : List Value) :
    SpecialForm.lambda.rename K.old y ((parameters :: parts).map (K.value aliases)) =
      (K.value aliases parameters).replace K.old y :: parts.map (K.code aliases y) :=
  rename_define y parameters parts

theorem rename_conditional (y : Text) (parts : List Value) :
    SpecialForm.conditional.rename K.old y (parts.map (K.value aliases)) =
      parts.map (K.code aliases y) := by
  cases parts with
  | nil => rfl
  | cons first rest =>
    rw [List.map_cons, SpecialForm.rename, Value.renameIn_eq_map, List.map_map]
    rfl

theorem displayStop_replace_value (depth : Nat) (y : Text) (v : Value) :
    ((K.value aliases v).replace K.old y).displayStop depth = v.displayStop depth :=
  (Value.stop_replace _ depth _).trans (displayStop_value depth v)

theorem specialHead?_code {head : Value} (hy : SpecialForm.ofName? y = none)
    (h : specialHead? head = none) : specialHead? (K.code aliases y head) = none :=
  Value.specialHead?_rename hy ((specialHead?_value head).trans h)

end Code

end Correspondence

end SmallLisp
