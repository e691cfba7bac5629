import SmallLisp.Display
/-!
Showing and comparing values without a limit on nesting.

`Value.text?`, `Value.detailedText?` and `Value.same` say what is shown and what is equal, whatever
the nesting.  Main statements: the echo and the comparison agree with them on values nested within
the limit, and for all three forms a larger limit changes nothing but failures at the limit.
-/

namespace SmallLisp

/-- Two computations that agree, except that the first may stop at a nesting limit.  That needs
`limited`, so they are equal where it is false. -/
def UpToLimit {α : Type} (limited : Prop) (x y : Except Failure α) : Prop :=
  x = y ∨ limited ∧ x = .error .nestingTooDeep

namespace UpToLimit

variable {α β : Type} {limited : Prop} {x y : Except Failure α}

theorem refl (limited : Prop) (x : Except Failure α) : UpToLimit limited x x :=
  Or.inl rfl

theorem trans {z : Except Failure α} (h : UpToLimit limited x y) (h' : UpToLimit limited y z) :
    UpToLimit limited x z := by
  rcases h with rfl | hdeep
  · exact h'
  · exact Or.inr hdeep

theorem eq_of_ne (h : UpToLimit limited x y) (hne : x ≠ .error .nestingTooDeep) : x = y :=
  h.resolve_right fun hdeep => hne hdeep.2

theorem eq_of_not (h : UpToLimit limited x y) (hnot : ¬ limited) : x = y :=
  h.resolve_right fun hdeep => hnot hdeep.1

theorem bind {f g : α → Except Failure β} (h : UpToLimit limited x y)
    (hnext : ∀ a, UpToLimit limited (f a) (g a)) : UpToLimit limited (x >>= f) (y >>= g) := by
  rcases h with rfl | ⟨hlimited, rfl⟩
  · cases x with
    | error e => exact refl limited _
    | ok a => exact hnext a
  · exact Or.inr ⟨hlimited, rfl⟩

theorem bind_same (h : UpToLimit limited x y) (next : α → Except Failure β) :
    UpToLimit limited (x >>= next) (y >>= next) :=
  h.bind fun a => refl limited (next a)

theorem map (h : UpToLimit limited x y) (f : α → β) :
    UpToLimit limited (x.map f) (y.map f) := by
  rcases h with rfl | ⟨hlimited, rfl⟩
  · exact refl limited _
  · exact Or.inr ⟨hlimited, rfl⟩

theorem mapM {f g : α → Except Failure β} {xs : List α}
    (h : ∀ a ∈ xs, UpToLimit limited (f a) (g a)) :
    UpToLimit limited (xs.mapM f) (xs.mapM g) := by
  induction xs with
  | nil => exact refl limited _
  | cons a rest ih =>
    rw [List.mapM_cons, List.mapM_cons]
    apply bind (h a List.mem_cons_self)
    intro b
    exact (ih fun c hc => h c (List.mem_cons_of_mem a hc)).bind_same _

end UpToLimit

namespace Value

mutual

/-- The text of a value as it is echoed, however deep it is nested; none if it shows an integer
with too many digits. -/
def text? (s : Store) : Value → Option Text
  | .symbol name => some name
  | .integer n => Text.integerText? n
  | .boolean b => some (booleanText b)
  | .list items _ => (texts? s items).map parenthesized
  | .primitive _ p => some (functionText p.name)
  | .closure identity formals body frame =>
      some (functionText (functionName s (.closure identity formals body frame)))
  | .foreign text => some (text.getD "None")

/-- The texts of several values. -/
def texts? (s : Store) : List Value → Option (List Text)
  | [] => some []
  | v :: rest => (v.text? s).bind fun text => (texts? s rest).map (text :: ·)

end

/-- The bindings that a frame shows, however deep their values are nested. -/
def shownTexts? (s : Store) : List (Text × Value) → Option (List Text)
  | [] => some []
  | (_, .primitive ..) :: rest => shownTexts? s rest
  | (name, v) :: rest =>
      (v.text? s).bind fun text => (shownTexts? s rest).map ((name ++ "=" ++ text) :: ·)

end Value

/-- The text of a frame, however deep the values are nested that it shows. -/
def Store.frameText? (s : Store) (f : FrameId) : Option Text :=
  (Value.shownTexts? s ((s.frames[f]?.map Frame.bindings).getD [])).map fun texts =>
    let text : Text := "Frame:\x7b" ++ Text.join ", " texts ++ "\x7d"
    if (s.parent? f).isSome then text ++ " -> ..." else text

namespace Value

mutual

/-- The tagged text of a value, however deep it is nested; none if it shows an integer with too many
digits. -/
def detailedText? (s : Store) : Value → Option Text
  | .symbol name => some ("[SYM " ++ name ++ "]")
  | .integer n => (Text.integerText? n).map fun text => "[INT " ++ text ++ "]"
  | .boolean b => some ("[BOOL " ++ booleanText b ++ "]")
  | .list [] _ => some "[List]"
  | .list items _ =>
      (detailedTexts? s items).map fun texts => "[List " ++ Text.join " " texts ++ "]"
  | .primitive _ p => some ("[Primitive:" ++ p.name ++ "]")
  | .closure identity formals body frame =>
      (body.text? s).bind fun bodyText => (s.frameText? frame).map fun frameText =>
        "[Func:" ++ functionName s (.closure identity formals body frame) ++ " "
          ++ parenthesized formals ++ " " ++ bodyText ++ " " ++ frameText ++ "]"
  | .foreign text => some (foreignText text)

/-- The tagged texts of several values. -/
def detailedTexts? (s : Store) : List Value → Option (List Text)
  | [] => some []
  | v :: rest =>
      (v.detailedText? s).bind fun text => (detailedTexts? s rest).map (text :: ·)

end

mutual

/-- Equality of values, however deep they are nested.  A list that both sides share is not looked
into. -/
def same : Value → Value → Bool
  | .list xs i, .list ys j => isSame i j || sameItems xs ys
  | a, b => equal a b

/-- Equal lengths and equal elements. -/
def sameItems : List Value → List Value → Bool
  | [], [] => true
  | x :: xs, y :: ys => same x y && sameItems xs ys
  | _, _ => false

end

/-- A text that is there unless an integer has too many digits. -/
def orTooLong {α : Type} (text : Option α) : Except Failure α :=
  text.elim (.error .integerTooLong) .ok

/-- Showing nests as deep as the value. -/
theorem displayWithin_of_isNestedWithin (s : Store) {depth : Nat} {v : Value}
    (h : v.isNestedWithin depth = true) : displayWithin s depth v = orTooLong (v.text? s) := by
  induction depth generalizing v with
  | zero => simp [isNestedWithin] at h
  | succ depth ih =>
    cases v with
    | list items identity =>
      have hitems : items.mapM (displayWithin s depth) = orTooLong (texts? s items) := by
        simp only [isNestedWithin, List.all_eq_true] at h
        induction items with
        | nil => rfl
        | cons item rest ih' =>
          rw [List.mapM_cons, ih (h item List.mem_cons_self),
            ih' fun v hv => h v (List.mem_cons_of_mem item hv), texts?]
          cases item.text? s with
          | none => rfl
          | some text => cases texts? s rest <;> rfl
      rw [displayWithin, hitems, text?]
      cases texts? s items <;> rfl
    | _ => rfl

/-- A larger limit shows what a smaller one shows. -/
theorem displayWithin_mono (s : Store) {depth depth' : Nat} (hle : depth ≤ depth') (v : Value) :
    UpToLimit True (displayWithin s depth v) (displayWithin s depth' v) := by
  induction depth generalizing depth' v with
  | zero => exact Or.inr ⟨trivial, rfl⟩
  | succ depth ih =>
    obtain ⟨depth', rfl⟩ : ∃ m, depth' = m + 1 := ⟨depth' - 1, by omega⟩
    cases v with
    | list items identity =>
      refine UpToLimit.bind_same (UpToLimit.mapM fun item _ => ?_) _
      exact ih (Nat.le_of_succ_le_succ hle) item
    | _ => exact UpToLimit.refl _ _

/-- Comparing nests at most as deep as the first of the values. -/
theorem compareWithin_of_isNestedWithin {depth : Nat} {a b : Value}
    (h : a.isNestedWithin depth = true) : compareWithin depth a b = .ok (same a b) := by
  induction depth generalizing a b with
  | zero => simp [isNestedWithin] at h
  | succ depth ih =>
    cases a with
    | list xs i =>
      cases b with
      | list ys j =>
        have hitems : compareItems (compareWithin depth) xs ys = .ok (sameItems xs ys) := by
          simp only [isNestedWithin, List.all_eq_true] at h
          induction xs generalizing ys with
          | nil => cases ys <;> rfl
          | cons x xs ih' =>
            cases ys with
            | nil => rfl
            | cons y ys =>
              rw [compareItems, ih (h x List.mem_cons_self), sameItems]
              cases same x y with
              | false => rfl
              | true => exact ih' ys fun v hv => h v (List.mem_cons_of_mem x hv)
        rw [compareWithin, hitems, same]
        cases isSame i j <;> rfl
      | _ => rfl
    | _ => rfl

/-- A larger limit compares as a smaller one does. -/
theorem compareWithin_mono {depth depth' : Nat} (hle : depth ≤ depth') (a b : Value) :
    UpToLimit True (compareWithin depth a b) (compareWithin depth' a b) := by
  induction depth generalizing depth' a b with
  | zero => exact Or.inr ⟨trivial, rfl⟩
  | succ depth ih =>
    obtain ⟨depth', rfl⟩ : ∃ m, depth' = m + 1 := ⟨depth' - 1, by omega⟩
    have hle' := Nat.le_of_succ_le_succ hle
    cases a with
    | list xs i =>
      cases b with
      | list ys j =>
        rw [compareWithin, compareWithin]
        cases isSame i j with
        | true => exact UpToLimit.refl _ _
        | false =>
          induction xs generalizing ys with
          | nil => cases ys <;> exact UpToLimit.refl _ _
          | cons x xs ih' =>
            cases ys with
            | nil => exact UpToLimit.refl _ _
            | cons y ys =>
              apply UpToLimit.bind (ih hle' x y)
              intro same
              cases same with
              | false => exact UpToLimit.refl _ _
              | true => exact ih' ys
      | _ => exact UpToLimit.refl _ _
    | _ => exact UpToLimit.refl _ _

theorem isNestedWithin_mono {depth depth' : Nat} (hle : depth ≤ depth') {v : Value}
    (h : v.isNestedWithin depth = true) : v.isNestedWithin depth' = true := by
  induction depth generalizing depth' v with
  | zero => simp [isNestedWithin] at h
  | succ depth ih =>
    obtain ⟨depth', rfl⟩ : ∃ m, depth' = m + 1 := ⟨depth' - 1, by omega⟩
    cases v with
    | list items identity =>
      simp only [isNestedWithin, List.all_eq_true] at h ⊢
      exact fun item hitem => ih (Nat.le_of_succ_le_succ hle) (h item hitem)
    | _ => rfl

mutual

/-- Every value is nested within some depth. -/
theorem exists_isNestedWithin : ∀ v : Value, ∃ depth, v.isNestedWithin depth = true
  | .list items _ => by
      obtain ⟨depth, h⟩ := exists_all_isNestedWithin items
      exact ⟨depth + 1, by simpa [isNestedWithin] using h⟩
  | .symbol _ | .integer _ | .boolean _ | .primitive .. | .closure .. | .foreign _ => ⟨1, rfl⟩

theorem exists_all_isNestedWithin :
    ∀ items : List Value, ∃ depth, ∀ v ∈ items, v.isNestedWithin depth = true
  | [] => ⟨0, by simp⟩
  | v :: rest => by
      obtain ⟨depth, h⟩ := exists_isNestedWithin v
      obtain ⟨depth', h'⟩ := exists_all_isNestedWithin rest
      refine ⟨max depth depth', ?_⟩
      intro w hw
      rcases List.mem_cons.mp hw with rfl | hrest
      · exact isNestedWithin_mono (Nat.le_max_left _ _) h
      · exact isNestedWithin_mono (Nat.le_max_right _ _) (h' w hrest)

end

/-- What is echoed within a limit is what is echoed without one. -/
theorem displayWithin_upToLimit (s : Store) (depth : Nat) (v : Value) :
    UpToLimit True (displayWithin s depth v) (orTooLong (v.text? s)) := by
  obtain ⟨enough, henough⟩ := exists_isNestedWithin v
  have hnested := isNestedWithin_mono (Nat.le_max_right depth enough) henough
  rw [← displayWithin_of_isNestedWithin s hnested]
  exact displayWithin_mono s (Nat.le_max_left depth enough) v

/-- What is found within a limit is what is found without one. -/
theorem compareWithin_upToLimit (depth : Nat) (a b : Value) :
    UpToLimit True (compareWithin depth a b) (.ok (same a b)) := by
  obtain ⟨enough, henough⟩ := exists_isNestedWithin a
  have hnested := isNestedWithin_mono (Nat.le_max_right depth enough) henough
  rw [← compareWithin_of_isNestedWithin (b := b) hnested]
  exact compareWithin_mono (Nat.le_max_left depth enough) a b

end Value

section Tagged

variable {α β : Type}

theorem Value.orTooLong_bind (x : Option α) (f : α → Option β) :
    orTooLong (x.bind f) = orTooLong x >>= fun a => orTooLong (f a) := by
  cases x <;> rfl

theorem Value.orTooLong_map (x : Option α) (f : α → β) :
    orTooLong (x.map f) = orTooLong x >>= fun a => pure (f a) := by
  cases x <;> rfl

theorem Value.shownBindings_mono (s : Store) {depth depth' : Nat} (hle : depth ≤ depth')
    (bindings : List (Text × Value)) :
    UpToLimit True (shownBindings s depth bindings) (shownBindings s depth' bindings) := by
  fun_induction shownBindings s depth bindings with
  | case1 => exact UpToLimit.refl _ _
  | case2 name identity p rest ih => exact ih
  | case3 name v rest hother ih =>
    rw [shownBindings]
    · apply UpToLimit.bind (displayWithin_mono s hle v)
      intro text
      exact ih.bind_same _
    · exact hother

/-- What a frame shows within a limit is what it shows without one. -/
theorem Value.shownBindings_upToLimit (s : Store) (depth : Nat) (bindings : List (Text × Value)) :
    UpToLimit True (shownBindings s depth bindings) (orTooLong (shownTexts? s bindings)) := by
  fun_induction shownBindings s depth bindings with
  | case1 => exact UpToLimit.refl _ _
  | case2 name identity p rest ih => exact ih
  | case3 name v rest hother ih =>
    rw [shownTexts?, orTooLong_bind]
    · apply UpToLimit.bind (displayWithin_upToLimit s depth v)
      intro text
      rw [orTooLong_map]
      exact ih.bind_same _
    · exact hother

theorem Store.frameTextWithin_mono (s : Store) {depth depth' : Nat} (hle : depth ≤ depth')
    (f : FrameId) : UpToLimit True (s.frameTextWithin depth f) (s.frameTextWithin depth' f) :=
  ((Value.shownBindings_mono s hle _).bind_same _).bind_same _

theorem Store.frameTextWithin_upToLimit (s : Store) (depth : Nat) (f : FrameId) :
    UpToLimit True (s.frameTextWithin depth f) (Value.orTooLong (s.frameText? f)) := by
  rw [frameTextWithin, bindingsTextWithin, bind_assoc, frameText?, Value.orTooLong_map]
  exact (Value.shownBindings_upToLimit s depth _).bind_same _

/-- A larger limit tags what a smaller one tags. -/
theorem Value.detailedWithin_mono (s : Store) {depth depth' : Nat} (hle : depth ≤ depth')
    (v : Value) : UpToLimit True (detailedWithin s depth v) (detailedWithin s depth' v) := by
  induction depth generalizing depth' v with
  | zero => exact Or.inr ⟨trivial, rfl⟩
  | succ depth ih =>
    obtain ⟨depth', rfl⟩ : ∃ m, depth' = m + 1 := ⟨depth' - 1, by omega⟩
    have hle' := Nat.le_of_succ_le_succ hle
    cases v with
    | list items identity =>
      cases items with
      | nil => exact UpToLimit.refl _ _
      | cons item rest =>
        exact UpToLimit.bind_same (UpToLimit.mapM fun v _ => ih hle' v) _
    | closure identity formals body frame =>
      apply UpToLimit.bind (displayWithin_mono s hle' body)
      intro bodyText
      exact (s.frameTextWithin_mono hle' frame).bind_same _
    | _ => exact UpToLimit.refl _ _

theorem Value.mapM_upToLimit_detailedTexts? {s : Store} {tag : Value → Except Failure Text}
    (h : ∀ v, UpToLimit True (tag v) (orTooLong (v.detailedText? s))) (items : List Value) :
    UpToLimit True (items.mapM tag) (orTooLong (detailedTexts? s items)) := by
  induction items with
  | nil => exact UpToLimit.refl _ _
  | cons v rest ih =>
    rw [List.mapM_cons, detailedTexts?, orTooLong_bind]
    apply UpToLimit.bind (h v)
    intro text
    rw [orTooLong_map]
    exact ih.bind_same _

/-- The tagged text within a limit is the tagged text without one. -/
theorem Value.detailedWithin_upToLimit (s : Store) (depth : Nat) (v : Value) :
    UpToLimit True (detailedWithin s depth v) (orTooLong (v.detailedText? s)) := by
  induction depth generalizing v with
  | zero => exact Or.inr ⟨trivial, rfl⟩
  | succ depth ih =>
    cases v with
    | integer n =>
      rw [detailedText?, orTooLong_map]
      exact UpToLimit.refl _ _
    | list items identity =>
      cases items with
      | nil => exact UpToLimit.refl _ _
      | cons item rest =>
        rw [detailedText?, orTooLong_map]
        · exact (mapM_upToLimit_detailedTexts? ih (item :: rest)).bind_same _
        · simp
    | closure identity formals body frame =>
      rw [detailedText?, orTooLong_bind]
      apply UpToLimit.bind (displayWithin_upToLimit s depth body)
      intro bodyText
      rw [orTooLong_map]
      exact (s.frameTextWithin_upToLimit depth frame).bind_same _
    | _ => exact UpToLimit.refl _ _

end Tagged

/-- The view without a limit on nesting. -/
def Store.wholeView (s : Store) : View where
  display v := Value.orTooLong (v.text? s)
  detailed v := Value.orTooLong (v.detailedText? s)
  compare a b := .ok (Value.same a b)

/-- The views of some values agree, except that the first may stop at its limit. -/
structure View.UpToLimit (limited : Prop) (args : List Value) (view view' : View) : Prop where
  display : ∀ v ∈ args, SmallLisp.UpToLimit limited (view.display v) (view'.display v)
  compare : ∀ a ∈ args, ∀ b ∈ args,
    SmallLisp.UpToLimit limited (view.compare a b) (view'.compare a b)

namespace Store

/-- A larger limit sees what a smaller one sees. -/
theorem view_mono (s : Store) {depth depth' : Nat} (hle : depth ≤ depth') (args : List Value) :
    View.UpToLimit True args (s.view depth) (s.view depth') where
  display v _ := Value.displayWithin_mono s hle v
  compare a _ b _ := Value.compareWithin_mono hle a b

/-- A view that is deep enough sees everything. -/
theorem view_of_isNestedWithin (s : Store) {depth : Nat} {args : List Value}
    (h : ∀ v ∈ args, v.isNestedWithin depth = true) :
    View.UpToLimit False args (s.view depth) s.wholeView where
  display v hv := Or.inl (Value.displayWithin_of_isNestedWithin s (h v hv))
  compare a ha _ _ := Or.inl (Value.compareWithin_of_isNestedWithin (h a ha))

/-- Any limited view sees a part of the whole. -/
theorem view_upToLimit (s : Store) (depth : Nat) (args : List Value) :
    View.UpToLimit True args (s.view depth) s.wholeView where
  display v _ := Value.displayWithin_upToLimit s depth v
  compare a _ b _ := Value.compareWithin_upToLimit depth a b

end Store

end SmallLisp
