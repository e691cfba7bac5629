import SmallLisp.Proofs.Display
/-!
Where the showing of a value stops.

Whether a value has a text, and at which limit it fails if it has none, depends on its integers and
on how its lists are nested, and for the tagged form also on the bodies and frames of its functions.
It does not depend on names.  Main statements: the failures of the echoed and of the tagged form.
-/

namespace SmallLisp

/-- The failure of a computation, if it fails. -/
def failureOf? {α : Type} : Except Failure α → Option Failure
  | .ok _ => none
  | .error e => some e

section FailureOf

variable {α β : Type} {x : Except Failure α}

/-- What comes after a computation fails only if the computation does not. -/
theorem failureOf?_bind {next : α → Except Failure β} {stop : Option Failure}
    (h : ∀ a, failureOf? (next a) = stop) :
    failureOf? (x >>= next) = (failureOf? x).or stop := by
  cases x with
  | error e => rfl
  | ok a => exact h a

theorem failureOf?_bind_pure (f : α → β) :
    failureOf? (x >>= fun a => pure (f a)) = failureOf? x := by
  cases x <;> rfl

theorem failureOf?_mapM (f : α → Except Failure β) (items : List α) :
    failureOf? (items.mapM f) = items.findSome? fun item => failureOf? (f item) := by
  induction items with
  | nil => rfl
  | cons item rest ih =>
    have hrest : ∀ b, failureOf? (rest.mapM f >>= fun bs => pure (b :: bs)) = _ :=
      fun b => (failureOf?_bind_pure (b :: ·)).trans ih
    rw [List.mapM_cons, failureOf?_bind hrest, List.findSome?_cons]
    cases failureOf? (f item) <;> rfl

end FailureOf

/-- Items that stop where those stop which they were made from. -/
theorem findSome?_map_of_eq {α β : Type} {items : List α} {change : α → β}
    {look : β → Option Failure} {look' : α → Option Failure}
    (h : ∀ a ∈ items, look (change a) = look' a) :
    (items.map change).findSome? look = items.findSome? look' := by
  induction items with
  | nil => rfl
  | cons a rest ih =>
    obtain ⟨ha, hrest⟩ := List.forall_mem_cons.mp h
    rw [List.map_cons, List.findSome?_cons, List.findSome?_cons, ha, ih hrest]

/-- Where the text of an integer stops. -/
def integerStop (n : Int) : Option Failure :=
  failureOf? (integerText n)

namespace Value

/-- Where the showing of a value stops, in lists nested at most `depth` deep.  The showing of a
function stops as `function` says of the depth that is left, its body and its frame. -/
def stop (function : Nat → Value → FrameId → Option Failure) :
    (depth : Nat) → Value → Option Failure
  | 0, _ => some .nestingTooDeep
  | _ + 1, .integer n => integerStop n
  | depth + 1, .list items _ => items.findSome? (stop function depth)
  | depth + 1, .closure _ _ body frame => function depth body frame
  | _ + 1, _ => none

/-- Where the echo of a value stops. -/
def displayStop : (depth : Nat) → Value → Option Failure :=
  stop fun _ _ _ => none

theorem failureOf?_displayWithin (s : Store) (depth : Nat) (v : Value) :
    failureOf? (displayWithin s depth v) = displayStop depth v := by
  induction depth generalizing v with
  | zero => rfl
  | succ depth ih =>
    cases v with
    | list items identity =>
      rw [displayWithin, failureOf?_bind_pure, failureOf?_mapM, displayStop, stop]
      exact congrArg (items.findSome? ·) (funext ih)
    | _ => rfl

/-- Where the text of a binding stops.  One of a primitive is not shown. -/
def bindingStop (depth : Nat) : Value → Option Failure
  | .primitive .. => none
  | v => displayStop depth v

theorem bindingStop_of_ne {v : Value} (h : ∀ identity p, v ≠ .primitive identity p) (depth : Nat) :
    bindingStop depth v = displayStop depth v := by
  rw [bindingStop]
  exact h

/-- Where the text of a frame stops: at the first value that it shows and that has none. -/
def bindingsStop (depth : Nat) (bindings : Table Text Value) : Option Failure :=
  bindings.findSome? fun entry => bindingStop depth entry.2

theorem failureOf?_shownBindings (s : Store) (depth : Nat) (bindings : Table Text Value) :
    failureOf? (shownBindings s depth bindings) = bindingsStop depth bindings := by
  fun_induction shownBindings s depth bindings with
  | case1 => rfl
  | case2 name identity p rest ih => exact ih
  | case3 name v rest hother ih =>
    have hrest : ∀ text : Text, failureOf? (do
        let texts ← shownBindings s depth rest
        return (name ++ "=" ++ text) :: texts) = bindingsStop depth rest :=
      fun text => (failureOf?_bind_pure _).trans ih
    rw [failureOf?_bind hrest, failureOf?_displayWithin, bindingsStop, bindingsStop,
      List.findSome?_cons, bindingStop_of_ne hother]
    cases displayStop depth v <;> rfl

end Value

namespace Store

/-- Where the text of a frame of a store stops. -/
def frameStop (s : Store) (depth : Nat) (f : FrameId) : Option Failure :=
  s.frames[f]?.bind fun frame => Value.bindingsStop depth frame.bindings

theorem failureOf?_frameTextWithin (s : Store) (depth : Nat) (f : FrameId) :
    failureOf? (s.frameTextWithin depth f) = s.frameStop depth f := by
  have hbindings : failureOf? (s.bindingsTextWithin depth f) = s.frameStop depth f := by
    rw [bindingsTextWithin, failureOf?_bind_pure, Value.failureOf?_shownBindings, frameStop]
    cases s.frames[f]? <;> rfl
  rw [frameTextWithin, failureOf?_bind_pure, hbindings]

/-- Where the tagged text of a function stops, with `depth` left for its body and its frame. -/
def functionStop (s : Store) (depth : Nat) (body : Value) (f : FrameId) : Option Failure :=
  (Value.displayStop depth body).or (s.frameStop depth f)

end Store

namespace Value

theorem failureOf?_detailedWithin (s : Store) (depth : Nat) (v : Value) :
    failureOf? (detailedWithin s depth v) = stop s.functionStop depth v := by
  induction depth generalizing v with
  | zero => rfl
  | succ depth ih =>
    cases v with
    | list items identity =>
      cases items with
      | nil => rfl
      | cons item rest =>
        rw [detailedWithin, failureOf?_bind_pure, failureOf?_mapM, stop]
        · exact congrArg ((item :: rest).findSome? ·) (funext ih)
        · nofun
    | integer n => exact failureOf?_bind_pure _
    | closure identity formals body frame =>
      rw [detailedWithin, failureOf?_bind, failureOf?_displayWithin]
      · rfl
      · intro text
        rw [failureOf?_bind_pure, s.failureOf?_frameTextWithin]
    | _ => rfl

end Value

end SmallLisp
