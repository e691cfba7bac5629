import SmallLisp.Table
import SmallLisp.Value
/-!
Frames of bindings and the store that holds them.

A frame is named by its place in the store and may have a parent; a name is looked up along the
chain of parents.  Main statement: in a store whose parents come before their children, the chain
of a frame is the frame followed by the chain of its parent.  A function is named by a search that
cannot fail; the search for other values may meet lists nested too deep.
-/

namespace SmallLisp

/-- The bindings of one scope in first-definition order, and the scope around it. -/
structure Frame where
  bindings : Table Text Value := []
  parent : Option FrameId := none
deriving Repr, Inhabited

namespace Frame

/-- The value that a frame itself binds to a name. -/
def get? (frame : Frame) (name : Text) : Option Value :=
  frame.bindings.lookup name

/-- The frame with `name` bound to `v`. -/
def define (frame : Frame) (name : Text) (v : Value) : Frame :=
  { frame with bindings := Table.insert name v frame.bindings }

/-- The frame with several names bound, from left to right. -/
def defineAll (frame : Frame) (pairs : Table Text Value) : Frame :=
  pairs.foldl (fun frame (name, v) => frame.define name v) frame

/-- The first name that the frame itself binds to a value equal to `v`. -/
def nameOf? (frame : Frame) (v : Value) : Option Text :=
  (frame.bindings.find? fun (_, bound) => bound.equal v).map Prod.fst

/-- The first of several names bound to a value equal to `v`, by comparisons that may fail. -/
def nameAmong (v : Value) : Table Text Value → Except Failure (Option Text)
  | [] => .ok none
  | (name, bound) :: rest => do
      if ← bound.compare v then return some name else nameAmong v rest

/-- The first name that the frame itself binds to `v`, by comparisons that may fail. -/
def nameOf (frame : Frame) (v : Value) : Except Failure (Option Text) :=
  nameAmong v frame.bindings

theorem nameOf_of_isFunction (frame : Frame) {v : Value} (h : v.isFunction = true) :
    frame.nameOf v = .ok (frame.nameOf? v) := by
  rw [nameOf, nameOf?]
  induction frame.bindings with
  | nil => rfl
  | cons entry rest ih =>
    obtain ⟨name, bound⟩ := entry
    simp only [nameAmong, Value.compare_of_isFunction bound h, List.find?_cons]
    cases bound.equal v with
    | true => rfl
    | false => exact ih

@[simp] theorem get?_define_self (frame : Frame) (name : Text) (v : Value) :
    (frame.define name v).get? name = some v :=
  Table.lookup_insert_self name v frame.bindings

theorem get?_define_of_ne {name other : Text} (h : other ≠ name) (frame : Frame) (v : Value) :
    (frame.define name v).get? other = frame.get? other :=
  Table.lookup_insert_of_ne h v frame.bindings

end Frame

/-- All frames, the supply of identities for functions and lists, and the trace. -/
structure Store where
  frames : Array Frame := #[]
  nextIdentity : Nat := 0
  /-- The lines of the trace, the latest first. -/
  log : List Text := []
deriving Repr, Inhabited

namespace Store

/-- The parent of a frame. -/
def parent? (s : Store) (f : FrameId) : Option FrameId :=
  s.frames[f]?.bind Frame.parent

/-- The first `fuel` frames of the chain of `f`. -/
def chainWithin (s : Store) : (fuel : Nat) → FrameId → List FrameId
  | 0, _ => []
  | fuel + 1, f =>
      match s.parent? f with
      | none => [f]
      | some p => f :: chainWithin s fuel p

/-- A frame, its parent, the parent of that, and so on.  Parents come before their children, so
there are at most `f` steps to take. -/
def chain (s : Store) (f : FrameId) : List FrameId :=
  s.chainWithin (f + 1) f

/-- Every parent comes before its children. -/
def ParentsFirst (s : Store) : Prop :=
  ∀ f p : Nat, s.parent? f = some p → p < f

theorem chainWithin_eq_of_lt {s : Store} (h : s.ParentsFirst) {fuel fuel' f : Nat}
    (hfuel : f < fuel) (hfuel' : f < fuel') : s.chainWithin fuel f = s.chainWithin fuel' f := by
  induction fuel generalizing fuel' f with
  | zero => omega
  | succ fuel ih =>
    cases fuel' with
    | zero => omega
    | succ fuel' =>
      simp only [chainWithin]
      cases hp : s.parent? f with
      | none => rfl
      | some p =>
        have hlt := h f p hp
        exact congrArg (f :: ·) (ih (by omega) (by omega))

/-- A chain is a frame followed by the chain of its parent. -/
theorem chain_eq {s : Store} (h : s.ParentsFirst) (f : Nat) :
    s.chain f = f :: (s.parent? f).elim [] s.chain := by
  rw [chain, chainWithin]
  cases hp : s.parent? f with
  | none => rfl
  | some p =>
    have hlt := h f p hp
    exact congrArg (f :: ·) (chainWithin_eq_of_lt h hlt (Nat.lt_succ_self p))

/-- The value that a frame itself binds to a name. -/
def getIn? (s : Store) (name : Text) (f : FrameId) : Option Value :=
  s.frames[f]?.bind (·.get? name)

/-- The nearest frame of the chain that binds a name. -/
def find? (s : Store) (f : FrameId) (name : Text) : Option FrameId :=
  (s.chain f).find? fun g => (s.getIn? name g).isSome

/-- The value of a name in the nearest frame of the chain that binds it. -/
def lookup? (s : Store) (f : FrameId) (name : Text) : Option Value :=
  (s.chain f).findSome? (s.getIn? name)

/-- A value that is found is bound in some frame of the chain. -/
theorem exists_of_lookup? {s : Store} {f : FrameId} {name : Text} {v : Value}
    (h : s.lookup? f name = some v) :
    ∃ g ∈ s.chain f, ∃ frame, s.frames[g]? = some frame ∧ (name, v) ∈ frame.bindings := by
  obtain ⟨g, hg, hget⟩ := List.exists_of_findSome?_eq_some h
  obtain ⟨frame, hframe, hlookup⟩ := Option.bind_eq_some_iff.mp hget
  exact ⟨g, hg, frame, hframe, Table.mem_of_lookup hlookup⟩

/-- The value of a name, which has to be bound in some frame of the chain. -/
def lookup (s : Store) (f : FrameId) (name : Text) : Except Failure Value :=
  (s.lookup? f name).elim (.error (.fault (.unboundVariable name))) .ok

/-- The first name bound to a value equal to `v` in the nearest frame of the chain that has
one. -/
def nameOf? (s : Store) (f : FrameId) (v : Value) : Option Text :=
  (s.chain f).findSome? fun g => s.frames[g]?.bind (·.nameOf? v)

/-- The name of `v` in the nearest frame of several that has one, by comparisons that may fail. -/
def nameIn (s : Store) (v : Value) : List FrameId → Except Failure (Option Text)
  | [] => .ok none
  | f :: outer => do
      match ← (s.frames[f]?.elim (.ok none) (·.nameOf v) : Except Failure (Option Text)) with
      | some name => return some name
      | none => nameIn s v outer

/-- The name of `v` along the chain, by comparisons that may fail. -/
def nameOf (s : Store) (f : FrameId) (v : Value) : Except Failure (Option Text) :=
  s.nameIn v (s.chain f)

theorem nameIn_of_isFunction (s : Store) {v : Value} (h : v.isFunction = true)
    (frames : List FrameId) :
    s.nameIn v frames = .ok (frames.findSome? fun g => s.frames[g]?.bind (·.nameOf? v)) := by
  induction frames with
  | nil => rfl
  | cons f outer ih =>
    rw [nameIn, List.findSome?_cons]
    cases hf : s.frames[f]? with
    | none => exact ih
    | some frame =>
      simp only [Option.elim, Option.bind, Frame.nameOf_of_isFunction frame h]
      cases frame.nameOf? v with
      | none => exact ih
      | some name => rfl

/-- The name of a function is found without failing. -/
theorem nameOf_of_isFunction (s : Store) (f : FrameId) {v : Value} (h : v.isFunction = true) :
    s.nameOf f v = .ok (s.nameOf? f v) :=
  s.nameIn_of_isFunction h (s.chain f)

/-- The store with `name` bound to `v` in frame `f`. -/
def define (s : Store) (f : FrameId) (name : Text) (v : Value) : Store :=
  { s with frames := s.frames.modify f (·.define name v) }

/-- What holds of every frame of a store, and of one of them with a new binding. -/
theorem forall_frames_define {P : FrameId → Frame → Prop} {s : Store} {f : FrameId} {name : Text}
    {v : Value} (h : ∀ g frame, s.frames[g]? = some frame → P g frame)
    (hdefine : ∀ frame, s.frames[f]? = some frame → P f (frame.define name v)) :
    ∀ g frame, (s.define f name v).frames[g]? = some frame → P g frame := by
  intro g frame hframe
  simp only [define, Array.getElem?_modify] at hframe
  split at hframe
  · rename_i heq
    obtain ⟨old, hold, rfl⟩ := Option.map_eq_some_iff.mp hframe
    exact heq ▸ hdefine old (heq ▸ hold)
  · exact h g frame hframe

/-- The store with `name` bound to `v` where it is bound already; none if no frame of the chain
binds it. -/
def set? (s : Store) (f : FrameId) (name : Text) (v : Value) : Option Store :=
  (s.find? f name).map fun g => s.define g name v

/-- The place of the next frame. -/
def nextFrame (s : Store) : FrameId :=
  s.frames.size

/-- The store with one more frame, at `nextFrame`. -/
def push (s : Store) (frame : Frame) : Store :=
  { s with frames := s.frames.push frame }

/-- What holds of every frame of a store, and of one more frame. -/
theorem forall_frames_push {P : FrameId → Frame → Prop} {s : Store} {frame : Frame}
    (h : ∀ g other, s.frames[g]? = some other → P g other) (hframe : P s.nextFrame frame) :
    ∀ g other, (s.push frame).frames[g]? = some other → P g other := by
  intro g other hother
  simp only [push, Array.getElem?_push] at hother
  split at hother
  · rename_i heq
    obtain rfl := Option.some.inj hother
    exact heq ▸ hframe
  · exact h g other hother

namespace ParentsFirst

variable {s : Store}

theorem iff_forall_frames : s.ParentsFirst ↔ ∀ (f : FrameId) (frame : Frame),
    s.frames[f]? = some frame → ∀ p, frame.parent = some p → p < f := by
  constructor
  · intro h f frame hframe p hp
    exact h f p (by rw [parent?, hframe]; exact hp)
  · intro h f p hp
    obtain ⟨frame, hframe, hparent⟩ := Option.bind_eq_some_iff.mp hp
    exact h f frame hframe p hparent

theorem of_frames (h : s.ParentsFirst) {t : Store} (hframes : t.frames = s.frames) :
    t.ParentsFirst :=
  iff_forall_frames.mpr (hframes ▸ iff_forall_frames.mp h)

theorem define (h : s.ParentsFirst) (f : FrameId) (name : Text) (v : Value) :
    (s.define f name v).ParentsFirst :=
  iff_forall_frames.mpr (forall_frames_define (iff_forall_frames.mp h)
    fun frame hframe => iff_forall_frames.mp h f frame hframe)

theorem push (h : s.ParentsFirst) {frame : Frame}
    (hframe : ∀ p, frame.parent = some p → p < s.frames.size) : (s.push frame).ParentsFirst :=
  iff_forall_frames.mpr (forall_frames_push (iff_forall_frames.mp h) hframe)

end ParentsFirst

/-- The store with the next identity taken. -/
def takeIdentity (s : Store) : Store :=
  { s with nextIdentity := s.nextIdentity + 1 }

/-- The store with one more line in the trace. -/
def record (s : Store) (line : Text) : Store :=
  { s with log := line :: s.log }

/-- The bindings of the catalog, with identities from `first` on, and of the two booleans. -/
def globalBindings (first : Nat) : Table Text Value :=
  let primitives : Table Text Value :=
    (Primitive.catalog.zipIdx first).map fun (p, identity) => (p.name, .primitive identity p)
  let booleans : Table Text Value := [("true", .boolean true), ("false", .boolean false)]
  primitives ++ booleans

/-- What holds of every function of the catalog under its name, with one of the identities that it
takes, and of the two booleans. -/
theorem forall_globalBindings {P : Text → Value → Prop} {first : Nat}
    (hprimitive : ∀ p ∈ Primitive.catalog, ∀ identity < first + Primitive.catalog.length,
      P p.name (.primitive identity p))
    (htrue : P "true" (.boolean true)) (hfalse : P "false" (.boolean false)) :
    ∀ entry ∈ globalBindings first, P entry.1 entry.2 := by
  intro entry hentry
  rcases List.mem_append.mp hentry with hmem | hmem
  · obtain ⟨⟨p, identity⟩, hp, rfl⟩ := List.mem_map.mp hmem
    exact hprimitive p (List.fst_mem_of_mem_zipIdx hp) identity (List.snd_lt_add_of_mem_zipIdx hp)
  · simp only [List.mem_cons, List.not_mem_nil, or_false] at hmem
    rcases hmem with rfl | rfl
    · exact htrue
    · exact hfalse

/-- The store with a new global frame, at `nextFrame`, which has primitives of its own. -/
def pushGlobal (s : Store) : Store :=
  let s := s.push (Frame.defineAll {} (globalBindings s.nextIdentity))
  { s with nextIdentity := s.nextIdentity + Primitive.catalog.length }

/-- The number of names that a frame itself binds. -/
def bindingCount (s : Store) (f : FrameId) : Nat :=
  (s.frames[f]?.map (·.bindings.length)).getD 0

example : (Store.bindingCount (pushGlobal {}) 0) = 29 := by decide +kernel

end Store

end SmallLisp
