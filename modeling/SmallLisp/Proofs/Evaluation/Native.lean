import SmallLisp.Proofs.Evaluation.Invariant
/-!
Evaluation with no other native functions than those of the catalog.

Main statement: it is an invariant that there are no others, and that failures are errors of the
language or at a limit.  In particular a function of the catalog always has the arguments that it
asks for.
-/

namespace SmallLisp

/-- A function of the catalog accepts only numbers of arguments for which its operation is
defined. -/
theorem Primitive.fits_of_accepts {p : Primitive} (hp : p ∈ catalog) {count : Nat}
    (h : p.accepts count = true) : p.operation.Fits count := by
  have hcatalog : ∀ p ∈ catalog, ∀ count, p.accepts count = true → p.operation.Fits count := by
    have hone : ∀ count, 1 ≤ count → 0 < count := fun _ h => h
    have htwo : ∀ count, 2 ≤ count → 0 < count := fun _ h => Nat.lt_of_lt_of_le Nat.zero_lt_two h
    simpa [catalog, accepts, variadic, arity, ofOperation, Operation.Fits] using ⟨hone, htwo⟩
  exact hcatalog p hp count h

/-- A native function in a value. -/
inductive Value.Holds (p : Primitive) : Value → Prop
  | primitive {identity : Nat} : Holds p (.primitive identity p)
  | body {identity : Nat} {formals : List Text} {body : Value} {f : FrameId} :
      Holds p body → Holds p (.closure identity formals body f)
  | item {items : List Value} {identity : Option Nat} {v : Value} :
      v ∈ items → Holds p v → Holds p (.list items identity)

/-- A value whose native functions are those of the catalog. -/
def Value.Native (v : Value) : Prop :=
  ∀ p, v.Holds p → p ∈ Primitive.catalog

/-- A store whose native functions are those of the catalog. -/
def Store.Native (s : Store) : Prop :=
  ∀ (f : FrameId) (frame : Frame), s.frames[f]? = some frame →
    ∀ entry ∈ frame.bindings, entry.2.Native

namespace Value

theorem native_list {items : List Value} {identity : Option Nat} :
    (Value.list items identity).Native ↔ ∀ v ∈ items, v.Native := by
  constructor
  · intro h v hv p hp
    exact h p (.item hv hp)
  · intro h p hp
    cases hp with
    | item hv hp => exact h _ hv p hp

theorem native_closure {identity : Nat} {formals : List Text} {body : Value} {f : FrameId} :
    (Value.closure identity formals body f).Native ↔ body.Native := by
  constructor
  · intro h p hp
    exact h p (.body hp)
  · intro h p hp
    cases hp with
    | body hp => exact h p hp

theorem native_primitive {identity : Nat} {p : Primitive} :
    (Value.primitive identity p).Native ↔ p ∈ Primitive.catalog := by
  constructor
  · exact fun h => h p .primitive
  · intro h q hq
    cases hq
    exact h

theorem hereditary_native : Hereditary Native where
  integer n := by rintro p ⟨⟩
  boolean b := by rintro p ⟨⟩
  list := native_list.mpr
  items := native_list.mp

end Value

namespace Frame

/-- A property of all the values that a frame binds. -/
theorem forall_bindings_define {P : Value → Prop} {frame : Frame}
    (h : ∀ entry ∈ frame.bindings, P entry.2) (name : Text) {v : Value} (hv : P v) :
    ∀ entry ∈ (frame.define name v).bindings, P entry.2 := by
  intro entry hentry
  rcases Table.mem_insert hentry with rfl | hold
  · exact hv
  · exact h entry hold

theorem forall_bindings_defineAll {P : Value → Prop} {frame : Frame}
    (h : ∀ entry ∈ frame.bindings, P entry.2) {pairs : Table Text Value}
    (hpairs : ∀ entry ∈ pairs, P entry.2) :
    ∀ entry ∈ (frame.defineAll pairs).bindings, P entry.2 := by
  induction pairs generalizing frame with
  | nil => exact h
  | cons entry rest ih =>
    obtain ⟨hentry, hrest⟩ := List.forall_mem_cons.mp hpairs
    exact ih (forall_bindings_define h entry.1 hentry) hrest

end Frame

namespace Store

variable {s : Store}

theorem Native.define (h : s.Native) (f : FrameId) (name : Text) {v : Value} (hv : v.Native) :
    (s.define f name v).Native :=
  forall_frames_define h fun frame hframe => Frame.forall_bindings_define (h f frame hframe) name hv

theorem Native.push (h : s.Native) {frame : Frame}
    (hframe : ∀ entry ∈ frame.bindings, entry.2.Native) : (s.push frame).Native :=
  forall_frames_push h hframe

theorem Native.of_lookup? (h : s.Native) {f : FrameId} {name : Text} {v : Value}
    (hv : s.lookup? f name = some v) : v.Native := by
  obtain ⟨g, -, frame, hframe, hmem⟩ := exists_of_lookup? hv
  exact h g frame hframe (name, v) hmem

/-- A new global frame holds the catalog and the two booleans. -/
theorem Native.pushGlobal (h : s.Native) : s.pushGlobal.Native := by
  have hbindings : ∀ entry ∈ globalBindings s.nextIdentity, entry.2.Native :=
    forall_globalBindings (P := fun _ v => v.Native)
      (fun p hp _ _ => Value.native_primitive.mpr hp) (Value.hereditary_native.boolean true)
      (Value.hereditary_native.boolean false)
  exact h.push (Frame.forall_bindings_defineAll (by simp) hbindings)

end Store

/-- Stores and values have no other native functions than those of the catalog, and failures are
ordinary ones. -/
def nativeInvariant : Invariant :=
  .ofStore Store.Native (fun _ _ => True) (fun _ => Value.Native) Failure.IsOrdinary

theorem isKept_native : nativeInvariant.IsKept where
  frame_mono _ _ := trivial
  value_mono _ hv := hv
  hereditary _ := Value.hereditary_native
  identified := by
    rintro s _ v ⟨rfl, hs⟩ hv
    have hlist : ∀ items : List Value, (Value.list items).Native →
        (Value.list items (some s.nextIdentity)).Native :=
      fun _ h => Value.native_list.mpr (Value.native_list.mp h)
    exact ⟨_, s.precedes_takeIdentity, ⟨rfl, hs⟩, Value.identified_of_list hlist hv⟩
  fault := Failure.isOrdinary_fault
  limit _ := Or.inr
  missing hv haccepts hmisfit :=
    absurd (Primitive.fits_of_accepts (Value.native_primitive.mp hv) haccepts) hmisfit
  lookup hs _ hv := hs.2.of_lookup? hv
  opened _ hv := ⟨trivial, Value.native_closure.mp hv⟩
  closed := by
    rintro s _ formals body f ⟨rfl, hs⟩ _ _ hbody
    exact ⟨_, s.precedes_takeIdentity, ⟨rfl, hs⟩, Value.native_closure.mpr hbody⟩
  record := by
    rintro s _ line ⟨rfl, hs⟩
    exact ⟨_, s.precedes_record line, ⟨rfl, hs⟩, trivial⟩
  define := by
    rintro s _ f name v ⟨rfl, hs⟩ _ _ hv
    exact ⟨_, s.precedes_define f name v, ⟨rfl, hs.define f name hv⟩, trivial⟩
  called := by
    rintro s _ identity formals body f args ⟨rfl, hs⟩ _ hargs
    refine ⟨_, s.precedes_push _, ⟨rfl, hs.push ?_⟩, trivial⟩
    exact Frame.forall_bindings_defineAll (by simp)
      fun entry hentry => hargs entry.2 (List.of_mem_zip hentry).2

end SmallLisp
