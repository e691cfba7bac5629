import SmallLisp.Proofs.Evaluation.Native
/-!
The supply of identities.

Functions and lists take their identities from the supply of the store.  Main statement: it is an
invariant of evaluation that every identity in use has been taken from the supply, so that what
comes next is told apart from all that is there.
-/

namespace SmallLisp

/-- An identity of a function or of a list in a value. -/
inductive Value.Bears (i : Nat) : Value → Prop
  | list {items : List Value} : Bears i (.list items (some i))
  | primitive {p : Primitive} : Bears i (.primitive i p)
  | closure {formals : List Text} {body : Value} {f : FrameId} :
      Bears i (.closure i formals body f)
  | item {items : List Value} {identity : Option Nat} {v : Value} :
      v ∈ items → Bears i v → Bears i (.list items identity)
  | body {identity : Nat} {formals : List Text} {body : Value} {f : FrameId} :
      Bears i body → Bears i (.closure identity formals body f)

/-- A value whose identities are among the first `count`. -/
def Value.Numbered (count : Nat) (v : Value) : Prop :=
  ∀ i, v.Bears i → i < count

/-- A store whose identities in use have been taken from its supply. -/
def Store.Numbered (s : Store) : Prop :=
  ∀ (f : FrameId) (frame : Frame), s.frames[f]? = some frame →
    ∀ entry ∈ frame.bindings, entry.2.Numbered s.nextIdentity

namespace Value

variable {count count' : Nat}

theorem Numbered.mono (hcount : count ≤ count') {v : Value} (h : v.Numbered count) :
    v.Numbered count' :=
  fun i hi => Nat.lt_of_lt_of_le (h i hi) hcount

theorem numbered_symbol (count : Nat) (name : Text) : (Value.symbol name).Numbered count := by
  rintro i ⟨⟩

theorem numbered_integer (count : Nat) (n : Int) : (Value.integer n).Numbered count := by
  rintro i ⟨⟩

theorem numbered_boolean (count : Nat) (b : Bool) : (Value.boolean b).Numbered count := by
  rintro i ⟨⟩

theorem numbered_list {items : List Value} {identity : Option Nat} :
    (Value.list items identity).Numbered count ↔
      (∀ i, identity = some i → i < count) ∧ ∀ v ∈ items, v.Numbered count := by
  constructor
  · intro h
    exact ⟨fun i hi => h i (hi ▸ .list), fun v hv i hi => h i (.item hv hi)⟩
  · rintro ⟨hidentity, hitems⟩ i hi
    cases hi with
    | list => exact hidentity i rfl
    | item hv hi => exact hitems _ hv i hi

theorem numbered_primitive {identity : Nat} (h : identity < count) (p : Primitive) :
    (Value.primitive identity p).Numbered count := by
  rintro i ⟨⟩
  exact h

theorem numbered_closure {identity : Nat} {formals : List Text} {body : Value} {f : FrameId} :
    (Value.closure identity formals body f).Numbered count ↔
      identity < count ∧ body.Numbered count := by
  constructor
  · exact fun h => ⟨h identity .closure, fun i hi => h i (.body hi)⟩
  · rintro ⟨hidentity, hbody⟩ i hi
    cases hi with
    | closure => exact hidentity
    | body hi => exact hbody i hi

theorem hereditary_numbered (count : Nat) : Hereditary (Numbered count) where
  integer := numbered_integer count
  boolean := numbered_boolean count
  list hitems := numbered_list.mpr ⟨nofun, hitems⟩
  items h := (numbered_list.mp h).2

/-- The next identity is in use once it has been taken. -/
theorem Numbered.identified {v : Value} (h : v.Numbered count) :
    (v.identified count).Numbered (count + 1) := by
  refine identified_of_list (fun items hitems => numbered_list.mpr ⟨?_, ?_⟩)
    (h.mono (Nat.le_succ count))
  · rintro i ⟨⟩
    exact Nat.lt_succ_self count
  · exact (numbered_list.mp hitems).2

end Value

namespace Store

variable {s : Store}

theorem numbered_empty : Store.Numbered {} := by
  intro f frame hframe
  simp at hframe

theorem Numbered.takeIdentity (h : s.Numbered) : s.takeIdentity.Numbered :=
  fun f frame hframe entry hentry => (h f frame hframe entry hentry).mono (Nat.le_succ _)

theorem Numbered.define (h : s.Numbered) (f : FrameId) (name : Text) {v : Value}
    (hv : v.Numbered s.nextIdentity) : (s.define f name v).Numbered :=
  forall_frames_define h fun frame hframe => Frame.forall_bindings_define (h f frame hframe) name hv

theorem Numbered.push (h : s.Numbered) {frame : Frame}
    (hframe : ∀ entry ∈ frame.bindings, entry.2.Numbered s.nextIdentity) :
    (s.push frame).Numbered :=
  forall_frames_push h hframe

/-- A new global frame takes as many identities as there are functions in the catalog. -/
theorem Numbered.pushGlobal (h : s.Numbered) : s.pushGlobal.Numbered := by
  have hold : ∀ (f : FrameId) (frame : Frame), s.frames[f]? = some frame →
      ∀ entry ∈ frame.bindings, entry.2.Numbered s.pushGlobal.nextIdentity :=
    fun f frame hframe entry hentry => (h f frame hframe entry hentry).mono (Nat.le_add_right _ _)
  have hbindings : ∀ entry ∈ globalBindings s.nextIdentity,
      entry.2.Numbered s.pushGlobal.nextIdentity :=
    forall_globalBindings (P := fun _ v => v.Numbered s.pushGlobal.nextIdentity)
      (fun p _ _ hidentity => Value.numbered_primitive hidentity p)
      (Value.numbered_boolean _ true) (Value.numbered_boolean _ false)
  exact forall_frames_push hold (Frame.forall_bindings_defineAll (by simp) hbindings)

end Store

/-- That all identities in use have been taken from the supply, as an invariant. -/
def numberedInvariant : Invariant :=
  .ofStore Store.Numbered (fun _ _ => True) (fun s v => v.Numbered s.nextIdentity) fun _ => True

theorem isKept_numbered : numberedInvariant.IsKept where
  frame_mono _ _ := trivial
  value_mono hprecedes hv := hv.mono hprecedes.identity
  hereditary s := Value.hereditary_numbered s.nextIdentity
  identified := by
    rintro s _ v ⟨rfl, hs⟩ hv
    exact ⟨_, s.precedes_takeIdentity, ⟨rfl, hs.takeIdentity⟩, hv.identified⟩
  fault _ := trivial
  limit _ _ := trivial
  missing _ _ _ := trivial
  lookup hs _ hv := by
    obtain ⟨g, -, frame, hframe, hmem⟩ := Store.exists_of_lookup? hv
    exact hs.1 ▸ hs.2 g frame hframe _ hmem
  opened _ hclosure := ⟨trivial, (Value.numbered_closure.mp hclosure).2⟩
  closed := by
    rintro s _ formals body f ⟨rfl, hs⟩ _ _ hbody
    refine ⟨_, s.precedes_takeIdentity, ⟨rfl, hs.takeIdentity⟩, ?_⟩
    exact Value.numbered_closure.mpr ⟨Nat.lt_succ_self _, hbody.mono (Nat.le_succ _)⟩
  record := by
    rintro s _ line ⟨rfl, hs⟩
    exact ⟨_, s.precedes_record line, ⟨rfl, hs⟩, trivial⟩
  define := by
    rintro s _ f name v ⟨rfl, hs⟩ _ _ hv
    exact ⟨_, s.precedes_define f name v, ⟨rfl, hs.define f name hv⟩, trivial⟩
  called := by
    rintro s _ identity formals body f args ⟨rfl, hs⟩ _ hargs
    refine ⟨_, s.precedes_push _, ⟨rfl, hs.push ?_⟩, trivial⟩
    exact Frame.forall_bindings_defineAll (by simp)
      fun entry hentry => hargs entry.2 (List.of_mem_zip hentry).2

end SmallLisp
