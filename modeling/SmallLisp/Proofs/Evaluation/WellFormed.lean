import SmallLisp.Proofs.Evaluation.Invariant
/-!
Well-formed stores.

Old frames may hold functions that were made in newer ones, so values lead around in circles; the
parents of frames do not.  Main statements: it is an invariant of evaluation that parents come
before their children, that functions were made in frames that exist, and that frames and functions
have symbols as names, each key once; so the way along the parents ends.
-/

namespace SmallLisp

/-- A value in a store of `count` frames: its symbols have names, and so have the parameters of its
functions, which were made in frames of the store.  Data of an embedding program are in it only if
there are `guests`. -/
inductive Value.WellFormed (guests : Prop) (count : Nat) : Value → Prop
  | symbol {name : Text} : name ≠ [] → WellFormed guests count (.symbol name)
  | integer (n : Int) : WellFormed guests count (.integer n)
  | boolean (b : Bool) : WellFormed guests count (.boolean b)
  | list {items : List Value} (identity : Option Nat) : (∀ v ∈ items, WellFormed guests count v) →
      WellFormed guests count (.list items identity)
  | primitive (identity : Nat) (p : Primitive) : WellFormed guests count (.primitive identity p)
  | closure (identity : Nat) {formals : List Text} {body : Value} {f : FrameId} :
      (∀ name ∈ formals, name ≠ []) → WellFormed guests count body → f < count →
      WellFormed guests count (.closure identity formals body f)
  | foreign (text : Option Text) : guests → WellFormed guests count (.foreign text)

/-- A frame at a place of a store of `count` frames: its parent comes before it, its keys are names
of symbols, each there once, and its values are well-formed. -/
structure Frame.WellFormed (guests : Prop) (count : Nat) (place : FrameId) (frame : Frame) :
    Prop where
  parent : ∀ p, frame.parent = some p → p < place
  nodup : (Table.keys frame.bindings).Nodup
  names : ∀ name ∈ Table.keys frame.bindings, name ≠ []
  values : ∀ entry ∈ frame.bindings, entry.2.WellFormed guests count

/-- A store of well-formed frames. -/
def Store.WellFormed (guests : Prop) (s : Store) : Prop :=
  ∀ (f : FrameId) (frame : Frame), s.frames[f]? = some frame →
    frame.WellFormed guests s.frames.size f

variable {guests : Prop}

namespace Value

variable {count count' : Nat}

theorem wellFormed_list {items : List Value} {identity : Option Nat} :
    (Value.list items identity).WellFormed guests count ↔
      ∀ v ∈ items, v.WellFormed guests count := by
  constructor
  · intro h
    cases h with
    | list _ hitems => exact hitems
  · exact .list identity

theorem hereditary_wellFormed (guests : Prop) (count : Nat) :
    Hereditary (WellFormed guests count) where
  integer := .integer
  boolean := .boolean
  list := wellFormed_list.mpr
  items := wellFormed_list.mp

/-- A value is well-formed in every store with more frames. -/
theorem WellFormed.mono (hcount : count ≤ count') {v : Value} (h : v.WellFormed guests count) :
    v.WellFormed guests count' := by
  induction h with
  | symbol hname => exact .symbol hname
  | integer n => exact .integer n
  | boolean b => exact .boolean b
  | list identity _ ih => exact .list identity ih
  | primitive identity p => exact .primitive identity p
  | closure identity hformals _ hf ih =>
    exact .closure identity hformals ih (Nat.lt_of_lt_of_le hf hcount)
  | foreign text hguests => exact .foreign text hguests

theorem WellFormed.name_ne_nil {name : Text} (h : (Value.symbol name).WellFormed guests count) :
    name ≠ [] := by
  cases h with
  | symbol hname => exact hname

end Value

namespace Frame

variable {count count' : Nat} {place : FrameId} {frame : Frame}

theorem WellFormed.mono (hcount : count ≤ count') (h : frame.WellFormed guests count place) :
    frame.WellFormed guests count' place where
  parent := h.parent
  nodup := h.nodup
  names := h.names
  values entry hentry := (h.values entry hentry).mono hcount

theorem WellFormed.define (h : frame.WellFormed guests count place) {name : Text} {v : Value}
    (hname : name ≠ []) (hv : v.WellFormed guests count) :
    (frame.define name v).WellFormed guests count place where
  parent := h.parent
  nodup := Table.nodup_keys_insert name v h.nodup
  names other hother := by
    by_cases hkey : name ∈ Table.keys frame.bindings
    · rw [Frame.define, Table.keys_insert_of_mem v hkey] at hother
      exact h.names other hother
    · rw [Frame.define, Table.keys_insert_of_not_mem v hkey] at hother
      rcases List.mem_append.mp hother with hold | hnew
      · exact h.names other hold
      · exact List.mem_singleton.mp hnew ▸ hname
  values := by
    intro entry hentry
    rcases Table.mem_insert hentry with rfl | hold
    · exact hv
    · exact h.values entry hold

theorem WellFormed.defineAll (h : frame.WellFormed guests count place) {pairs : Table Text Value}
    (hpairs : ∀ entry ∈ pairs, entry.1 ≠ [] ∧ entry.2.WellFormed guests count) :
    (frame.defineAll pairs).WellFormed guests count place := by
  induction pairs generalizing frame with
  | nil => exact h
  | cons entry rest ih =>
    obtain ⟨⟨hname, hv⟩, hrest⟩ := List.forall_mem_cons.mp hpairs
    exact ih (h.define hname hv) hrest

/-- A frame without bindings. -/
theorem wellFormed_child {parent : Option FrameId} (h : ∀ p, parent = some p → p < place) :
    Frame.WellFormed guests count place { parent } where
  parent := h
  nodup := List.nodup_nil
  names := by simp [Table.keys]
  values := by simp

end Frame

namespace Store

variable {s : Store} {f : FrameId}

theorem wellFormed_empty (guests : Prop) : Store.WellFormed guests {} := by
  intro f frame hframe
  simp at hframe

/-- Every parent in a well-formed store comes before its children. -/
theorem WellFormed.parentsFirst (h : s.WellFormed guests) : s.ParentsFirst :=
  ParentsFirst.iff_forall_frames.mpr fun f frame hframe => (h f frame hframe).parent

theorem WellFormed.define (h : s.WellFormed guests) (f : FrameId) {name : Text} {v : Value}
    (hname : name ≠ []) (hv : v.WellFormed guests s.frames.size) :
    (s.define f name v).WellFormed guests := by
  have hsize : (s.define f name v).frames.size = s.frames.size := by simp [Store.define]
  rw [Store.WellFormed, hsize]
  exact forall_frames_define h fun frame hframe => (h f frame hframe).define hname hv

theorem WellFormed.push (h : s.WellFormed guests) {frame : Frame}
    (hframe : frame.WellFormed guests s.frames.size s.nextFrame) :
    (s.push frame).WellFormed guests := by
  have hsize : s.frames.size ≤ (s.push frame).frames.size := by simp [Store.push]
  have hold : ∀ (g : FrameId) (other : Frame), s.frames[g]? = some other →
      other.WellFormed guests (s.push frame).frames.size g :=
    fun g other hother => (h g other hother).mono hsize
  exact forall_frames_push hold (hframe.mono hsize)

/-- The frame of a call. -/
theorem wellFormed_calleeFrame {identity : Nat} {formals : List Text} {body : Value}
    (hclosure : (Value.closure identity formals body f).WellFormed guests s.frames.size)
    {args : List Value} (hargs : ∀ v ∈ args, v.WellFormed guests s.frames.size) :
    (calleeFrame formals f args).WellFormed guests s.frames.size s.nextFrame := by
  cases hclosure with
  | closure _ hformals _ hf =>
    refine (Frame.wellFormed_child ?_).defineAll ?_
    · rintro p ⟨⟩
      exact hf
    · intro entry hentry
      obtain ⟨hname, hv⟩ := List.of_mem_zip hentry
      exact ⟨hformals _ hname, hargs _ hv⟩

/-- A new global frame is well-formed. -/
theorem WellFormed.pushGlobal (h : s.WellFormed guests) : s.pushGlobal.WellFormed guests := by
  have hnames : ∀ p ∈ Primitive.catalog, p.name ≠ [] := by decide
  have hbindings : ∀ entry ∈ globalBindings s.nextIdentity,
      entry.1 ≠ [] ∧ entry.2.WellFormed guests s.frames.size :=
    forall_globalBindings
      (P := fun name v => name ≠ [] ∧ v.WellFormed guests s.frames.size)
      (fun p hp identity _ => ⟨hnames p hp, .primitive identity p⟩) ⟨by decide, .boolean true⟩
      ⟨by decide, .boolean false⟩
  have hempty : Frame.WellFormed guests s.frames.size s.nextFrame {} :=
    Frame.wellFormed_child nofun
  exact h.push (hempty.defineAll hbindings)

end Store

/-- That the store and the values are well-formed, as an invariant. -/
def wellFormedInvariant (guests : Prop) : Invariant :=
  .ofStore (Store.WellFormed guests) (fun s f => f < s.frames.size)
    (fun s v => v.WellFormed guests s.frames.size) fun _ => True

theorem isKept_wellFormed (guests : Prop) : (wellFormedInvariant guests).IsKept where
  frame_mono hprecedes hf := Nat.lt_of_lt_of_le hf hprecedes.frames
  value_mono hprecedes hv := hv.mono hprecedes.frames
  hereditary s := Value.hereditary_wellFormed guests s.frames.size
  identified := by
    rintro s _ v ⟨rfl, hs⟩ hv
    have hlist : ∀ items : List Value, (Value.list items).WellFormed guests s.frames.size →
        (Value.list items (some s.nextIdentity)).WellFormed guests s.frames.size :=
      fun _ h => Value.wellFormed_list.mpr (Value.wellFormed_list.mp h)
    exact ⟨_, s.precedes_takeIdentity, ⟨rfl, hs⟩, Value.identified_of_list hlist hv⟩
  fault _ := trivial
  limit _ _ := trivial
  missing _ _ _ := trivial
  lookup hs _ hv := by
    obtain ⟨g, -, frame, hframe, hmem⟩ := Store.exists_of_lookup? hv
    exact hs.1 ▸ (hs.2 g frame hframe).values _ hmem
  opened _ hclosure := by
    cases hclosure with
    | closure _ _ hbody hf => exact ⟨hf, hbody⟩
  closed := by
    rintro s _ formals body f ⟨rfl, hs⟩ hf hformals hbody
    refine ⟨_, s.precedes_takeIdentity, ⟨rfl, hs⟩, ?_⟩
    exact .closure _ (fun name hname => (hformals name hname).name_ne_nil) hbody hf
  record := by
    rintro s _ line ⟨rfl, hs⟩
    exact ⟨_, s.precedes_record line, ⟨rfl, hs⟩, trivial⟩
  define := by
    rintro s _ f name v ⟨rfl, hs⟩ _ hname hv
    exact ⟨_, s.precedes_define f name v, ⟨rfl, hs.define f hname.name_ne_nil hv⟩, trivial⟩
  called := by
    rintro s _ identity formals body f args ⟨rfl, hs⟩ hclosure hargs
    have hlt : s.nextFrame < (s.push (calleeFrame formals f args)).frames.size := by
      simp [Store.push, Store.nextFrame]
    have hframe := Store.wellFormed_calleeFrame hclosure hargs
    exact ⟨_, s.precedes_push _, ⟨rfl, hs.push hframe⟩, hlt⟩

section Walk

/-- The frames on the way from a frame along the parents, up to one that has none. -/
inductive Store.Walk (s : Store) : FrameId → List FrameId → Prop
  | last {f : FrameId} : s.parent? f = none → Walk s f [f]
  | next {f p : FrameId} {frames : List FrameId} : s.parent? f = some p → Walk s p frames →
      Walk s f (f :: frames)

/-- In a store whose parents come first, the way along the parents ends, and the chain is all of
it. -/
theorem Store.walk_chain {s : Store} (h : s.ParentsFirst) (f : FrameId) :
    s.Walk f (s.chain f) := by
  induction f using Nat.strongRecOn with
  | ind f ih =>
    rw [chain_eq h]
    cases hp : s.parent? f with
    | none => exact .last hp
    | some p => exact .next hp (ih p (h f p hp))

end Walk

end SmallLisp
