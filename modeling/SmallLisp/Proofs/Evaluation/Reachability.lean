import SmallLisp.Proofs.Evaluation.Outcome
import SmallLisp.Proofs.Primitive
/-!
Which frames can be reached from where, and stores that look alike from there.

A value mentions the frames in which the functions in it were made.  Main statements: stores that
are alike on a closed set of frames show, compare and look up the same there, and they stay alike
under every change to the store that an evaluation makes.
-/

namespace SmallLisp

/-- A frame in which some function in a value was made. -/
inductive Value.Mentions (g : FrameId) : Value → Prop
  | frame {identity : Nat} {formals : List Text} {body : Value} :
      Mentions g (.closure identity formals body g)
  | body {identity : Nat} {formals : List Text} {body : Value} {f : FrameId} :
      Mentions g body → Mentions g (.closure identity formals body f)
  | item {items : List Value} {identity : Option Nat} {v : Value} :
      v ∈ items → Mentions g v → Mentions g (.list items identity)

/-- A value that mentions only frames of `A`. -/
def Value.Within (A : FrameId → Prop) (v : Value) : Prop :=
  ∀ g, v.Mentions g → A g

/-- A frame whose parent is in `A` and whose values mention only frames of `A`. -/
structure Frame.Within (A : FrameId → Prop) (frame : Frame) : Prop where
  parent : ∀ p, frame.parent = some p → A p
  bindings : ∀ entry ∈ frame.bindings, entry.2.Within A

/-- The frames that can be reached from some roots: along parents, and through the functions that
reachable frames bind. -/
inductive Store.Reaches (s : Store) (roots : FrameId → Prop) : FrameId → Prop
  | root {f : FrameId} : roots f → Reaches s roots f
  | parent {f g : FrameId} : Reaches s roots f → s.parent? f = some g → Reaches s roots g
  | binding {f g : FrameId} {frame : Frame} {name : Text} {v : Value} : Reaches s roots f →
      s.frames[f]? = some frame → (name, v) ∈ frame.bindings → v.Mentions g → Reaches s roots g

/-- Stores that are alike on a set `A` of frames which is closed and has all frames to come.  Their
traces have grown by the same lines since they were `base` and `base'`. -/
structure Store.Alike (A : FrameId → Prop) (base base' : List Text) (s t : Store) : Prop where
  size : s.frames.size = t.frames.size
  identity : s.nextIdentity = t.nextIdentity
  frames : ∀ f, A f → s.frames[f]? = t.frames[f]?
  within : ∀ f, A f → ∀ frame, s.frames[f]? = some frame → frame.Within A
  fresh : ∀ f, s.frames.size ≤ f → A f
  log : ∃ lines, s.log = lines ++ base ∧ t.log = lines ++ base'

variable {A : FrameId → Prop}

namespace Value

theorem within_list {items : List Value} {identity : Option Nat} :
    (Value.list items identity).Within A ↔ ∀ v ∈ items, v.Within A := by
  constructor
  · intro h v hv g hg
    exact h g (.item hv hg)
  · intro h g hg
    cases hg with
    | item hv hg => exact h _ hv g hg

theorem within_closure {identity : Nat} {formals : List Text} {body : Value} {f : FrameId} :
    (Value.closure identity formals body f).Within A ↔ A f ∧ body.Within A := by
  constructor
  · intro h
    exact ⟨h f .frame, fun g hg => h g (.body hg)⟩
  · rintro ⟨hf, hbody⟩ g hg
    cases hg with
    | frame => exact hf
    | body hg => exact hbody g hg

theorem hereditary_within (A : FrameId → Prop) : Hereditary (Within A) where
  integer n := by rintro g ⟨⟩
  boolean b := by rintro g ⟨⟩
  list := within_list.mpr
  items := within_list.mp

end Value

namespace Frame

theorem Within.define {frame : Frame} (h : frame.Within A) (name : Text) {v : Value}
    (hv : v.Within A) : (frame.define name v).Within A := by
  refine ⟨h.parent, ?_⟩
  intro entry hentry
  rcases Table.mem_insert hentry with rfl | hold
  · exact hv
  · exact h.bindings entry hold

theorem Within.defineAll {frame : Frame} (h : frame.Within A) {pairs : Table Text Value}
    (hpairs : ∀ entry ∈ pairs, entry.2.Within A) : (frame.defineAll pairs).Within A := by
  induction pairs generalizing frame with
  | nil => exact h
  | cons entry rest ih =>
    refine ih (h.define entry.1 (hpairs entry List.mem_cons_self)) ?_
    exact fun e he => hpairs e (List.mem_cons_of_mem entry he)

/-- The frame of a call holds the arguments and lies in the frame of the function. -/
theorem within_calleeFrame {formals : List Text} {frame : FrameId} {args : List Value}
    (hframe : A frame) (hargs : ∀ v ∈ args, v.Within A) :
    (calleeFrame formals frame args).Within A := by
  refine Within.defineAll ⟨?_, by simp⟩ ?_
  · rintro p ⟨⟩
    exact hframe
  · intro entry hentry
    exact hargs entry.2 (List.of_mem_zip hentry).2

end Frame

namespace Store.Alike

variable {base base' : List Text} {s t : Store}

theorem parent? (h : Alike A base base' s t) {f : FrameId} (hf : A f) :
    s.parent? f = t.parent? f := by
  rw [Store.parent?, Store.parent?, h.frames f hf]

theorem of_parent? (h : Alike A base base' s t) {f p : FrameId} (hf : A f)
    (hp : s.parent? f = some p) : A p := by
  obtain ⟨frame, hframe, hparent⟩ := Option.bind_eq_some_iff.mp hp
  exact (h.within f hf frame hframe).parent p hparent

/-- The chain of a frame of the set stays in the set. -/
theorem chainWithin (h : Alike A base base' s t) (fuel : Nat) {f : FrameId} (hf : A f) :
    s.chainWithin fuel f = t.chainWithin fuel f ∧ ∀ g ∈ s.chainWithin fuel f, A g := by
  induction fuel generalizing f with
  | zero => exact ⟨rfl, by simp [Store.chainWithin]⟩
  | succ fuel ih =>
    rw [Store.chainWithin, Store.chainWithin, ← h.parent? hf]
    cases hp : s.parent? f with
    | none => exact ⟨rfl, by simpa using hf⟩
    | some p =>
      obtain ⟨heq, hmem⟩ := ih (h.of_parent? hf hp)
      exact ⟨congrArg (f :: ·) heq, List.forall_mem_cons.mpr ⟨hf, hmem⟩⟩

theorem chain (h : Alike A base base' s t) {f : FrameId} (hf : A f) :
    s.chain f = t.chain f :=
  (h.chainWithin (f + 1) hf).1

theorem of_mem_chain (h : Alike A base base' s t) {f g : FrameId} (hf : A f)
    (hg : g ∈ s.chain f) : A g :=
  (h.chainWithin (f + 1) hf).2 g hg

/-- A search along a chain finds the same, if it looks at nothing but the frames of the chain. -/
theorem findSome?_chain {α : Type} (h : Alike A base base' s t) {f : FrameId} (hf : A f)
    (look : Frame → Option α) :
    (s.chain f).findSome? (fun g => s.frames[g]?.bind look) =
      (t.chain f).findSome? (fun g => t.frames[g]?.bind look) := by
  rw [← h.chain hf]
  have hmem : ∀ g ∈ s.chain f, A g := fun _ => h.of_mem_chain hf
  generalize s.chain f = frames at hmem
  induction frames with
  | nil => rfl
  | cons g outer ih =>
    rw [List.findSome?_cons, List.findSome?_cons, ← h.frames g (hmem g List.mem_cons_self),
      ih fun k hk => hmem k (List.mem_cons_of_mem g hk)]

theorem lookup (h : Alike A base base' s t) {f : FrameId} (hf : A f) (name : Text) :
    s.lookup f name = t.lookup f name :=
  congrArg (Option.elim · _ _) (h.findSome?_chain hf (·.get? name))

/-- What is looked up mentions only frames of the set. -/
theorem ends_lookup (h : Alike A base base' s t) {f : FrameId} (hf : A f) (name : Text) :
    Ends (Value.Within A) (fun _ => True) (s.lookup f name) := by
  rw [Store.lookup]
  cases hv : s.lookup? f name with
  | none => trivial
  | some v =>
    obtain ⟨g, hg, frame, hframe, hmem⟩ := Store.exists_of_lookup? hv
    exact (h.within g (h.of_mem_chain hf hg) frame hframe).bindings (name, v) hmem

theorem functionName (h : Alike A base base' s t) {v : Value} (hv : v.Within A) :
    Value.functionName s v = Value.functionName t v := by
  cases v with
  | closure identity formals body frame =>
    have hframe : A frame := (Value.within_closure.mp hv).1
    exact congrArg (Option.getD · _) (h.findSome?_chain hframe _)
  | _ => rfl

theorem displayWithin (h : Alike A base base' s t) (depth : Nat) {v : Value}
    (hv : v.Within A) : Value.displayWithin s depth v = Value.displayWithin t depth v := by
  induction depth generalizing v with
  | zero => rfl
  | succ depth ih =>
    cases v with
    | list items identity =>
      have hitems : items.mapM (Value.displayWithin s depth) =
          items.mapM (Value.displayWithin t depth) :=
        (UpToLimit.mapM fun v hmem => Or.inl (ih (Value.within_list.mp hv v hmem))).eq_of_not id
      rw [Value.displayWithin, Value.displayWithin, hitems]
    | closure identity formals body frame =>
      rw [Value.displayWithin, Value.displayWithin, h.functionName hv]
    | _ => rfl

/-- Values that mention only frames of the set are seen alike. -/
theorem view (h : Alike A base base' s t) (depth : Nat) {args : List Value}
    (hargs : ∀ v ∈ args, v.Within A) :
    View.UpToLimit False args (s.view depth) (t.view depth) where
  display v hv := Or.inl (h.displayWithin depth (hargs v hv))
  compare _ _ _ _ := UpToLimit.refl _ _

theorem failShowing {α : Type} (h : Alike A base base' s t) (depth : Nat) {v : Value}
    (hv : v.Within A) (fault : Text → Fault) :
    (failShowing (s.view depth) v fault : Except Failure α) =
      SmallLisp.failShowing (t.view depth) v fault :=
  congrArg (· >>= _) (h.displayWithin depth hv)

theorem shownBindings (h : Alike A base base' s t) (depth : Nat) {bindings : List (Text × Value)}
    (hbindings : ∀ entry ∈ bindings, entry.2.Within A) :
    Value.shownBindings s depth bindings = Value.shownBindings t depth bindings := by
  induction bindings with
  | nil => rfl
  | cons entry rest ih =>
    obtain ⟨name, v⟩ := entry
    have hrest := ih fun e he => hbindings e (List.mem_cons_of_mem _ he)
    have hdisplay := h.displayWithin depth (hbindings _ List.mem_cons_self)
    cases v <;> simp only [Value.shownBindings, hrest, hdisplay]

theorem frameTextWithin (h : Alike A base base' s t) (depth : Nat) {f : FrameId} (hf : A f) :
    s.frameTextWithin depth f = t.frameTextWithin depth f := by
  have hbindings : s.bindingsTextWithin depth f = t.bindingsTextWithin depth f := by
    rw [Store.bindingsTextWithin, Store.bindingsTextWithin, ← h.frames f hf]
    cases hframe : s.frames[f]? with
    | none => rfl
    | some frame =>
      exact congrArg (· >>= _) (h.shownBindings depth (h.within f hf frame hframe).bindings)
  rw [Store.frameTextWithin, Store.frameTextWithin, hbindings, h.parent? hf]

theorem detailedWithin (h : Alike A base base' s t) (depth : Nat) {v : Value}
    (hv : v.Within A) : Value.detailedWithin s depth v = Value.detailedWithin t depth v := by
  induction depth generalizing v with
  | zero => rfl
  | succ depth ih =>
    cases v with
    | list items identity =>
      cases items with
      | nil => rfl
      | cons item rest =>
        have hitems : (item :: rest).mapM (Value.detailedWithin s depth) =
            (item :: rest).mapM (Value.detailedWithin t depth) :=
          (UpToLimit.mapM fun v hmem =>
            Or.inl (ih (Value.within_list.mp hv v hmem))).eq_of_not id
        simp only [Value.detailedWithin, hitems]
    | closure identity formals body frame =>
      obtain ⟨hframe, hbody⟩ := Value.within_closure.mp hv
      simp only [Value.detailedWithin, h.functionName hv, h.displayWithin depth hbody,
        h.frameTextWithin depth hframe]
    | _ => rfl

theorem define (h : Alike A base base' s t) (f : FrameId) (name : Text) {v : Value}
    (hv : v.Within A) : Alike A base base' (s.define f name v) (t.define f name v) where
  size := by simpa [Store.define] using h.size
  identity := h.identity
  frames g hg := by
    simp only [Store.define, Array.getElem?_modify, h.frames g hg]
  within g hg frame hframe :=
    Store.forall_frames_define (P := fun g frame => A g → frame.Within A)
      (fun g frame hframe hg => h.within g hg frame hframe)
      (fun old hold hf => (h.within f hf old hold).define name hv) g frame hframe hg
  fresh g hg := h.fresh g (by simpa [Store.define] using hg)
  log := h.log

theorem push (h : Alike A base base' s t) {frame : Frame} (hframe : frame.Within A) :
    Alike A base base' (s.push frame) (t.push frame) where
  size := by simpa [Store.push] using h.size
  identity := h.identity
  frames g hg := by
    simp only [Store.push, Array.getElem?_push, h.size, h.frames g hg]
  within g hg other hother :=
    Store.forall_frames_push (P := fun g frame => A g → frame.Within A)
      (fun g other hother hg => h.within g hg other hother) (fun _ => hframe) g other hother hg
  fresh g hg := h.fresh g (by
    simp only [Store.push, Array.size_push] at hg
    omega)
  log := h.log

theorem takeIdentity (h : Alike A base base' s t) :
    Alike A base base' s.takeIdentity t.takeIdentity where
  size := h.size
  identity := congrArg (· + 1) h.identity
  frames := h.frames
  within := h.within
  fresh := h.fresh
  log := h.log

theorem record (h : Alike A base base' s t) (line : Text) :
    Alike A base base' (s.record line) (t.record line) where
  size := h.size
  identity := h.identity
  frames := h.frames
  within := h.within
  fresh := h.fresh
  log := by
    obtain ⟨lines, hs, ht⟩ := h.log
    exact ⟨line :: lines, congrArg (line :: ·) hs, congrArg (line :: ·) ht⟩

theorem nextFrame (h : Alike A base base' s t) :
    s.nextFrame = t.nextFrame ∧ A s.nextFrame :=
  ⟨h.size, h.fresh s.nextFrame (Nat.le_refl _)⟩

end Store.Alike

end SmallLisp
