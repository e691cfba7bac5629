import SmallLisp.Proofs.Evaluation.Native
/-!
What has been made so far.

Functions and lists take an identity when they are made.  A history is the list of all values that
have taken one; whatever else there is, in the store or in the hands of an evaluation, is made of
them.  Main statements: in every store that the operations on stores lead to, no two values of the
history share an identity, and the next one is free; every evaluation, however it ends, leads to
such a store again and returns what is made of the values of its history.
-/

namespace SmallLisp

open Evaluation

namespace Value

/-- The identity of a function, and of a list that has one. -/
def identity? : Value → Option Nat
  | .list _ identity => identity
  | .primitive identity _ | .closure identity _ _ _ => some identity
  | _ => none

/-- A value itself, the elements of a list and the body of a function, and what is in them. -/
inductive PartOf (part : Value) : Value → Prop
  | whole : PartOf part part
  | item {items : List Value} {identity : Option Nat} {v : Value} :
      v ∈ items → PartOf part v → PartOf part (.list items identity)
  | body {identity : Nat} {formals : List Text} {body : Value} {f : FrameId} :
      PartOf part body → PartOf part (.closure identity formals body f)

/-- A value for which no other identities are needed than those of `made`. -/
inductive MadeOf (made : List Value) : Value → Prop
  | made {v : Value} : v ∈ made → MadeOf made v
  | symbol (name : Text) : MadeOf made (.symbol name)
  | integer (n : Int) : MadeOf made (.integer n)
  | boolean (b : Bool) : MadeOf made (.boolean b)
  | foreign (text : Option Text) : MadeOf made (.foreign text)
  | list {items : List Value} : (∀ v ∈ items, MadeOf made v) → MadeOf made (.list items)
  | item {items : List Value} {identity : Option Nat} {v : Value} :
      MadeOf made (.list items identity) → v ∈ items → MadeOf made v
  | body {identity : Nat} {formals : List Text} {body : Value} {f : FrameId} :
      MadeOf made (.closure identity formals body f) → MadeOf made body

end Value

/-- The functions of the catalog with identities from `first` on. -/
def Store.primitives (first : Nat) : List Value :=
  (Primitive.catalog.zipIdx first).map fun (p, identity) => .primitive identity p

/-- The stores that the operations on stores lead to, each with all values that have taken an
identity on the way, the latest first.  The stores in the middle of an evaluation are among them. -/
inductive Store.Reached : Store → List Value → Prop
  | empty : Reached {} []
  | global {s : Store} {made : List Value} : Reached s made →
      Reached s.pushGlobal (Store.primitives s.nextIdentity ++ made)
  | child {s : Store} {made : List Value} {f : FrameId} : Reached s made → f < s.frames.size →
      Reached (s.push { parent := some f }) made
  /-- The frame of a call. -/
  | called {s : Store} {made : List Value} {identity : Nat} {formals : List Text} {body : Value}
      {f : FrameId} {args : List Value} : Reached s made →
      (Value.closure identity formals body f).MadeOf made → (∀ v ∈ args, v.MadeOf made) →
      Reached (s.push (calleeFrame formals f args)) made
  | define {s : Store} {made : List Value} (f : FrameId) (name : Text) {v : Value} :
      Reached s made → v.MadeOf made → Reached (s.define f name v) made
  | list {s : Store} {made : List Value} {items : List Value} : Reached s made →
      (Value.list items).MadeOf made →
      Reached s.takeIdentity (.list items (some s.nextIdentity) :: made)
  | closure {s : Store} {made : List Value} (formals : List Text) {body : Value} {f : FrameId} :
      Reached s made → body.MadeOf made → f < s.frames.size →
      Reached s.takeIdentity (.closure s.nextIdentity formals body f :: made)
  /-- An identity that is given to nothing. -/
  | skipped {s : Store} {made : List Value} : Reached s made → Reached s.takeIdentity made
  /-- A line is added to the trace, or the trace is taken away. -/
  | logged {s : Store} {made : List Value} (log : List Text) : Reached s made →
      Reached { s with log } made

namespace Value

variable {made made' : List Value}

theorem MadeOf.mono (hsub : made ⊆ made') {v : Value} (h : v.MadeOf made) : v.MadeOf made' := by
  induction h with
  | made hv => exact .made (hsub hv)
  | symbol name => exact .symbol name
  | integer n => exact .integer n
  | boolean b => exact .boolean b
  | foreign text => exact .foreign text
  | list _ ih => exact .list ih
  | item _ hv ih => exact .item ih hv
  | body _ ih => exact .body ih

theorem hereditary_madeOf (made : List Value) : Hereditary (MadeOf made) where
  integer := .integer
  boolean := .boolean
  list := .list
  items h _ hv := .item h hv

/-- Whatever has an identity in a value that is made of others is one of them, if all that is in
them is. -/
theorem MadeOf.mem_of_partOf
    (hparts : ∀ v ∈ made, ∀ part : Value, part.PartOf v → part.identity? ≠ none → part ∈ made)
    {v : Value} (h : v.MadeOf made) {part : Value} (hpart : part.PartOf v)
    (hidentity : part.identity? ≠ none) : part ∈ made := by
  induction h with
  | made hv => exact hparts _ hv part hpart hidentity
  | symbol | integer | boolean | foreign =>
    cases hpart
    exact absurd rfl hidentity
  | list _ ih =>
    cases hpart with
    | whole => exact absurd rfl hidentity
    | item hv hpart => exact ih _ hv hpart
  | item _ hv ih => exact ih (.item hv hpart)
  | body _ ih => exact ih (.body hpart)

end Value

/-- What holds of a frame at a place of a store with a history. -/
structure Frame.Records (made : List Value) (place : FrameId) (frame : Frame) : Prop where
  parent : ∀ p, frame.parent = some p → p < place
  nodup : (Table.keys frame.bindings).Nodup
  values : ∀ entry ∈ frame.bindings, entry.2.MadeOf made

/-- What holds of a store with a history. -/
structure Store.Records (s : Store) (made : List Value) : Prop where
  frames : ∀ (f : FrameId) (frame : Frame), s.frames[f]? = some frame → frame.Records made f
  /-- The identities of the history have been taken from the supply. -/
  taken : ∀ v ∈ made, ∃ i, v.identity? = some i ∧ i < s.nextIdentity
  unique : ∀ v ∈ made, ∀ w ∈ made, v.identity? = w.identity? → v = w
  parts : ∀ v ∈ made, ∀ part : Value, part.PartOf v → part.identity? ≠ none → part ∈ made
  /-- Functions were made in frames of the store. -/
  opened : ∀ identity formals body f, Value.closure identity formals body f ∈ made →
    f < s.frames.size

namespace Frame

variable {made made' : List Value} {place : FrameId} {frame : Frame}

theorem Records.mono (hsub : made ⊆ made') (h : frame.Records made place) :
    frame.Records made' place :=
  ⟨h.parent, h.nodup, fun entry hentry => (h.values entry hentry).mono hsub⟩

theorem Records.define (h : frame.Records made place) (name : Text) {v : Value}
    (hv : v.MadeOf made) : (frame.define name v).Records made place :=
  ⟨h.parent, Table.nodup_keys_insert name v h.nodup, forall_bindings_define h.values name hv⟩

theorem Records.defineAll (h : frame.Records made place) {pairs : Table Text Value}
    (hpairs : ∀ entry ∈ pairs, entry.2.MadeOf made) :
    (frame.defineAll pairs).Records made place := by
  induction pairs generalizing frame with
  | nil => exact h
  | cons entry rest ih =>
    obtain ⟨hentry, hrest⟩ := List.forall_mem_cons.mp hpairs
    exact ih (h.define entry.1 hentry) hrest

/-- A frame without bindings. -/
theorem records_child {parent : Option FrameId} (h : ∀ p, parent = some p → p < place) :
    Frame.Records made place { parent } :=
  ⟨h, List.nodup_nil, by simp⟩

end Frame

namespace Store

variable {s : Store} {made : List Value}

namespace Records

theorem parentsFirst (h : s.Records made) : s.ParentsFirst :=
  ParentsFirst.iff_forall_frames.mpr fun f frame hframe => (h.frames f frame hframe).parent

/-- A value with an identity that is made of the history is in it. -/
theorem mem_of_madeOf (h : s.Records made) {v : Value} (hv : v.MadeOf made)
    (hidentity : v.identity? ≠ none) : v ∈ made :=
  hv.mem_of_partOf h.parts .whole hidentity

/-- An identity stands for one value. -/
theorem eq_of_identity? (h : s.Records made) {v w : Value} (hv : v.MadeOf made)
    (hw : w.MadeOf made) (hsame : v.identity? = w.identity?) (hidentity : w.identity? ≠ none) :
    v = w :=
  h.unique v (h.mem_of_madeOf hv (hsame ▸ hidentity)) w (h.mem_of_madeOf hw hidentity) hsame

/-- A function is equal to itself alone. -/
theorem equal_iff_eq (h : s.Records made) {v w : Value} (hv : v.MadeOf made) (hw : w.MadeOf made)
    (hfunction : w.isFunction = true) : v.equal w = true ↔ v = w := by
  constructor
  · intro hequal
    have hidentity : v.identity? = w.identity? ∧ w.identity? ≠ none := by
      cases w <;> simp [Value.isFunction] at hfunction <;> cases v <;>
        simp_all [Value.equal, Value.identity?]
    exact h.eq_of_identity? hv hw hidentity.1 hidentity.2
  · rintro rfl
    cases v <;> simp [Value.isFunction] at hfunction <;> simp [Value.equal]

/-- Another frame changes nothing for the history. -/
theorem push (h : s.Records made) {frame : Frame} (hframe : frame.Records made s.nextFrame) :
    (s.push frame).Records made where
  frames := forall_frames_push h.frames hframe
  taken := h.taken
  unique := h.unique
  parts := h.parts
  opened identity formals body f hmem := by
    have hf := h.opened identity formals body f hmem
    simp only [Store.push, Array.size_push]
    exact Nat.lt_succ_of_lt hf

theorem define (h : s.Records made) (f : FrameId) (name : Text) {v : Value}
    (hv : v.MadeOf made) : (s.define f name v).Records made where
  frames :=
    forall_frames_define h.frames fun frame hframe => (h.frames f frame hframe).define name hv
  taken := h.taken
  unique := h.unique
  parts := h.parts
  opened identity formals body g hmem := by
    simpa [Store.define] using h.opened identity formals body g hmem

/-- Values that take the next identities join the history. -/
theorem extend (h : s.Records made) {new : List Value} {next : Nat} (hnext : s.nextIdentity ≤ next)
    (htaken : ∀ v ∈ new, ∃ i, v.identity? = some i ∧ s.nextIdentity ≤ i ∧ i < next)
    (hunique : ∀ v ∈ new, ∀ w ∈ new, v.identity? = w.identity? → v = w)
    (hparts : ∀ v ∈ new, ∀ part : Value, part.PartOf v → part.identity? ≠ none →
      part ∈ new ++ made)
    (hopened : ∀ identity formals body f, Value.closure identity formals body f ∈ new →
      f < s.frames.size) :
    ({ s with nextIdentity := next } : Store).Records (new ++ made) := by
  -- All identities of the history are below the supply, and the new ones are not.
  have hfresh : ∀ v ∈ new, ∀ w ∈ made, v.identity? ≠ w.identity? := by
    intro v hv w hw heq
    obtain ⟨i, hi, hle, -⟩ := htaken v hv
    obtain ⟨j, hj, hlt⟩ := h.taken w hw
    rw [hi, hj, Option.some.injEq] at heq
    omega
  constructor
  · exact fun f frame hframe => (h.frames f frame hframe).mono (List.subset_append_right _ _)
  · intro v hv
    rcases List.mem_append.mp hv with hnew | hold
    · obtain ⟨i, hi, -, hlt⟩ := htaken v hnew
      exact ⟨i, hi, hlt⟩
    · obtain ⟨i, hi, hlt⟩ := h.taken v hold
      exact ⟨i, hi, Nat.lt_of_lt_of_le hlt hnext⟩
  · intro v hv w hw heq
    rcases List.mem_append.mp hv with hv | hv <;> rcases List.mem_append.mp hw with hw | hw
    · exact hunique v hv w hw heq
    · exact absurd heq (hfresh v hv w hw)
    · exact absurd heq.symm (hfresh w hw v hv)
    · exact h.unique v hv w hw heq
  · intro v hv part hpart hidentity
    rcases List.mem_append.mp hv with hnew | hold
    · exact hparts v hnew part hpart hidentity
    · exact List.mem_append_right _ (h.parts v hold part hpart hidentity)
  · intro identity formals body f hmem
    rcases List.mem_append.mp hmem with hnew | hold
    · exact hopened identity formals body f hnew
    · exact h.opened identity formals body f hold

theorem takeIdentity (h : s.Records made) : s.takeIdentity.Records made := by
  have hextend : ({ s with nextIdentity := s.nextIdentity + 1 } : Store).Records ([] ++ made) :=
    h.extend (Nat.le_succ s.nextIdentity) nofun nofun nofun nofun
  exact hextend

/-- One value that takes the next identity, with parts that are there already. -/
theorem cons (h : s.Records made) {v : Value} (hv : v.identity? = some s.nextIdentity)
    (hparts : ∀ part : Value, part.PartOf v → part.identity? ≠ none → part = v ∨ part ∈ made)
    (hopened : ∀ identity formals body f, v = .closure identity formals body f →
      f < s.frames.size) : s.takeIdentity.Records (v :: made) := by
  have hextend : ({ s with nextIdentity := s.nextIdentity + 1 } : Store).Records ([v] ++ made) := by
    refine h.extend (Nat.le_succ s.nextIdentity) ?_ ?_ ?_ ?_
    · intro w hw
      obtain rfl := List.mem_singleton.mp hw
      exact ⟨_, hv, Nat.le_refl _, Nat.lt_succ_self _⟩
    · intro w hw w' hw' _
      rw [List.mem_singleton.mp hw, List.mem_singleton.mp hw']
    · intro w hw part hpart hidentity
      obtain rfl := List.mem_singleton.mp hw
      exact List.mem_cons.mpr (hparts part hpart hidentity)
    · intro identity formals body f hmem
      exact hopened identity formals body f (List.mem_singleton.mp hmem).symm
  exact hextend

theorem list (h : s.Records made) {items : List Value} (hitems : (Value.list items).MadeOf made) :
    s.takeIdentity.Records (.list items (some s.nextIdentity) :: made) := by
  refine h.cons rfl (fun part hpart hidentity => ?_) nofun
  cases hpart with
  | whole => exact Or.inl rfl
  | item hv hpart => exact Or.inr ((hitems.item hv).mem_of_partOf h.parts hpart hidentity)

theorem closure (h : s.Records made) (formals : List Text) {body : Value}
    (hbody : body.MadeOf made) {f : FrameId} (hf : f < s.frames.size) :
    s.takeIdentity.Records (.closure s.nextIdentity formals body f :: made) := by
  refine h.cons rfl (fun part hpart hidentity => ?_) ?_
  · cases hpart with
    | whole => exact Or.inl rfl
    | body hpart => exact Or.inr (hbody.mem_of_partOf h.parts hpart hidentity)
  · rintro identity formals' body' g ⟨⟩
    exact hf

/-- A new global frame has functions of its own. -/
theorem pushGlobal (h : s.Records made) :
    s.pushGlobal.Records (primitives s.nextIdentity ++ made) := by
  have hprimitive : ∀ v ∈ primitives s.nextIdentity, ∃ p i, v = .primitive i p ∧
      s.nextIdentity ≤ i ∧ Primitive.catalog[i - s.nextIdentity]? = some p := by
    intro v hv
    obtain ⟨⟨p, i⟩, hmem, rfl⟩ := List.mem_map.mp hv
    obtain ⟨hle, hget⟩ := List.mk_mem_zipIdx_iff_le_and_getElem?_sub.mp hmem
    exact ⟨p, i, rfl, hle, hget⟩
  have hextend : ({ s with nextIdentity := s.nextIdentity + Primitive.catalog.length } :
      Store).Records (primitives s.nextIdentity ++ made) := by
    refine h.extend (Nat.le_add_right _ _) ?_ ?_ ?_ ?_
    · intro v hv
      obtain ⟨p, i, rfl, hle, hget⟩ := hprimitive v hv
      have hlt := (List.getElem?_eq_some_iff.mp hget).1
      exact ⟨i, rfl, hle, by omega⟩
    · intro v hv w hw heq
      obtain ⟨p, i, rfl, -, hp⟩ := hprimitive v hv
      obtain ⟨q, j, rfl, -, hq⟩ := hprimitive w hw
      obtain rfl : i = j := Option.some.inj heq
      rw [Option.some.inj (hp.symm.trans hq)]
    · intro v hv part hpart _
      obtain ⟨p, i, rfl, -⟩ := hprimitive v hv
      cases hpart
      exact List.mem_append_left _ hv
    · intro identity formals body f hmem
      obtain ⟨p, i, hv, -⟩ := hprimitive _ hmem
      cases hv
  have hempty : Frame.Records (primitives s.nextIdentity ++ made) s.nextFrame {} :=
    Frame.records_child nofun
  refine hextend.push (hempty.defineAll fun entry hentry => ?_)
  rcases List.mem_append.mp hentry with hmem | hmem
  · obtain ⟨⟨p, i⟩, hp, rfl⟩ := List.mem_map.mp hmem
    exact .made (List.mem_append_left _ (List.mem_map_of_mem hp))
  · simp only [List.mem_cons, List.not_mem_nil, or_false] at hmem
    rcases hmem with rfl | rfl
    · exact .boolean true
    · exact .boolean false

theorem called (h : s.Records made) {identity : Nat} {formals : List Text} {body : Value}
    {f : FrameId} (hclosure : (Value.closure identity formals body f).MadeOf made)
    {args : List Value} (hargs : ∀ v ∈ args, v.MadeOf made) :
    (s.push (calleeFrame formals f args)).Records made := by
  have hf := h.opened _ _ _ _ (h.mem_of_madeOf hclosure nofun)
  refine h.push ((Frame.records_child ?_).defineAll fun entry hentry => ?_)
  · rintro p ⟨⟩
    exact hf
  · exact hargs entry.2 (List.of_mem_zip hentry).2

end Records

/-- The laws of histories hold of every store that is reached. -/
theorem Reached.records (h : s.Reached made) : s.Records made := by
  induction h with
  | empty =>
    exact ⟨fun f frame hframe => by simp at hframe, nofun, nofun, nofun, nofun⟩
  | global _ ih => exact ih.pushGlobal
  | child _ hf ih =>
    refine ih.push (Frame.records_child ?_)
    rintro p ⟨⟩
    exact hf
  | called _ hclosure hargs ih => exact ih.called hclosure hargs
  | define f name _ hv ih => exact ih.define f name hv
  | list _ hitems ih => exact ih.list hitems
  | closure formals _ hbody hf ih => exact ih.closure formals hbody hf
  | skipped _ ih => exact ih.takeIdentity
  | logged log _ ih => exact ⟨ih.frames, ih.taken, ih.unique, ih.parts, ih.opened⟩

end Store

/-- That a store is reached, with a history that only grows, as an invariant. -/
def historyInvariant : Invariant where
  World := Store × List Value
  Before w w' := w.1.frames.size ≤ w'.1.frames.size ∧ w.2 ⊆ w'.2
  preorder := {
    refl := fun _ => ⟨Nat.le_refl _, List.Subset.refl _⟩
    trans := fun _ _ _ h h' => ⟨Nat.le_trans h.1 h'.1, List.Subset.trans h.2 h'.2⟩ }
  store w s := w.1 = s ∧ s.Reached w.2
  frame w f := f < w.1.frames.size
  value w v := v.MadeOf w.2
  failure _ := True

theorem isKept_history : historyInvariant.IsKept where
  frame_mono hbefore hf := Nat.lt_of_lt_of_le hf hbefore.1
  value_mono hbefore hv := hv.mono hbefore.2
  hereditary w := Value.hereditary_madeOf w.2
  identified := by
    rintro ⟨s, made⟩ _ v ⟨rfl, hs⟩ hv
    have hother : historyInvariant.Leads (s, made) s.takeIdentity fun w' => v.MadeOf w'.2 :=
      ⟨(s.takeIdentity, made), refl_of historyInvariant.Before _, ⟨rfl, hs.skipped⟩, hv⟩
    cases v with
    | list items identity =>
      cases identity with
      -- The list keeps the identity that it has, and the one that is taken goes unused.
      | some identity => exact hother
      | none =>
        exact ⟨(s.takeIdentity, _ :: made), ⟨Nat.le_refl _, List.subset_cons_self _ _⟩,
          ⟨rfl, hs.list hv⟩, .made List.mem_cons_self⟩
    | _ => exact hother
  fault _ := trivial
  limit _ _ := trivial
  missing _ _ _ := trivial
  lookup hs _ hv := by
    obtain ⟨g, -, frame, hframe, hmem⟩ := Store.exists_of_lookup? hv
    exact (hs.2.records.frames g frame hframe).values _ hmem
  opened := by
    rintro ⟨s, made⟩ _ identity formals body f ⟨rfl, hs⟩ hclosure
    have hmem := hs.records.mem_of_madeOf hclosure nofun
    exact ⟨hs.records.opened _ _ _ _ hmem, hclosure.body⟩
  closed := by
    rintro ⟨s, made⟩ _ formals body f ⟨rfl, hs⟩ hf _ hbody
    exact ⟨(s.takeIdentity, _ :: made), ⟨Nat.le_refl _, List.subset_cons_self _ _⟩,
      ⟨rfl, hs.closure formals hbody hf⟩, .made List.mem_cons_self⟩
  record := by
    rintro ⟨s, made⟩ _ line ⟨rfl, hs⟩
    exact ⟨(s.record line, made), refl_of historyInvariant.Before _, ⟨rfl, hs.logged _⟩,
      trivial⟩
  define := by
    rintro ⟨s, made⟩ _ f name v ⟨rfl, hs⟩ _ _ hv
    exact ⟨(s.define f name v, made), ⟨by simp [Store.define], List.Subset.refl _⟩,
      ⟨rfl, hs.define f name hv⟩, trivial⟩
  called := by
    rintro ⟨s, made⟩ _ identity formals body f args ⟨rfl, hs⟩ hclosure hargs
    refine ⟨(s.push _, made), ⟨by simp [Store.push], List.Subset.refl _⟩,
      ⟨rfl, hs.called hclosure hargs⟩, ?_⟩
    simp [historyInvariant, Store.push, Store.nextFrame]

/-- An evaluation leads from a store that is reached to one that is reached. -/
theorem Store.Reached.evaluate {s : Store} {made : List Value} (h : s.Reached made)
    (tracing : Bool) (depth : Nat) {e : Value} (he : e.MadeOf made) {f : FrameId}
    (hf : f < s.frames.size) :
    ∃ made', made ⊆ made' ∧
      s.frames.size ≤ ((SmallLisp.evaluate tracing depth e f).outcome s).2.frames.size ∧
      ((SmallLisp.evaluate tracing depth e f).outcome s).2.Reached made' ∧
      ∀ v, ((SmallLisp.evaluate tracing depth e f).outcome s).1 = .ok v → v.MadeOf made' := by
  have hvalue : historyInvariant.value (s, made) e := he
  have hframe : historyInvariant.frame (s, made) f := hf
  obtain ⟨⟨_, made'⟩, ⟨hsize, hsub⟩, ⟨rfl, hreached⟩, hends⟩ :=
    isKept_history.evaluate tracing depth hvalue hframe ⟨rfl, h⟩
  refine ⟨made', hsub, hsize, hreached, fun v hv => ?_⟩
  rw [hv] at hends
  exact hends

end SmallLisp
