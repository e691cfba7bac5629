import SmallLisp.Proofs.Correspondence.Value
import SmallLisp.Proofs.Evaluation.Outcome
/-!
Stores that correspond to each other.

Every frame of the first store has its image in the second one, under the alias that the frame
goes by.  A frame goes by the alias of its parent, or its parent is of the outside world and it
binds the variable itself.  So the variable is found under its alias before the outside world is
reached.  Main statements: a name and what stands for it have values that correspond, and stores go
on corresponding under every change that an evaluation makes to them.
-/

namespace SmallLisp

namespace Table

variable {α β α' β' : Type} [BEq α] [LawfulBEq α] [BEq α'] [LawfulBEq α'] {f : α → α'} {g : β → β'}
  {key : α} {table : Table α β}

/-- A key is found under its new name if no other key has got that name. -/
theorem lookup_map (h : ∀ other ∈ keys table, f other = f key → other = key) :
    (table.map (Prod.map f g)).lookup (f key) = (table.lookup key).map g := by
  induction table with
  | nil => rfl
  | cons entry rest ih =>
    obtain ⟨other, v⟩ := entry
    obtain ⟨hother, hrest⟩ := List.forall_mem_cons.mp h
    rw [List.map_cons, Prod.map_apply, List.lookup_cons, List.lookup_cons, ih hrest]
    by_cases heq : key = other
    · subst heq
      rw [beq_self_eq_true, beq_self_eq_true]
      rfl
    · have hne : f key ≠ f other := fun hf => heq (hother hf.symm).symm
      rw [beq_false_of_ne hne, beq_false_of_ne heq]

/-- An insertion under a new name if no other key has got that name. -/
theorem map_insert (h : ∀ other ∈ keys table, f other = f key → other = key) (v : β) :
    (insert key v table).map (Prod.map f g) = insert (f key) (g v) (table.map (Prod.map f g)) := by
  induction table with
  | nil => rfl
  | cons entry rest ih =>
    obtain ⟨other, old⟩ := entry
    obtain ⟨hother, hrest⟩ := List.forall_mem_cons.mp h
    by_cases heq : other = key
    · simp [insert, heq]
    · have hne : f other ≠ f key := fun hf => heq (hother hf)
      simp only [insert, List.map_cons, Prod.map_apply, beq_iff_eq, heq, hne, if_false, ih hrest]

theorem lookup_eq_none_iff : table.lookup key = none ↔ key ∉ keys table := by
  constructor
  · rintro hnone hkey
    obtain ⟨entry, hentry, rfl⟩ := List.mem_map.mp hkey
    simpa using List.lookup_eq_none_iff.mp hnone entry hentry
  · intro hkey
    refine List.lookup_eq_none_iff.mpr fun entry hentry => ?_
    have hne : key ≠ entry.1 := fun heq => hkey (heq ▸ List.mem_map_of_mem hentry)
    simpa using hne

/-- A table is known by its keys and by what is found under them. -/
theorem eq_of_lookup {table' : Table α β} (hkeys : keys table' = keys table)
    (hnodup : (keys table).Nodup) (h : ∀ key, table'.lookup key = table.lookup key) :
    table' = table := by
  induction table generalizing table' with
  | nil => exact List.map_eq_nil_iff.mp hkeys
  | cons entry rest ih =>
    obtain ⟨key, v⟩ := entry
    obtain ⟨⟨key', v'⟩, rest', rfl, hkey, hrest⟩ := List.map_eq_cons_iff.mp hkeys
    obtain rfl : key' = key := hkey
    obtain ⟨hfresh, hnodup⟩ := List.nodup_cons.mp hnodup
    have hvalue : v' = v := by simpa using h key'
    rw [hvalue, ih hrest hnodup fun other => ?_]
    by_cases hother : other = key'
    · -- The first entry hides what is under its key, but there is nothing else.
      have hfresh' : key' ∉ keys rest' := by
        rw [keys, hrest]
        exact hfresh
      rw [hother, lookup_eq_none_iff.mpr hfresh, lookup_eq_none_iff.mpr hfresh']
    · have hlookup := h other
      rwa [List.lookup_cons, List.lookup_cons, beq_false_of_ne hother] at hlookup

end Table

namespace Correspondence

/-- The image of a frame that goes by an alias. -/
def frameOf (K : Correspondence) (aliases : List Text) (y : Text) (frame : Frame) : Frame where
  bindings := frame.bindings.map (Prod.map (Text.renamed K.old y) (K.value aliases))
  parent := frame.parent.map K.frame

/-- Bindings of a frame that goes by an alias and has no other use of it. -/
structure KnownBindings (K : Correspondence) (aliases : List Text) (y : Text)
    (bindings : Table Text Value) : Prop where
  keys : y ∈ Table.keys bindings → y = K.old
  values : ∀ entry ∈ bindings, K.Known aliases entry.2

/-- A frame that goes by an alias.  Its parent goes by the same one, or the frame binds the variable
and its parent knows it by its own name. -/
structure KnownFrame (K : Correspondence) (aliases : List Text) (y : Text) (frame : Frame) :
    Prop where
  bindings : K.KnownBindings aliases y frame.bindings
  parent : ∀ p, frame.parent = some p → aliases[p]? = some y ∨
    (K.old ∈ Table.keys frame.bindings ∧ aliases[p]? = some K.old)

/-- A store and another one that has the images of its frames.  The frames and identities that the
stores give out next stand for each other. -/
structure Relates (K : Correspondence) (aliases : List Text) (s s' : Store) : Prop where
  size : s.frames.size = aliases.length
  plain : ∀ y ∈ aliases, SpecialForm.ofName? y = none
  frame_fresh : ∀ k, K.frame (s.frames.size + k) = s'.frames.size + k
  identity_fresh : ∀ k, K.identity (s.nextIdentity + k) = s'.nextIdentity + k
  known : ∀ (f : FrameId) (frame : Frame), s.frames[f]? = some frame →
    ∀ y, aliases[f]? = some y → K.KnownFrame aliases y frame
  image : ∀ (f : FrameId) (frame : Frame), s.frames[f]? = some frame →
    ∀ y, aliases[f]? = some y → s'.frames[K.frame f]? = some (K.frameOf aliases y frame)
  first : s.ParentsFirst
  first' : s'.ParentsFirst

variable {K : Correspondence} {aliases more : List Text} {y name : Text} {frame : Frame}

section Frames

/-- No other key of a frame that goes by an alias gets the new name of a name. -/
theorem KnownBindings.eq_of_renamed {bindings : Table Text Value}
    (h : K.KnownBindings aliases y bindings) (hname : name = y → y = K.old) :
    ∀ other ∈ Table.keys bindings,
      Text.renamed K.old y other = Text.renamed K.old y name → other = name :=
  fun _ hother => (Text.renamed_inj (fun heq => h.keys (heq ▸ hother)) hname).mp

theorem KnownBindings.mono (hmore : aliases <+: more) {bindings : Table Text Value}
    (h : K.KnownBindings aliases y bindings) : K.KnownBindings more y bindings where
  keys := h.keys
  values entry hentry := (h.values entry hentry).mono hmore

theorem KnownBindings.insert {bindings : Table Text Value}
    (h : K.KnownBindings aliases y bindings) (hname : name = y → y = K.old) {v : Value}
    (hv : K.Known aliases v) : K.KnownBindings aliases y (Table.insert name v bindings) where
  keys hkey := by
    by_cases hmem : name ∈ Table.keys bindings
    · rw [Table.keys_insert_of_mem v hmem] at hkey
      exact h.keys hkey
    · rw [Table.keys_insert_of_not_mem v hmem] at hkey
      rcases List.mem_append.mp hkey with hold | hnew
      · exact h.keys hold
      · exact hname (List.mem_singleton.mp hnew).symm
  values entry hentry := by
    rcases Table.mem_insert hentry with heq | hold
    · exact heq ▸ hv
    · exact h.values entry hold

theorem KnownBindings.get?_frameOf (h : K.KnownBindings aliases y frame.bindings)
    (hname : name = y → y = K.old) :
    (K.frameOf aliases y frame).get? (Text.renamed K.old y name) =
      (frame.get? name).map (K.value aliases) :=
  Table.lookup_map (h.eq_of_renamed hname)

theorem KnownBindings.frameOf_define (h : K.KnownBindings aliases y frame.bindings)
    (hname : name = y → y = K.old) (v : Value) :
    K.frameOf aliases y (frame.define name v) =
      (K.frameOf aliases y frame).define (Text.renamed K.old y name) (K.value aliases v) := by
  rw [frameOf, Frame.define, Table.map_insert (h.eq_of_renamed hname)]
  rfl

/-- Names bound in a frame are bound under their new names in its image. -/
theorem KnownBindings.defineAll (h : K.KnownBindings aliases y frame.bindings)
    {pairs : Table Text Value}
    (hpairs : ∀ entry ∈ pairs, (entry.1 = y → y = K.old) ∧ K.Known aliases entry.2) :
    K.KnownBindings aliases y (frame.defineAll pairs).bindings ∧
      K.frameOf aliases y (frame.defineAll pairs) =
        (K.frameOf aliases y frame).defineAll
          (pairs.map (Prod.map (Text.renamed K.old y) (K.value aliases))) := by
  induction pairs generalizing frame with
  | nil => exact ⟨h, rfl⟩
  | cons entry rest ih =>
    obtain ⟨⟨hname, hv⟩, hrest⟩ := List.forall_mem_cons.mp hpairs
    have hdefine : K.KnownBindings aliases y (frame.define entry.1 entry.2).bindings :=
      h.insert hname hv
    obtain ⟨hknown, himage⟩ := ih hdefine hrest
    refine ⟨hknown, himage.trans ?_⟩
    rw [h.frameOf_define hname]
    rfl

theorem KnownFrame.mono (hmore : aliases <+: more) (h : K.KnownFrame aliases y frame) :
    K.KnownFrame more y frame where
  bindings := h.bindings.mono hmore
  parent p hp := (h.parent p hp).imp (getElem?_of_isPrefix hmore)
    fun hbound => ⟨hbound.1, getElem?_of_isPrefix hmore hbound.2⟩

theorem KnownFrame.frameOf_eq (hmore : aliases <+: more) (h : K.KnownFrame aliases y frame) :
    K.frameOf more y frame = K.frameOf aliases y frame := by
  have hbindings : frame.bindings.map (Prod.map (Text.renamed K.old y) (K.value more)) =
      frame.bindings.map (Prod.map (Text.renamed K.old y) (K.value aliases)) := by
    refine List.map_congr_left fun entry hentry => ?_
    rw [Prod.map, (h.bindings.values entry hentry).value_eq hmore]
    rfl
  rw [frameOf, hbindings, frameOf]

theorem KnownFrame.define (h : K.KnownFrame aliases y frame) (hname : name = y → y = K.old)
    {v : Value} (hv : K.Known aliases v) : K.KnownFrame aliases y (frame.define name v) where
  bindings := h.bindings.insert hname hv
  parent p hp := (h.parent p hp).imp_right fun hbound =>
    ⟨Table.keys_subset_insert name v frame.bindings hbound.1, hbound.2⟩

theorem mem_keys_defineAll {pairs : Table Text Value}
    (h : name ∈ Table.keys frame.bindings ∨ name ∈ Table.keys pairs) :
    name ∈ Table.keys (frame.defineAll pairs).bindings := by
  induction pairs generalizing frame with
  | nil => exact h.resolve_right (by simp [Table.keys])
  | cons entry rest ih =>
    suffices hmem : name ∈ Table.keys (frame.define entry.1 entry.2).bindings ∨
        name ∈ Table.keys rest from ih hmem
    rcases h with hold | hnew
    · exact .inl (Table.keys_subset_insert entry.1 entry.2 frame.bindings hold)
    · rcases List.mem_cons.mp hnew with rfl | hrest
      · exact .inl (Table.mem_keys_insert entry.1 entry.2 frame.bindings)
      · exact .inr hrest

/-- The frame of a call goes by the alias of the frame of its closure, or it binds the variable. -/
theorem knownFrame_calleeFrame {formals : List Text} {f : FrameId} {args : List Value}
    (hf : aliases[f]? = some y ∨ (K.old ∈ formals ∧ aliases[f]? = some K.old))
    (hformals : y ∈ formals → y = K.old) (hargs : ∀ v ∈ args, K.Known aliases v)
    (hcount : args.length = formals.length) :
    K.KnownFrame aliases y (calleeFrame formals f args) ∧
      K.frameOf aliases y (calleeFrame formals f args) =
        calleeFrame (formals.map (Text.renamed K.old y)) (K.frame f)
          (args.map (K.value aliases)) := by
  have hempty : K.KnownBindings aliases y ({ parent := some f } : Frame).bindings :=
    ⟨by simp [Table.keys], by simp⟩
  have hpairs : ∀ entry ∈ formals.zip args,
      (entry.1 = y → y = K.old) ∧ K.Known aliases entry.2 := by
    rintro ⟨name, v⟩ hentry
    obtain ⟨hname, hv⟩ := List.of_mem_zip hentry
    exact ⟨fun heq => hformals (heq ▸ hname), hargs v hv⟩
  have hkeys : Table.keys (formals.zip args) = formals :=
    List.map_fst_zip (Nat.le_of_eq hcount.symm)
  obtain ⟨hbindings, himage⟩ := hempty.defineAll hpairs
  refine ⟨⟨hbindings, ?_⟩, himage.trans ?_⟩
  · intro p hp
    rw [calleeFrame, Frame.parent_defineAll] at hp
    obtain rfl := Option.some.inj hp
    exact hf.imp_right fun hbound => ⟨mem_keys_defineAll (.inr (hkeys.symm ▸ hbound.1)), hbound.2⟩
  · rw [calleeFrame, List.zip_map]
    rfl

end Frames

namespace Relates

variable {s s' : Store} {f : FrameId}

theorem nextFrame (h : K.Relates aliases s s') : K.frame s.nextFrame = s'.nextFrame :=
  h.frame_fresh 0

theorem nextIdentity (h : K.Relates aliases s s') :
    K.identity s.nextIdentity = s'.nextIdentity :=
  h.identity_fresh 0

/-- A frame that has an alias. -/
theorem exists_frame (h : K.Relates aliases s s') (hf : aliases[f]? = some y) :
    ∃ frame, s.frames[f]? = some frame ∧ K.KnownFrame aliases y frame ∧
      s'.frames[K.frame f]? = some (K.frameOf aliases y frame) := by
  have hlt : f < s.frames.size := h.size ▸ (List.getElem?_eq_some_iff.mp hf).1
  have hframe := Array.getElem?_eq_getElem hlt
  exact ⟨_, hframe, h.known f _ hframe y hf, h.image f _ hframe y hf⟩

/-- A name is found with the value that stands for its own, under the alias of the frame in which
the search begins. -/
theorem lookup?_eq (h : K.Relates aliases s s') (hf : aliases[f]? = some y)
    (hname : name = y → y = K.old) :
    s'.lookup? (K.frame f) (Text.renamed K.old y name) =
      (s.lookup? f name).map (K.value aliases) := by
  induction f using Nat.strongRecOn generalizing y with
  | ind f ih =>
    obtain ⟨frame, hframe, hknown, himage⟩ := h.exists_frame hf
    have hget : s.getIn? name f = frame.get? name := by rw [Store.getIn?, hframe]; rfl
    have hget' : s'.getIn? (Text.renamed K.old y name) (K.frame f) =
        (frame.get? name).map (K.value aliases) := by
      rw [Store.getIn?, himage]
      exact hknown.bindings.get?_frameOf hname
    have hparent : s.parent? f = frame.parent := by rw [Store.parent?, hframe]; rfl
    have hparent' : s'.parent? (K.frame f) = frame.parent.map K.frame := by
      rw [Store.parent?, himage]; rfl
    rw [Store.lookup?, Store.lookup?, Store.chain_eq h.first, Store.chain_eq h.first',
      List.findSome?_cons, List.findSome?_cons, hget, hget', hparent, hparent']
    cases hbound : frame.get? name with
    | some v => rfl
    | none =>
      cases hp : frame.parent with
      | none => rfl
      | some p =>
        have hlt : p < f := h.first f p (hparent.trans hp)
        rcases hknown.parent p hp with hsame | ⟨hold, houter⟩
        · exact ih p hlt hsame hname
        · -- The frame binds the variable, so the name is another one and has no alias outside.
          have hne : name ≠ K.old := by
            rintro rfl
            exact Table.lookup_eq_none_iff.mp hbound hold
          have hrest := ih p hlt houter (y := K.old) fun _ => rfl
          rw [Text.renamed_of_ne hne] at hrest ⊢
          exact hrest

/-- What is found is known. -/
theorem lookup?_known (h : K.Relates aliases s s') {v : Value}
    (hv : s.lookup? f name = some v) : K.Known aliases v := by
  obtain ⟨g, -, frame, hframe, hmem⟩ := Store.exists_of_lookup? hv
  have hlt : g < aliases.length := h.size ▸ (Array.getElem?_eq_some_iff.mp hframe).1
  exact (h.known g frame hframe _ (List.getElem?_eq_getElem hlt)).bindings.values _ hmem

/-- The text of a frame stops where that of its image does. -/
theorem frameStop_eq (h : K.Relates aliases s s') (hf : aliases[f]? = some y) (depth : Nat) :
    s'.frameStop depth (K.frame f) = s.frameStop depth f := by
  obtain ⟨frame, hframe, hknown, himage⟩ := h.exists_frame hf
  rw [Store.frameStop, Store.frameStop, hframe, himage]
  exact findSome?_map_of_eq fun entry _ => bindingStop_value _ _

/-- The tagged text of a function stops where that of a renamed one does. -/
theorem functionStop_eq (h : K.Relates aliases s s') (hf : aliases[f]? = some y) (depth : Nat)
    (body : Value) (y' : Text) :
    s'.functionStop depth (K.code aliases y' body) (K.frame f) = s.functionStop depth body f := by
  rw [Store.functionStop, Store.functionStop, displayStop_code, h.frameStop_eq hf]

theorem detailedStop_value (h : K.Relates aliases s s') (depth : Nat) {v : Value}
    (hv : K.Known aliases v) :
    failureOf? (v.detailedWithin s depth) =
      failureOf? ((K.value aliases v).detailedWithin s' depth) := by
  rw [Value.failureOf?_detailedWithin, Value.failureOf?_detailedWithin]
  exact (hv.stop_value (fun depth body f y hf => h.functionStop_eq hf depth body y) depth).symm

theorem detailedStop_closure (h : K.Relates aliases s s') (depth : Nat)
    (hf : aliases[f]? = some y) (identity identity' : Nat) (formals formals' : List Text)
    (body : Value) (y' : Text) :
    failureOf? ((Value.closure identity formals body f).detailedWithin s depth) =
      failureOf? ((Value.closure identity' formals' (K.code aliases y' body)
        (K.frame f)).detailedWithin s' depth) := by
  rw [Value.failureOf?_detailedWithin, Value.failureOf?_detailedWithin]
  cases depth with
  | zero => rfl
  | succ depth => exact (h.functionStop_eq hf depth body y').symm

theorem detailedStop_code (h : K.Relates aliases s s') (depth : Nat) {e : Value}
    (he : K.Known aliases e) (y : Text) :
    failureOf? (e.detailedWithin s depth) =
      failureOf? ((K.code aliases y e).detailedWithin s' depth) := by
  rw [h.detailedStop_value depth he, code, Value.failureOf?_detailedWithin,
    Value.failureOf?_detailedWithin, Value.stop_rename]

/-- Stores go on corresponding when other things than their frames change. -/
theorem of_frames (h : K.Relates aliases s s') {t t' : Store} (hframes : t.frames = s.frames)
    (hframes' : t'.frames = s'.frames)
    (hidentity : ∀ k, K.identity (t.nextIdentity + k) = t'.nextIdentity + k) :
    K.Relates aliases t t' where
  size := hframes ▸ h.size
  plain := h.plain
  frame_fresh := hframes ▸ hframes' ▸ h.frame_fresh
  identity_fresh := hidentity
  known := hframes ▸ h.known
  image := hframes ▸ hframes' ▸ h.image
  first := h.first.of_frames hframes
  first' := h.first'.of_frames hframes'

theorem takeIdentity (h : K.Relates aliases s s') :
    K.Relates aliases s.takeIdentity s'.takeIdentity := by
  refine h.of_frames rfl rfl fun k => ?_
  have hnext := h.identity_fresh (1 + k)
  rwa [← Nat.add_assoc, ← Nat.add_assoc] at hnext

theorem record (h : K.Relates aliases s s') (line line' : Text) :
    K.Relates aliases (s.record line) (s'.record line') :=
  h.of_frames rfl rfl h.identity_fresh

/-- A definition in a frame and the definition of what stands for it in the image. -/
theorem define (h : K.Relates aliases s s') (hf : aliases[f]? = some y)
    (hname : name = y → y = K.old) {v : Value} (hv : K.Known aliases v) :
    K.Relates aliases (s.define f name v)
      (s'.define (K.frame f) (Text.renamed K.old y name) (K.value aliases v)) where
  size := by simpa [Store.define] using h.size
  plain := h.plain
  frame_fresh := by simpa [Store.define] using h.frame_fresh
  identity_fresh := h.identity_fresh
  known := by
    refine Store.forall_frames_define h.known fun frame hframe y' hy' => ?_
    obtain rfl := Option.some.inj (hf.symm.trans hy')
    exact (h.known f frame hframe y hf).define hname hv
  image g frame hframe y' hy' := by
    obtain ⟨old, hold, hknown, himage⟩ := h.exists_frame hf
    simp only [Store.define, Array.getElem?_modify] at hframe ⊢
    by_cases hg : f = g
    · subst hg
      obtain rfl := Option.some.inj (hf.symm.trans hy')
      rw [if_pos rfl, hold] at hframe
      obtain rfl := Option.some.inj hframe
      rw [if_pos rfl, himage, hknown.bindings.frameOf_define hname]
      rfl
    · rw [if_neg hg] at hframe
      rw [if_neg fun heq => hg (K.frame_injective heq)]
      exact h.image g frame hframe y' hy'
  first := h.first.define f name v
  first' := h.first'.define _ _ _

/-- One more frame and its image. -/
theorem push (h : K.Relates aliases s s') (hy : SpecialForm.ofName? y = none) {frame : Frame}
    (hframe : K.KnownFrame aliases y frame) :
    K.Relates (aliases ++ [y]) (s.push frame) (s'.push (K.frameOf aliases y frame)) := by
  have hmore : aliases <+: aliases ++ [y] := List.prefix_append _ _
  have hold : ∀ (g : FrameId) (other : Frame), s.frames[g]? = some other → ∀ y',
      (aliases ++ [y])[g]? = some y' → aliases[g]? = some y' := by
    intro g other hother y' hy'
    have hlt : g < aliases.length := h.size ▸ (Array.getElem?_eq_some_iff.mp hother).1
    rwa [List.getElem?_append_left hlt] at hy'
  have hnew : ∀ y', (aliases ++ [y])[s.nextFrame]? = some y' → y' = y := by
    intro y' hy'
    rw [Store.nextFrame, h.size, List.getElem?_concat_length] at hy'
    exact (Option.some.inj hy').symm
  have hparent : ∀ p, frame.parent = some p → ∃ y', aliases[p]? = some y' := fun p hp =>
    (hframe.parent p hp).elim (fun hsame => ⟨_, hsame⟩) fun hbound => ⟨_, hbound.2⟩
  refine
    { size := by simpa [Store.push] using h.size
      plain := List.forall_mem_append.mpr ⟨h.plain, List.forall_mem_singleton.mpr hy⟩
      frame_fresh := ?_
      identity_fresh := h.identity_fresh
      known := Store.forall_frames_push ?_ ?_
      image := Store.forall_frames_push ?_ ?_
      first := h.first.push ?_
      first' := h.first'.push ?_ }
  · intro k
    have hnext := h.frame_fresh (1 + k)
    rw [← Nat.add_assoc, ← Nat.add_assoc] at hnext
    simpa only [Store.push, Array.size_push] using hnext
  · intro g other hother y' hy'
    exact (h.known g other hother y' (hold g other hother y' hy')).mono hmore
  · intro y' hy'
    obtain rfl := hnew y' hy'
    exact hframe.mono hmore
  · intro g other hother y' hy'
    have hg := hold g other hother y' hy'
    have himage := h.image g other hother y' hg
    have hlt := (Array.getElem?_eq_some_iff.mp himage).1
    rw [(h.known g other hother y' hg).frameOf_eq hmore, ← himage]
    exact Array.getElem?_push.trans (if_neg (Nat.ne_of_lt hlt))
  · intro y' hy'
    obtain rfl := hnew y' hy'
    rw [h.nextFrame, hframe.frameOf_eq hmore]
    exact Array.getElem?_push_size
  · intro p hp
    obtain ⟨y', hp'⟩ := hparent p hp
    exact h.size ▸ (List.getElem?_eq_some_iff.mp hp').1
  · intro p' hp'
    obtain ⟨p, hp, rfl⟩ := Option.map_eq_some_iff.mp hp'
    obtain ⟨y', hy'⟩ := hparent p hp
    obtain ⟨_, -, -, himage⟩ := h.exists_frame hy'
    exact (Array.getElem?_eq_some_iff.mp himage).1

end Relates

end Correspondence

end SmallLisp
