import Mathlib.Data.List.Basic
import Mathlib.Data.List.Nodup
import SmallLisp.Proofs.Evaluation.Outcome
/-!
What an evaluation writes.

Frames are shared between closures, callers and calls, so it matters which of them an evaluation
may change.  Main statement: an evaluation in a frame changes no other frame that was there before,
binds in its own frame only names that the expression itself defines, and takes nothing away; a
call changes no frame that was there before.
-/

namespace SmallLisp

mutual

/-- The targets of the `define` forms that are evaluated with an expression: those outside quoted
data and outside the bodies of functions. -/
def Value.definedNames : Value → List Text
  | .list (head :: parts) _ =>
      match specialHead? head with
      | some form => form.definedNames parts
      | none => head.definedNames ++ Value.definedNamesIn parts
  | _ => []

/-- The targets of the `define` forms that are evaluated with a special form. -/
def SpecialForm.definedNames : SpecialForm → List Value → List Text
  | .define, .symbol name :: e :: _ => name :: e.definedNames
  | .conditional, parts => Value.definedNamesIn parts
  | _, _ => []

/-- The targets of the `define` forms that are evaluated with several expressions. -/
def Value.definedNamesIn : List Value → List Text
  | [] => []
  | e :: rest => e.definedNames ++ Value.definedNamesIn rest

end

/-- A frame after bindings under some `names` have been made: no other name has another value,
every name keeps its place, and new names come last. -/
structure Frame.Grows (names : List Text) (before after : Frame) : Prop where
  parent : after.parent = before.parent
  get? : ∀ name, name ∉ names → after.get? name = before.get? name
  keys : ∃ added : List Text, Table.keys after.bindings = Table.keys before.bindings ++ added ∧
    added ⊆ names ∧ added.Nodup ∧ List.Disjoint (Table.keys before.bindings) added

/-- A store after bindings under some `names` have been made in frame `f` and in new frames. -/
structure Store.Writes (f : FrameId) (names : List Text) (before after : Store) : Prop where
  size_le : before.frames.size ≤ after.frames.size
  others : ∀ g < before.frames.size, g ≠ f → after.frames[g]? = before.frames[g]?
  own : ∀ frame, before.frames[f]? = some frame →
    ∃ frame', after.frames[f]? = some frame' ∧ frame.Grows names frame'

/-- A store in which every frame of another one is as it was. -/
structure Store.Preserves (before after : Store) : Prop where
  size_le : before.frames.size ≤ after.frames.size
  frames : ∀ g < before.frames.size, after.frames[g]? = before.frames[g]?

namespace Frame

theorem Grows.refl (names : List Text) (frame : Frame) : frame.Grows names frame :=
  ⟨rfl, fun _ _ => rfl, [], by simp⟩

theorem Grows.trans {names : List Text} {first second third : Frame}
    (h : first.Grows names second) (h' : second.Grows names third) :
    first.Grows names third := by
  obtain ⟨added, hkeys, hsub, hnodup, hdisjoint⟩ := h.keys
  obtain ⟨added', hkeys', hsub', hnodup', hdisjoint'⟩ := h'.keys
  rw [hkeys, List.disjoint_append_left] at hdisjoint'
  refine ⟨h'.parent.trans h.parent, ?_, added ++ added', ?_, ?_, ?_, ?_⟩
  · intro name hname
    exact (h'.get? name hname).trans (h.get? name hname)
  · rw [hkeys', hkeys, List.append_assoc]
  · exact List.append_subset.mpr ⟨hsub, hsub'⟩
  · exact hnodup.append hnodup' hdisjoint'.2
  · exact List.disjoint_append_right.mpr ⟨hdisjoint, hdisjoint'.1⟩

theorem Grows.mono {names names' : List Text} (hsub : names ⊆ names') {before after : Frame}
    (h : before.Grows names after) : before.Grows names' after := by
  obtain ⟨added, hkeys, hadded, hfresh⟩ := h.keys
  refine ⟨h.parent, ?_, added, hkeys, fun _ hmem => hsub (hadded hmem), hfresh⟩
  intro name hname
  exact h.get? name fun hmem => hname (hsub hmem)

/-- A definition makes a frame grow by its name. -/
theorem grows_define (frame : Frame) (name : Text) (v : Value) :
    frame.Grows [name] (frame.define name v) := by
  refine ⟨rfl, ?_, ?_⟩
  · intro other hother
    exact get?_define_of_ne (by simpa using hother) frame v
  · by_cases hmem : name ∈ Table.keys frame.bindings
    · refine ⟨[], ?_, by simp⟩
      simp [define, Table.keys_insert_of_mem v hmem]
    · refine ⟨[name], Table.keys_insert_of_not_mem v hmem, ?_⟩
      simpa using hmem

end Frame

namespace Store

variable {f : FrameId} {names names' : List Text} {first second third s s' : Store}

theorem Preserves.writes (h : s.Preserves s') (f : FrameId) (names : List Text) :
    s.Writes f names s' := by
  refine ⟨h.size_le, fun g hg _ => h.frames g hg, ?_⟩
  intro frame hframe
  have hlt : f < s.frames.size := (Array.getElem?_eq_some_iff.mp hframe).1
  exact ⟨frame, (h.frames f hlt).trans hframe, .refl names frame⟩

theorem Preserves.of_frames_eq (h : s'.frames = s.frames) : s.Preserves s' :=
  ⟨Nat.le_of_eq (by rw [h]), fun g _ => by rw [h]⟩

theorem preserves_record (s : Store) (line : Text) : s.Preserves (s.record line) :=
  .of_frames_eq rfl

theorem preserves_takeIdentity (s : Store) : s.Preserves s.takeIdentity :=
  .of_frames_eq rfl

instance : IsPreorder Store Preserves where
  refl _ := .of_frames_eq rfl
  trans first second third h h' := by
    refine ⟨Nat.le_trans h.size_le h'.size_le, ?_⟩
    intro g hg
    exact (h'.frames g (Nat.lt_of_lt_of_le hg h.size_le)).trans (h.frames g hg)

theorem Writes.trans (h : first.Writes f names second) (h' : second.Writes f names third) :
    first.Writes f names third := by
  refine ⟨Nat.le_trans h.size_le h'.size_le, ?_, ?_⟩
  · intro g hg hne
    exact (h'.others g (Nat.lt_of_lt_of_le hg h.size_le) hne).trans (h.others g hg hne)
  · intro frame hframe
    obtain ⟨frame', hframe', hgrows⟩ := h.own frame hframe
    obtain ⟨frame'', hframe'', hgrows'⟩ := h'.own frame' hframe'
    exact ⟨frame'', hframe'', hgrows.trans hgrows'⟩

instance : IsPreorder Store (Writes f names) where
  refl _ := Preserves.writes (.of_frames_eq rfl) f names
  trans _ _ _ := Writes.trans

theorem Writes.mono (hsub : names ⊆ names') (h : s.Writes f names s') :
    s.Writes f names' s' := by
  refine ⟨h.size_le, h.others, ?_⟩
  intro frame hframe
  obtain ⟨frame', hframe', hgrows⟩ := h.own frame hframe
  exact ⟨frame', hframe', hgrows.mono hsub⟩

/-- A name that is not among those written has the value from before. -/
theorem Writes.getIn?_eq (h : s.Writes f names s') (hf : f < s.frames.size) {name : Text}
    (hname : name ∉ names) : s'.getIn? name f = s.getIn? name f := by
  obtain ⟨frame', hframe', hgrows⟩ := h.own _ (Array.getElem?_eq_getElem hf)
  rw [getIn?, getIn?, hframe', Array.getElem?_eq_getElem hf]
  exact hgrows.get? name hname

/-- A definition writes its own name in its own frame. -/
theorem writes_define (s : Store) (f : FrameId) (name : Text) (v : Value) :
    s.Writes f [name] (s.define f name v) := by
  refine ⟨by simp [define], ?_, ?_⟩
  · intro g _ hne
    simp [define, Array.getElem?_modify, Ne.symm hne]
  · intro frame hframe
    refine ⟨frame.define name v, ?_, frame.grows_define name v⟩
    simp [define, Array.getElem?_modify, hframe]

/-- What is written in a frame that has just been pushed changes no frame from before. -/
theorem preserves_of_push {frame : Frame} (h : (s.push frame).Writes s.nextFrame names s') :
    s.Preserves s' := by
  have hsize := h.size_le
  simp only [push, Array.size_push] at hsize
  refine ⟨by omega, ?_⟩
  intro g hg
  have hpushed : (s.push frame).frames[g]? = s.frames[g]? := by
    simp [push, Array.getElem?_push, Nat.ne_of_lt hg]
  refine (h.others g ?_ (Nat.ne_of_lt hg)).trans hpushed
  simp only [push, Array.size_push]
  omega

end Store

open Evaluation

section Rules

variable {view : Store → View} {eval : Value → FrameId → Evaluation Value} {tracing : Bool}

/-- Names that an expression does not define are not written by evaluating it. -/
theorem Evaluation.Keeps.writes_mono {α : Type} {x : Evaluation α} {f : FrameId}
    {names names' : List Text} (h : Keeps (Store.Writes f names) x) (hsub : names ⊆ names') :
    Keeps (Store.Writes f names') x :=
  fun s => (h s).mono hsub

/-- Whatever a body defines is defined in the new frame of its call. -/
theorem keeps_applyWith (heval : ∀ e f, Keeps (Store.Writes f e.definedNames) (eval e f))
    (function : Value) (args : List Value) :
    Keeps Store.Preserves (applyWith view eval tracing function args) := by
  cases function with
  | closure identity formals body frame =>
    intro s
    by_cases hcount : args.length = formals.length
    · have hpush := outcome_extendFrame identity formals body frame args s
      rw [if_pos hcount] at hpush
      rw [applyWith, outcome_bind_ok hpush]
      have hrecord : ∀ (s' : Store) (line : Text),
          Store.Writes s.nextFrame body.definedNames s' (s'.record line) :=
        fun s' line => (s'.preserves_record line).writes _ _
      have htrace := keeps_trace hrecord view tracing "Applying: "
        (.closure identity formals body frame)
      have hbody := keeps_bind htrace fun _ => heval body s.nextFrame
      -- The body writes in the frame of the call only, and that was not there before.
      exact Store.preserves_of_push (hbody (s.push (calleeFrame formals frame args)))
    · have hfail := outcome_extendFrame identity formals body frame args s
      rw [if_neg hcount] at hfail
      rw [applyWith, outcome_bind_error hfail]
      exact refl_of Store.Preserves s
  | primitive identity p =>
    exact keeps_bind (keeps_observe _) (keeps_identify Store.preserves_takeIdentity)
  | _ => exact keeps_failOn view _ _

theorem keeps_evaluateArguments
    (heval : ∀ e f, Keeps (Store.Writes f e.definedNames) (eval e f)) (f : FrameId)
    (es : List Value) :
    Keeps (Store.Writes f (Value.definedNamesIn es)) (evaluateArguments eval f es) := by
  induction es with
  | nil => exact keeps_pure []
  | cons e rest ih =>
    rw [Value.definedNamesIn]
    apply keeps_bind ((heval e f).writes_mono (List.subset_append_left _ _))
    intro v
    apply keeps_bind (ih.writes_mono (List.subset_append_right _ _))
    intro vs
    exact keeps_pure (v :: vs)

theorem keeps_evaluateCall
    (heval : ∀ e f, Keeps (Store.Writes f e.definedNames) (eval e f)) (head : Value)
    (parts : List Value) (f : FrameId) :
    Keeps (Store.Writes f (head.definedNames ++ Value.definedNamesIn parts))
      (evaluateCall view eval tracing head parts f) := by
  apply keeps_bind ((heval head f).writes_mono (List.subset_append_left _ _))
  intro function
  split
  · refine keeps_bind ?_ fun args => ?_
    · exact (keeps_evaluateArguments heval f parts).writes_mono (List.subset_append_right _ _)
    · exact fun s => (keeps_applyWith heval function args s).writes f _
  · exact keeps_failOn view _ _

theorem keeps_specialForm
    (heval : ∀ e f, Keeps (Store.Writes f e.definedNames) (eval e f)) (form : SpecialForm)
    (parts : List Value) (f : FrameId) :
    Keeps (Store.Writes f (form.definedNames parts)) (form.evaluateWith view eval parts f) := by
  cases form.shape parts with
  | quote datum => exact keeps_pure datum
  | quoteParts hparts =>
    rw [SpecialForm.evaluateWith_quoteParts hparts]
    exact keeps_throw _
  | define name e rest =>
    rw [SpecialForm.definedNames]
    apply keeps_bind ((heval e f).writes_mono (List.subset_cons_self _ _))
    intro v
    refine keeps_bind (keeps_modify fun s => ?_) fun _ => keeps_pure v
    exact (s.writes_define f name v).mono (by simp)
  | defineTarget e rest htarget =>
    rw [SpecialForm.evaluateWith_defineTarget htarget]
    exact keeps_failOn view _ _
  | defineIncomplete hparts =>
    rw [SpecialForm.evaluateWith_defineIncomplete hparts]
    exact keeps_throw _
  | lambda parameters identity body =>
    refine keeps_bind (keeps_parameterNames view _) fun formals => ?_
    refine keeps_bind (fun s => refl_of _ s) fun s => ?_
    refine keeps_bind (keeps_modify fun s => ?_) fun _ => keeps_pure _
    exact s.preserves_takeIdentity.writes f _
  | lambdaParameters body hparameters =>
    rw [SpecialForm.evaluateWith_lambdaParameters hparameters]
    exact keeps_failOn view _ _
  | lambdaParts hparts =>
    rw [SpecialForm.evaluateWith_lambdaParts hparts]
    exact keeps_throw _
  | conditional test consequent alternate =>
    refine keeps_bind ((heval test f).writes_mono ?_) fun t => ?_
    · simp [SpecialForm.definedNames, Value.definedNamesIn]
    · refine (heval _ f).writes_mono ?_
      cases t.isTrue <;> simp [SpecialForm.definedNames, Value.definedNamesIn]
  | conditionalParts hparts =>
    rw [SpecialForm.evaluateWith_conditionalParts hparts]
    exact keeps_throw _

/-- One step writes no more than its expression defines, if the evaluation of parts does not. -/
theorem keeps_evaluateStep
    (heval : ∀ e f, Keeps (Store.Writes f e.definedNames) (eval e f)) (e : Value) (f : FrameId) :
    Keeps (Store.Writes f e.definedNames) (evaluateStep view eval tracing e f) := by
  refine keeps_bind ?_ fun _ => ?_
  · exact keeps_trace (fun s line => (s.preserves_record line).writes f _) _ _ _ _
  cases e with
  | list items identity =>
    cases items with
    | nil => exact keeps_throw _
    | cons head parts =>
      simp only [Value.definedNames, evaluateList]
      cases specialHead? head with
      | some form => exact keeps_specialForm heval form parts f
      | none => exact keeps_evaluateCall heval head parts f
  | symbol name => exact keeps_observe _
  | foreign text => exact keeps_throw _
  | _ => exact keeps_pure _

end Rules

/-- Evaluation writes in its own frame what the expression defines, and nowhere else. -/
theorem keeps_evaluate (tracing : Bool) (depth : Nat) (e : Value) (f : FrameId) :
    Keeps (Store.Writes f e.definedNames) (evaluate tracing depth e f) := by
  induction depth generalizing e f with
  | zero => exact keeps_throw _
  | succ depth ih => exact keeps_evaluateStep ih e f

/-- The write footprint of an evaluation, however it ends: of the frames from before, only its own
changes, and that one grows by names that the expression defines.  A call changes none of them. -/
theorem evaluate_writeFootprint (tracing : Bool) (depth : Nat) (s : Store) :
    (∀ (e : Value) (f : FrameId),
      s.Writes f e.definedNames ((evaluate tracing depth e f).outcome s).2) ∧
    ∀ (function : Value) (args : List Value),
      s.Preserves ((applyWith (Store.view depth) (evaluate tracing depth) tracing
        function args).outcome s).2 := by
  constructor
  · intro e f
    exact keeps_evaluate tracing depth e f s
  · intro function args
    exact keeps_applyWith (keeps_evaluate tracing depth) function args s

end SmallLisp
