import Mathlib.Data.List.Nodup
import SmallLisp.Proofs.Evaluation.Adequacy
import SmallLisp.Proofs.Prelude.Forms
import SmallLisp.Proofs.Session
/-!
The bindings that a session starts with.

A session may bind the names of primitives and of the prelude anew.  `Store.Original` says of a name
that it is still bound as in a new session.  Main statement: a new session with the bundled prelude
binds every name of a primitive or of the prelude in this way.
-/

namespace SmallLisp

open Evaluation Prelude

namespace Frame

variable {pairs : Table Text Value} {name : Text}

theorem get?_defineAll_of_mem (hnodup : (Table.keys pairs).Nodup) {v : Value}
    (h : (name, v) ∈ pairs) (frame : Frame) : (frame.defineAll pairs).get? name = some v := by
  induction pairs generalizing frame with
  | nil => cases h
  | cons entry rest ih =>
    obtain ⟨hfresh, hrest⟩ := List.nodup_cons.mp hnodup
    rcases List.mem_cons.mp h with rfl | hmem
    · exact (get?_defineAll_of_not_mem hfresh _).trans (get?_define_self frame name v)
    · exact ih hrest hmem _

end Frame

/-- The function in a session, made in the global frame. -/
def Prelude.Function.closure (function : Function) (identity : Nat) (f : FrameId) : Value :=
  .closure identity function.formals function.body f

/-- A name that the global frame `f` binds as in a new session: to the primitive of this name, or to
the function that the bundled prelude defines. -/
inductive Store.Original (s : Store) (f : FrameId) (name : Text) : Prop
  | primitive {identity : Nat} {p : Primitive} : p ∈ Primitive.catalog → p.name = name →
      s.getIn? name f = some (.primitive identity p) → Original s f name
  | prelude {identity : Nat} {forms : List Value} {function : Function} :
      parse bundledPrelude = .ok forms → function.form ∈ forms → function.name = name →
      s.getIn? name f = some (function.closure identity f) → Original s f name

/-- A global frame has no frame around it. -/
def Store.IsGlobal (s : Store) (f : FrameId) : Prop :=
  ∃ frame, s.frames[f]? = some frame ∧ frame.parent = none

namespace Prelude

theorem function_names_nodup : (functions.map Function.name).Nodup := by decide

/-- No function of the prelude has the name of a primitive. -/
theorem name_ne_of_mem {function : Function} (hfunction : function ∈ functions) {p : Primitive}
    (hp : p ∈ Primitive.catalog) : function.name ≠ p.name := by
  have hnames : ∀ name ∈ functions.map Function.name,
      ∀ p ∈ Primitive.catalog, name ≠ p.name := by decide
  exact hnames _ (List.mem_map_of_mem hfunction) p hp

theorem Function.eq_of_form_eq {first second : Function} (h : first.form = second.form) :
    first = second := by
  obtain ⟨name, formals, body⟩ := first
  obtain ⟨name', formals', body'⟩ := second
  simp only [form, call, Value.list.injEq, List.cons.injEq, Value.symbol.injEq, true_and,
    and_true] at h
  obtain ⟨rfl, hformals, rfl⟩ := h
  have hsymbol : ∀ a b, Value.symbol a = .symbol b → a = b := fun _ _ h => Value.symbol.inj h
  rw [List.map_injective_iff.mpr hsymbol hformals]

end Prelude

namespace Store.Original

variable {s : Store} {f : FrameId}

theorem getIn?_primitive {p : Primitive} (hp : p ∈ Primitive.catalog)
    (h : s.Original f p.name) : ∃ identity, s.getIn? p.name f = some (.primitive identity p) := by
  cases h with
  | @primitive identity q hq hname hbound =>
    obtain rfl := List.inj_on_of_nodup_map Primitive.catalog_names_nodup hq hp hname
    exact ⟨identity, hbound⟩
  | @prelude identity forms function hforms hmem hname hbound =>
    rw [parse_bundledPrelude] at hforms
    obtain rfl := Except.ok.inj hforms
    obtain ⟨other, hother, hform⟩ := List.mem_map.mp hmem
    obtain rfl := Function.eq_of_form_eq hform
    exact absurd hname (name_ne_of_mem hother hp)

theorem getIn?_function {function : Function} (hfunction : function ∈ functions)
    (h : s.Original f function.name) :
    ∃ identity, s.getIn? function.name f = some (function.closure identity f) := by
  cases h with
  | primitive hp hname hbound => exact absurd hname.symm (name_ne_of_mem hfunction hp)
  | @prelude identity forms other hforms hmem hname hbound =>
    rw [parse_bundledPrelude] at hforms
    obtain rfl := Except.ok.inj hforms
    obtain ⟨defined, hdefined, hform⟩ := List.mem_map.mp hmem
    obtain rfl := Function.eq_of_form_eq hform
    obtain rfl := List.inj_on_of_nodup_map function_names_nodup hdefined hfunction hname
    exact ⟨identity, hbound⟩

end Store.Original

section Start

/-- The definition of a function binds its name to it. -/
theorem outcome_evaluate_form (function : Function) (depth : Nat) (f : FrameId) (s : Store) :
    (evaluate false (depth + 2) function.form f).outcome s =
      (.ok (function.closure s.nextIdentity f),
        s.takeIdentity.define f function.name (function.closure s.nextIdentity f)) := by
  have hlambda : (evaluate false (depth + 1)
      (call "lambda" [.list (function.formals.map .symbol), function.body]) f).outcome s =
        (.ok (function.closure s.nextIdentity f), s.takeIdentity) :=
    outcome_specialForm .lambda
      (outcome_bind_ok (outcome_parameterNames_symbols _ function.formals s))
  exact outcome_specialForm .define (outcome_bind_ok hlambda)

theorem definedNamesIn_forms (functions : List Function) :
    Value.definedNamesIn (functions.map Function.form) = functions.map Function.name := by
  induction functions with
  | nil => simp [Value.definedNamesIn]
  | cons function rest ih =>
    have hform : function.form.definedNames = [function.name] := by
      have hdefine : specialHead? (.symbol "define") = some .define :=
        SpecialForm.specialHead?_name .define
      have hlambda : specialHead? (.symbol "lambda") = some .lambda :=
        SpecialForm.specialHead?_name .lambda
      simp only [Function.form, call, Value.definedNames, hdefine, SpecialForm.definedNames,
        hlambda]
    rw [List.map_cons, Value.definedNamesIn, hform, ih]
    rfl

theorem getIn?_define_self {s : Store} {f : FrameId} (hf : f < s.frames.size) (name : Text)
    (v : Value) : (s.define f name v).getIn? name f = some v := by
  simp [Store.getIn?, Store.define, Array.getElem?_modify, Array.getElem?_eq_getElem hf]

/-- Definitions of functions with different names bind all of them. -/
theorem evaluateForms_functions {functions : List Function}
    (hnodup : (functions.map Function.name).Nodup) {s : Store} {f : FrameId}
    (hf : f < s.frames.size) {run : Run Unit} {final : Session}
    (hrun : Session.evaluateForms false (fun _ _ => .ok ()) (functions.map Function.form)
      { store := s, global := f } = (run, final)) :
    run.failure = none ∧ ∀ function ∈ functions, ∃ identity,
      final.store.getIn? function.name f = some (function.closure identity f) := by
  induction functions generalizing s run final with
  | nil =>
    obtain ⟨rfl, rfl⟩ := Prod.mk.inj hrun
    exact ⟨rfl, by simp⟩
  | cons function rest ih =>
    obtain ⟨hfresh, hrest⟩ := List.nodup_cons.mp hnodup
    have houtcome := outcome_evaluate_form function (nestingLimit - 1) f s
    generalize hnext : s.takeIdentity.define f function.name
      (function.closure s.nextIdentity f) = next at houtcome
    have hperform : Session.perform { store := s, global := f }
        (evaluateIn false function.form f) =
          (.ok (function.closure s.nextIdentity f), { store := next, global := f }) :=
      Session.perform_of_outcome houtcome
    have hform := Session.perform_evaluateForm_ok (fun _ _ => .ok ()) hperform
    rw [List.map_cons, Session.evaluateForms_cons_ok hform, Run.andThen] at hrun
    have hsize : f < next.frames.size := by
      simpa [← hnext, Store.define, Store.takeIdentity] using hf
    obtain ⟨hfailure, hbound⟩ := ih hrest hsize rfl
    obtain ⟨rfl, rfl⟩ := Prod.mk.inj hrun
    refine ⟨hfailure, List.forall_mem_cons.mpr ⟨⟨s.nextIdentity, ?_⟩, hbound⟩⟩
    -- The definitions after the first one leave its name alone.
    have hwrites := (Session.writes_evaluateForms false (fun _ _ => .ok ())
      (rest.map Function.form) { store := next, global := f }).1
    rw [definedNamesIn_forms] at hwrites
    rw [hwrites.getIn?_eq hsize hfresh, ← hnext]
    exact getIn?_define_self hf _ _

/-- A new session binds the primitives of the catalog. -/
theorem getIn?_empty {p : Primitive} (hp : p ∈ Primitive.catalog) :
    ∃ identity, Session.empty.store.getIn? p.name 0 = some (.primitive identity p) := by
  have hnodup : (Table.keys (Store.globalBindings 0)).Nodup := by decide
  have hframe : Session.empty.store.frames[0]? =
      some (Frame.defineAll {} (Store.globalBindings 0)) := by
    rw [Session.empty, Store.pushGlobal, Store.push]
    rfl
  obtain ⟨identity, hlt, rfl⟩ := List.mem_iff_getElem.mp hp
  have hzip : (Primitive.catalog[identity], identity) ∈ Primitive.catalog.zipIdx :=
    List.mk_mem_zipIdx_iff_getElem?.mpr (List.getElem?_eq_getElem hlt)
  have hbound : (Primitive.catalog[identity].name,
      .primitive identity Primitive.catalog[identity]) ∈ Store.globalBindings 0 :=
    List.mem_append_left _ (List.mem_map_of_mem hzip)
  refine ⟨identity, ?_⟩
  rw [Store.getIn?, hframe, Option.bind_some]
  exact Frame.get?_defineAll_of_mem hnodup hbound _

/-- A new session with the bundled prelude, which loads without failing, has the original bindings
of all names of primitives and of the prelude. -/
theorem original_start {failure : Option Failure} {session : Session}
    (h : Session.start false (some bundledPrelude) = (failure, session)) :
    failure = none ∧ session.store.IsGlobal session.global ∧
      ∀ name ∈ Primitive.catalog.map Primitive.name ++ functions.map Function.name,
        session.store.Original session.global name := by
  have hf : 0 < Session.empty.store.frames.size := by decide
  obtain ⟨hwrites, hglobal⟩ := Session.writes_evaluateForms false (fun _ _ => .ok ())
    (functions.map Function.form) Session.empty
  cases hrun : Session.evaluateForms false (fun _ _ => .ok ()) (functions.map Function.form)
      Session.empty with
  | mk run final =>
    rw [hrun, definedNamesIn_forms] at hwrites
    rw [hrun] at hglobal
    obtain ⟨hfailure, hbound⟩ := evaluateForms_functions function_names_nodup hf hrun
    rw [Session.start, Session.load, Session.evaluateAll, parse_bundledPrelude] at h
    simp only [hrun] at h
    obtain ⟨rfl, rfl⟩ := Prod.mk.inj h
    rw [hglobal]
    refine ⟨hfailure, ?_, fun name hname => ?_⟩
    · obtain ⟨frame', hframe', hgrows⟩ := hwrites.own _ (Array.getElem?_eq_getElem hf)
      exact ⟨frame', hframe', hgrows.parent⟩
    rcases List.mem_append.mp hname with hprimitive | hfunction
    · obtain ⟨p, hp, rfl⟩ := List.mem_map.mp hprimitive
      obtain ⟨identity, hempty⟩ := getIn?_empty hp
      have hfresh : p.name ∉ functions.map Function.name := by
        intro hname
        obtain ⟨function, hfunction, heq⟩ := List.mem_map.mp hname
        exact name_ne_of_mem hfunction hp heq
      exact .primitive hp rfl ((hwrites.getIn?_eq hf hfresh).trans hempty)
    · obtain ⟨function, hmem, rfl⟩ := List.mem_map.mp hfunction
      obtain ⟨identity, hdefined⟩ := hbound function hmem
      exact .prelude parse_bundledPrelude (List.mem_map_of_mem hmem) rfl hdefined

end Start

end SmallLisp
