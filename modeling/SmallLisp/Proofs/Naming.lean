import Mathlib.Data.List.Find
import Mathlib.Data.List.TakeWhile
import Mathlib.Logic.Relation
import SmallLisp.Proofs.Evaluation.Adequacy
import SmallLisp.Proofs.Evaluation.History
import SmallLisp.Proofs.Evaluation.WriteFootprint
import SmallLisp.Proofs.Scoping
/-!
Which functions are the same, and what they are called.

A function is told apart from others by its identity alone, and is called after a name that is bound
to it.  Main statement: in every store that is reached, a lambda form makes a function that equals
none from before; the name of a function is the first one bound to that very function in the nearest
frame that binds it; and a function that has just been defined is called by its name for as long as
this name and the earlier ones of the frame are bound as they were.
-/

namespace SmallLisp

open Evaluation

/-- The names that a frame has bound since before `name`, and `name` itself. -/
def Frame.namesUpTo (frame : Frame) (name : Text) : List Text :=
  (Table.keys frame.bindings).takeWhile (· != name) ++ [name]

/-- An evaluation, of whatever expression and however it ends, after which the frame `f` binds
`names` as before. -/
def Store.Spares (f : FrameId) (names : List Text) (s s' : Store) : Prop :=
  (∃ tracing depth e g, ((evaluate tracing depth e g).outcome s).2 = s') ∧
    ∀ name ∈ names, s'.getIn? name f = s.getIn? name f

/-- A value that a frame binds under some name. -/
def Store.Binds (s : Store) (g : FrameId) (v : Value) : Prop :=
  ∃ frame, s.frames[g]? = some frame ∧ ∃ name, (name, v) ∈ frame.bindings

/-- The name of a function that was made in frame `f`: the first one bound to it in the nearest
frame that binds it. -/
inductive Store.NamedAs (s : Store) (v : Value) (f : FrameId) : Text → Prop
  | bound {g : FrameId} {frame : Frame} {name : Text} {before after : Table Text Value} :
      s.Climbs (fun k => ¬ s.Binds k v) f g → s.frames[g]? = some frame →
      frame.bindings = before ++ (name, v) :: after → (∀ entry ∈ before, entry.2 ≠ v) →
      NamedAs s v f name
  | anonymous : (∀ g, s.Ancestor f g → ¬ s.Binds g v) → NamedAs s v f "anonymous"

/-- A value that is in a store with a history, or in the hands of a computation on it. -/
def Store.Has (s : Store) (made : List Value) (v : Value) : Prop :=
  ∃ w : Value, (w.MadeOf made ∨ ∃ g, s.Binds g w) ∧ v.PartOf w

section Frames

variable {frame frame' : Frame} {v : Value} {before : List Text} {name : Text}

/-- A frame in which `name` is the first name of a value, and comes after `before`. -/
structure Frame.CallsFirst (frame : Frame) (v : Value) (before : List Text) (name : Text) :
    Prop where
  nodup : (Table.keys frame.bindings).Nodup
  keys : ∃ after, Table.keys frame.bindings = before ++ name :: after
  before : ∀ other ∈ before, (frame.get? other).any (·.equal v) = false
  name : (frame.get? name).any (·.equal v) = true

namespace Frame

/-- The name of a value is found by going through the keys. -/
theorem nameOf?_eq_find? (hnodup : (Table.keys frame.bindings).Nodup) (v : Value) :
    frame.nameOf? v =
      (Table.keys frame.bindings).find? fun name => (frame.get? name).any (·.equal v) := by
  obtain ⟨bindings, parent⟩ := frame
  simp only [nameOf?, get?] at hnodup ⊢
  induction bindings with
  | nil => rfl
  | cons entry rest ih =>
    obtain ⟨name, bound⟩ := entry
    obtain ⟨hfresh, hrest⟩ := List.nodup_cons.mp hnodup
    have hlater : (Table.keys rest).find? (fun other =>
        (((name, bound) :: rest).lookup other).any (·.equal v)) =
        (Table.keys rest).find? fun other => (rest.lookup other).any (·.equal v) := by
      apply List.find?_congr
      intro other hother
      have hne : (other == name) = false := by
        rw [beq_eq_false_iff_ne]
        rintro rfl
        exact hfresh hother
      rw [List.lookup_cons, hne]
    rw [Table.keys, List.map_cons, ← Table.keys, List.find?_cons, List.find?_cons, hlater,
      ← ih hrest, List.lookup_cons_self, Option.any_some]
    cases bound.equal v <;> rfl

theorem CallsFirst.nameOf? (h : frame.CallsFirst v before name) :
    frame.nameOf? v = some name := by
  obtain ⟨after, hkeys⟩ := h.keys
  rw [nameOf?_eq_find? h.nodup, List.find?_eq_some_iff_append]
  refine ⟨h.name, before, after, hkeys, fun other hother => ?_⟩
  rw [h.before other hother]
  rfl

/-- A frame that has grown still has every name once. -/
theorem Grows.nodup_keys {names : List Text} (hgrows : frame.Grows names frame')
    (h : (Table.keys frame.bindings).Nodup) : (Table.keys frame'.bindings).Nodup := by
  obtain ⟨added, hkeys, -, hadded, hdisjoint⟩ := hgrows.keys
  rw [hkeys]
  exact h.append hadded hdisjoint

/-- The first name stays the first one while it and those before it are bound as they were. -/
theorem CallsFirst.grows {names : List Text} (h : frame.CallsFirst v before name)
    (hgrows : frame.Grows names frame')
    (hsame : ∀ other ∈ before ++ [name], frame'.get? other = frame.get? other) :
    frame'.CallsFirst v before name where
  nodup := hgrows.nodup_keys h.nodup
  keys := by
    obtain ⟨after, hafter⟩ := h.keys
    obtain ⟨added, hkeys, -⟩ := hgrows.keys
    exact ⟨after ++ added, by rw [hkeys, hafter, List.append_assoc, List.cons_append]⟩
  before other hother := by
    rw [hsame other (List.mem_append_left _ hother)]
    exact h.before other hother
  name := by
    rw [hsame name (List.mem_append_right _ (List.mem_singleton_self name))]
    exact h.name

/-- The names up to one that is bound come first. -/
theorem exists_keys_eq (h : name ∈ Table.keys frame.bindings) :
    ∃ before after, Table.keys frame.bindings = before ++ name :: after ∧ name ∉ before ∧
      frame.namesUpTo name = before ++ [name] := by
  obtain ⟨before, after, hkeys, hfresh⟩ := List.eq_append_cons_of_mem h
  refine ⟨before, after, hkeys, hfresh, ?_⟩
  have hbefore : ∀ other ∈ before, (other != name) = true := by
    intro other hother
    rw [bne_iff_ne]
    rintro rfl
    exact hfresh hother
  rw [namesUpTo, hkeys, List.takeWhile_append_of_pos hbefore,
    List.takeWhile_cons_of_neg (by simp), List.append_nil]

/-- A new value is called by the name under which it is defined. -/
theorem callsFirst_define (hnodup : (Table.keys frame.bindings).Nodup) (name : Text)
    (hv : v.equal v = true) (hfresh : ∀ entry ∈ frame.bindings, entry.2.equal v = false) :
    ∃ before, (frame.define name v).namesUpTo name = before ++ [name] ∧
      (frame.define name v).CallsFirst v before name := by
  have hmem : name ∈ Table.keys (frame.define name v).bindings :=
    Table.mem_keys_insert name v frame.bindings
  obtain ⟨before, after, hkeys, hnew, hnames⟩ := exists_keys_eq hmem
  refine ⟨before, hnames, Table.nodup_keys_insert name v hnodup, ⟨after, hkeys⟩, ?_, ?_⟩
  · intro other hother
    have hne : other ≠ name := by
      rintro rfl
      exact hnew hother
    rw [get?_define_of_ne hne]
    cases hget : frame.get? other with
    | none => rfl
    | some w => exact hfresh (other, w) (Table.mem_of_lookup hget)
  · rw [get?_define_self]
    exact hv

end Frame

end Frames

namespace Store

section Names

variable {s s' : Store} {f : FrameId} {v : Value} {before : List Text} {name : Text}

/-- The search along a chain begins with its first frame. -/
theorem nameOf?_of_frame {frame : Frame} (hframe : s.frames[f]? = some frame)
    (hname : frame.nameOf? v = some name) : s.nameOf? f v = some name := by
  rw [nameOf?, chain, chainWithin]
  cases s.parent? f <;> simp [hframe, hname]

/-- An evaluation lets a frame grow. -/
theorem exists_grows (s : Store) (tracing : Bool) (depth : Nat) (e : Value) (g : FrameId)
    {frame : Frame} (hframe : s.frames[f]? = some frame) :
    ∃ frame', ((evaluate tracing depth e g).outcome s).2.frames[f]? = some frame' ∧
      frame.Grows e.definedNames frame' := by
  have hwrites := keeps_evaluate tracing depth e g s
  by_cases hfg : f = g
  · subst hfg
    exact hwrites.own frame hframe
  · have hf := (Array.getElem?_eq_some_iff.mp hframe).1
    exact ⟨frame, (hwrites.others f hf hfg).trans hframe, .refl _ frame⟩

/-- What is called by the first name of a frame is so after any evaluations that spare this name and
those before it. -/
theorem exists_callsFirst_of_spares
    (hspares : Relation.ReflTransGen (Spares f (before ++ [name])) s s')
    (h : ∃ frame, s.frames[f]? = some frame ∧ frame.CallsFirst v before name) :
    ∃ frame, s'.frames[f]? = some frame ∧ frame.CallsFirst v before name := by
  -- The frame grows at every step, but what it bound up to the name stays as it was.
  induction hspares with
  | refl => exact h
  | tail _ hstep ih =>
    obtain ⟨frame, hframe, hcalls⟩ := ih
    obtain ⟨⟨tracing, depth, e, g, rfl⟩, hsame⟩ := hstep
    obtain ⟨frame', hframe', hgrows⟩ := exists_grows _ tracing depth e g hframe
    refine ⟨frame', hframe', hcalls.grows hgrows fun other hother => ?_⟩
    have hother' := hsame other hother
    rwa [getIn?, getIn?, hframe, hframe'] at hother'

/-- An evaluation in another frame, or of an expression that defines none of the names, spares
them. -/
theorem spares_evaluate {names : List Text} (hf : f < s.frames.size) (tracing : Bool)
    (depth : Nat) (e : Value) (g : FrameId) (h : g ≠ f ∨ e.definedNames.Disjoint names) :
    s.Spares f names ((evaluate tracing depth e g).outcome s).2 := by
  refine ⟨⟨tracing, depth, e, g, rfl⟩, fun name hname => ?_⟩
  have hwrites := keeps_evaluate tracing depth e g s
  by_cases hgf : g = f
  · subst hgf
    exact hwrites.getIn?_eq hf fun hdefined => (h.resolve_left (absurd rfl)) hdefined hname
  · rw [getIn?, getIn?, hwrites.others f hf (Ne.symm hgf)]

end Names

section Histories

variable {s : Store} {made : List Value} {v w : Value}

theorem Records.madeOf_of_binds (h : s.Records made) {g : FrameId} (hbinds : s.Binds g v) :
    v.MadeOf made := by
  obtain ⟨frame, hframe, name, hmem⟩ := hbinds
  exact (h.frames g frame hframe).values _ hmem

/-- A function that is there is in the history. -/
theorem Records.mem_of_has (h : s.Records made) (hv : s.Has made v)
    (hfunction : v.isFunction = true) : v ∈ made := by
  obtain ⟨w, hw, hpart⟩ := hv
  have hmade : w.MadeOf made := hw.elim id fun ⟨g, hbinds⟩ => h.madeOf_of_binds hbinds
  refine hmade.mem_of_partOf h.parts hpart ?_
  cases v <;> simp_all [Value.isFunction, Value.identity?]

/-- The first name of a function in a frame is the first one bound to that very function. -/
theorem Records.nameOf?_eq_some_iff (h : s.Records made) {g : FrameId} {frame : Frame}
    (hframe : s.frames[g]? = some frame) (hv : v.MadeOf made) (hfunction : v.isFunction = true)
    (name : Text) : frame.nameOf? v = some name ↔
      ∃ before after, frame.bindings = before ++ (name, v) :: after ∧
        ∀ entry ∈ before, entry.2 ≠ v := by
  have hequal : ∀ entry ∈ frame.bindings, entry.2.equal v = true ↔ entry.2 = v :=
    fun entry hentry => h.equal_iff_eq ((h.frames g frame hframe).values entry hentry) hv hfunction
  simp only [Frame.nameOf?, Option.map_eq_some_iff, List.find?_eq_some_iff_append]
  constructor
  · rintro ⟨⟨other, w⟩, ⟨hw, before, after, hbindings, hbefore⟩, rfl⟩
    -- The search stops at what equals the function, and that is the function itself.
    obtain rfl : w = v := (hequal (other, w) (by simp [hbindings])).mp hw
    refine ⟨before, after, hbindings, fun entry hentry heq => ?_⟩
    have hself := (hequal entry (by simp [hbindings, hentry])).mpr heq
    have hnot := hbefore entry hentry
    simp [hself] at hnot
  · rintro ⟨before, after, hbindings, hbefore⟩
    refine ⟨(name, v), ⟨?_, before, after, hbindings, fun entry hentry => ?_⟩, rfl⟩
    · exact (hequal (name, v) (by simp [hbindings])).mpr rfl
    · have hne := mt (hequal entry (by simp [hbindings, hentry])).mp (hbefore entry hentry)
      simpa using hne

/-- A frame has no name for a function if it does not bind it. -/
theorem Records.bind_nameOf?_eq_none_iff (h : s.Records made) (hv : v.MadeOf made)
    (hfunction : v.isFunction = true) (g : FrameId) :
    s.frames[g]?.bind (·.nameOf? v) = none ↔ ¬ s.Binds g v := by
  cases hframe : s.frames[g]? with
  | none => simp [Binds, hframe]
  | some frame =>
    have hequal : ∀ entry ∈ frame.bindings, entry.2.equal v = true ↔ entry.2 = v :=
      fun entry hentry =>
        h.equal_iff_eq ((h.frames g frame hframe).values entry hentry) hv hfunction
    simp only [Option.bind_some, Frame.nameOf?, Option.map_eq_none_iff, List.find?_eq_none,
      Binds, hframe, Option.some.injEq]
    constructor
    · rintro hall ⟨_, rfl, name, hmem⟩
      exact hall (name, v) hmem ((hequal (name, v) hmem).mpr rfl)
    · intro hnot entry hentry hself
      refine hnot ⟨frame, rfl, entry.1, ?_⟩
      rwa [← (hequal entry hentry).mp hself]

/-- No frame on the way binds a function, or there is a nearest one. -/
theorem Records.namedAs_iff (h : s.Records made) (hv : v.MadeOf made)
    (hfunction : v.isFunction = true) (f : FrameId) (name : Text) :
    s.NamedAs v f name ↔ (s.nameOf? f v).getD "anonymous" = name := by
  have hskip : (fun k => s.frames[k]?.bind (·.nameOf? v) = none) = fun k => ¬ s.Binds k v :=
    funext fun k => propext (h.bind_nameOf?_eq_none_iff hv hfunction k)
  have hsome : ∀ name, s.nameOf? f v = some name ↔
      ∃ g, s.Climbs (fun k => ¬ s.Binds k v) f g ∧ s.frames[g]?.bind (·.nameOf? v) = some name := by
    intro name
    rw [← hskip]
    exact findSome?_chain_eq_some_iff h.parentsFirst _ f name
  have hnone : s.nameOf? f v = none ↔ ∀ g, s.Ancestor f g → ¬ s.Binds g v := by
    rw [nameOf?, findSome?_chain_eq_none_iff h.parentsFirst]
    simp only [h.bind_nameOf?_eq_none_iff hv hfunction]
  constructor
  · rintro (⟨hclimbs, hframe, hbindings, hbefore⟩ | hanonymous)
    · have hname := (h.nameOf?_eq_some_iff hframe hv hfunction _).mpr ⟨_, _, hbindings, hbefore⟩
      rw [(hsome _).mpr ⟨_, hclimbs, by rw [hframe, Option.bind_some, hname]⟩]
      rfl
    · rw [hnone.mpr hanonymous]
      rfl
  · rintro rfl
    cases hname : s.nameOf? f v with
    | none => exact .anonymous (hnone.mp hname)
    | some name =>
      obtain ⟨g, hclimbs, hlook⟩ := (hsome name).mp hname
      obtain ⟨frame, hframe, hfirst⟩ := Option.bind_eq_some_iff.mp hlook
      obtain ⟨before, after, hbindings, hbefore⟩ :=
        (h.nameOf?_eq_some_iff hframe hv hfunction name).mp hfirst
      exact .bound hclimbs hframe hbindings hbefore

end Histories

section Forms

variable {s s' : Store} {tracing : Bool} {depth : Nat} {parts : List Value}
  {identity : Option Nat} {f : FrameId} {v : Value}

/-- A line of the trace changes no frame and takes no identity. -/
theorem frames_eq_of_trace {view : Store → View} {label : Text} {e : Value}
    (h : (trace view tracing label e).outcome s = (.ok ⟨⟩, s')) :
    s'.frames = s.frames ∧ s'.nextIdentity = s.nextIdentity := by
  cases tracing with
  | false =>
    obtain ⟨-, rfl⟩ := Prod.mk.inj h
    exact ⟨rfl, rfl⟩
  | true =>
    rcases outcome_bind_cases h with ⟨text, s₁, htext, hrecord⟩ | ⟨e, -, ⟨⟩⟩
    rw [outcome_observe] at htext
    obtain ⟨-, rfl⟩ := Prod.mk.inj htext
    obtain ⟨-, rfl⟩ := Prod.mk.inj hrecord
    exact ⟨rfl, rfl⟩

/-- What a special form returns comes from its rule, in a store in which nothing has been made. -/
theorem exists_outcome_evaluateWith (form : SpecialForm)
    (h : (evaluate tracing depth (.list (.symbol form.name :: parts) identity) f).outcome s =
      (.ok v, s')) :
    ∃ inner s₁, depth = inner + 1 ∧ s₁.frames = s.frames ∧ s₁.nextIdentity = s.nextIdentity ∧
      (form.evaluateWith (view inner) (evaluate tracing inner) parts f).outcome s₁ =
        (.ok v, s') := by
  cases depth with
  | zero => cases h
  | succ inner =>
    rcases outcome_bind_cases h with ⟨⟨⟩, s₁, htrace, hform⟩ | ⟨e, -, ⟨⟩⟩
    obtain ⟨hframes, hidentity⟩ := frames_eq_of_trace htrace
    refine ⟨inner, s₁, rfl, hframes, hidentity, ?_⟩
    cases form <;> exact hform

/-- A lambda form that returns makes a function with the next identity in its frame. -/
theorem exists_closure_of_lambda
    (h : (evaluate tracing depth (.list (.symbol "lambda" :: parts) identity) f).outcome s =
      (.ok v, s')) :
    (∃ formals body, v = .closure s.nextIdentity formals body f) ∧ s'.frames = s.frames := by
  obtain ⟨inner, s₁, rfl, hframes, hidentity, hform⟩ := exists_outcome_evaluateWith .lambda h
  cases SpecialForm.lambda.shape parts with
  | lambda parameters identity body =>
    rcases outcome_bind_cases hform with ⟨formals, s₂, hformals, hmade⟩ | ⟨e, -, ⟨⟩⟩
    obtain rfl : s₂ = s₁ := by
      rcases parameters_cases parameters with ⟨names, rfl⟩ | ⟨names, w, rest, rfl, hw⟩
      · rw [outcome_parameterNames_symbols] at hformals
        exact (Prod.mk.inj hformals).2.symm
      · rw [outcome_parameterNames_other _ _ hw] at hformals
        exact (Prod.mk.inj hformals).2.symm
    obtain ⟨hv, rfl⟩ := Prod.mk.inj hmade
    obtain rfl := Except.ok.inj hv
    exact ⟨⟨formals, body, by rw [hidentity]⟩, hframes⟩
  | lambdaParameters body hparameters =>
    rw [SpecialForm.evaluateWith_lambdaParameters hparameters, outcome_failOn] at hform
    exact absurd (Prod.mk.inj hform).1 (failShowing_ne_ok _ _ _ _)
  | lambdaParts hcount =>
    rw [SpecialForm.evaluateWith_lambdaParts hcount] at hform
    cases hform

/-- A definition of a lambda form that returns has bound a new function in its frame. -/
theorem exists_closure_of_define {name : Text} {inner : Option Nat} {rest : List Value}
    (h : (evaluate tracing depth (.list (.symbol "define" :: .symbol name ::
      .list (.symbol "lambda" :: parts) inner :: rest) identity) f).outcome s = (.ok v, s')) :
    (∃ formals body, v = .closure s.nextIdentity formals body f) ∧
      s'.frames = s.frames.modify f (·.define name v) := by
  obtain ⟨depth, s₁, rfl, hframes, hidentity, hform⟩ := exists_outcome_evaluateWith .define h
  rcases outcome_bind_cases hform with ⟨w, s₂, hlambda, hdefine⟩ | ⟨e, -, ⟨⟩⟩
  obtain ⟨hclosure, hsame⟩ := exists_closure_of_lambda hlambda
  obtain ⟨hv, rfl⟩ := Prod.mk.inj hdefine
  obtain rfl := Except.ok.inj hv
  rw [hidentity] at hclosure
  exact ⟨hclosure, by rw [← hframes, ← hsame]; rfl⟩

/-- Without a trace, a well-formed lambda form returns. -/
theorem outcome_lambda (s : Store) (depth : Nat) (formals : List Text) (body : Value)
    (inner parameters : Option Nat) (f : FrameId) :
    (evaluate false (depth + 1)
      (.list [.symbol "lambda", .list (formals.map .symbol) parameters, body] inner) f).outcome s =
      (.ok (.closure s.nextIdentity formals body f), s.takeIdentity) :=
  outcome_specialForm .lambda (outcome_bind_ok (outcome_parameterNames_symbols _ formals s))

theorem exists_outcome_define (s : Store) (depth : Nat) (name : Text) (formals : List Text)
    (body : Value) (outer inner parameters : Option Nat) (rest : List Value) (f : FrameId) :
    ∃ v s', (evaluate false (depth + 2) (.list (.symbol "define" :: .symbol name ::
      .list [.symbol "lambda", .list (formals.map .symbol) parameters, body] inner :: rest) outer)
        f).outcome s = (.ok v, s') := by
  have hlambda := outcome_lambda s depth formals body inner parameters f
  exact ⟨_, _, outcome_specialForm .define (outcome_bind_ok hlambda)⟩

end Forms

variable {s : Store} {made : List Value}

/-- The laws of the functions in a store with a history. -/
structure NamesFunctions (s : Store) (made : List Value) : Prop where
  /-- An evaluation of what is made of the history leads to such a store again. -/
  evaluated : ∀ tracing depth e f, e.MadeOf made → f < s.frames.size →
    ∃ made', made ⊆ made' ∧
      s.frames.size ≤ ((evaluate tracing depth e f).outcome s).2.frames.size ∧
      ((evaluate tracing depth e f).outcome s).2.Reached made' ∧
      ∀ v, ((evaluate tracing depth e f).outcome s).1 = .ok v → v.MadeOf made'
  /-- A lambda form makes a function that is not `equal?` to any from before. -/
  fresh : ∀ tracing depth parts identity f v s',
    (evaluate tracing depth (.list (.symbol "lambda" :: parts) identity) f).outcome s =
      (.ok v, s') →
    (∃ i formals body, v = .closure i formals body f) ∧
      ∀ w, s.Has made w → w.isFunction = true → ∀ p ∈ Primitive.catalog, p.name = "equal?" →
        ∀ (later : Store) inner,
          p.applyWith (later.view (inner + 1)) [v, w] = .ok (.boolean false) ∧
          p.applyWith (later.view (inner + 1)) [w, v] = .ok (.boolean false)
  /-- A well-formed lambda form does make one. -/
  makes : ∀ depth (formals : List Text) body inner parameters f, ∃ v s',
    (evaluate false (depth + 1)
      (.list [.symbol "lambda", .list (formals.map .symbol) parameters, body] inner) f).outcome s =
        (.ok v, s')
  /-- A frame has its names in the order in which they were first defined. -/
  ordered : ∀ tracing depth e (g f : FrameId) (frame : Frame), s.frames[f]? = some frame →
    ∃ (frame' : Frame) (added : List Text),
      ((evaluate tracing depth e g).outcome s).2.frames[f]? = some frame' ∧
      Table.keys frame'.bindings = Table.keys frame.bindings ++ added ∧
      (Table.keys frame'.bindings).Nodup
  /-- A function has the first name bound to that very function in the nearest frame, if any. -/
  named : ∀ identity formals body f name, s.Has made (.closure identity formals body f) →
    (Value.functionName s (.closure identity formals body f) = name ↔
      s.NamedAs (.closure identity formals body f) f name)
  /-- A function that has been defined is shown by its name, and stays so after evaluations that
  spare the name and those before it. -/
  defined : ∀ tracing depth name parts inner rest outer f v s', f < s.frames.size →
    (evaluate tracing depth (.list (.symbol "define" :: .symbol name ::
      .list (.symbol "lambda" :: parts) inner :: rest) outer) f).outcome s = (.ok v, s') →
    ∃ frame, s'.frames[f]? = some frame ∧
      ∀ s'', Relation.ReflTransGen (Spares f (frame.namesUpTo name)) s' s'' →
        Value.functionName s'' v = name ∧
        ∀ limit, Value.displayWithin s'' (limit + 1) v = .ok (functionText name)
  /-- The definition of a well-formed lambda form does return. -/
  returns : ∀ depth name (formals : List Text) body outer inner parameters rest f, ∃ v s',
    (evaluate false (depth + 2) (.list (.symbol "define" :: .symbol name ::
      .list [.symbol "lambda", .list (formals.map .symbol) parameters, body] inner :: rest) outer)
        f).outcome s = (.ok v, s')
  /-- Evaluations in other frames, and those that define none of the names, spare them. -/
  spared : ∀ tracing depth e g f names, f < s.frames.size →
    g ≠ f ∨ e.definedNames.Disjoint names →
    s.Spares f names ((evaluate tracing depth e g).outcome s).2

/-- The call of `equal?` on functions compares their identities. -/
theorem applyWith_equal {p : Primitive} (hp : p ∈ Primitive.catalog) (hname : p.name = "equal?")
    (s : Store) (inner : Nat) (v : Value) {w : Value} (hw : w.isFunction = true) :
    p.applyWith (s.view (inner + 1)) [v, w] = .ok (.boolean (v.equal w)) := by
  rw [Primitive.applyWith_equal hp hname]
  cases w <;> simp [Value.isFunction] at hw <;> cases v <;> rfl

/-- What is made of the history equals no function with the next identity. -/
theorem Records.equal_eq_false (h : s.Records made) {w : Value} (hw : w.MadeOf made)
    (formals : List Text) (body : Value) (f : FrameId) :
    w.equal (.closure s.nextIdentity formals body f) = false ∧
      (Value.closure s.nextIdentity formals body f).equal w = false := by
  have hne : w.identity? ≠ some s.nextIdentity := by
    intro heq
    have hmem := h.mem_of_madeOf hw (by rw [heq]; exact Option.some_ne_none _)
    obtain ⟨i, hi, hlt⟩ := h.taken w hmem
    exact Nat.ne_of_lt hlt (Option.some.inj (hi.symm.trans heq))
  cases w with
  | closure identity formals' body' g =>
    have hidentity : identity ≠ s.nextIdentity := fun heq => hne (congrArg some heq)
    simp [Value.equal, hidentity, Ne.symm hidentity]
  | _ => exact ⟨rfl, rfl⟩

/-- In every store that is reached the laws of functions hold. -/
theorem Reached.namesFunctions (h : s.Reached made) : s.NamesFunctions made where
  evaluated tracing depth e f he hf := h.evaluate tracing depth he hf
  fresh tracing depth parts identity f v s' hlambda := by
    obtain ⟨⟨formals, body, rfl⟩, -⟩ := exists_closure_of_lambda hlambda
    refine ⟨⟨_, formals, body, rfl⟩, fun w hw hfunction p hp hname later inner => ?_⟩
    have hmade : w.MadeOf made := .made (h.records.mem_of_has hw hfunction)
    obtain ⟨hleft, hright⟩ := h.records.equal_eq_false hmade formals body f
    rw [applyWith_equal hp hname _ _ _ hfunction, applyWith_equal hp hname _ _ _ rfl, hleft, hright]
    exact ⟨rfl, rfl⟩
  makes depth formals body inner parameters f :=
    ⟨_, _, outcome_lambda s depth formals body inner parameters f⟩
  ordered tracing depth e g f frame hframe := by
    obtain ⟨frame', hframe', hgrows⟩ := exists_grows s tracing depth e g hframe
    obtain ⟨added, hkeys, -⟩ := hgrows.keys
    exact ⟨frame', added, hframe', hkeys,
      hgrows.nodup_keys (h.records.frames f frame hframe).nodup⟩
  named identity formals body f name hhas := by
    have hmade : (Value.closure identity formals body f).MadeOf made :=
      .made (h.records.mem_of_has hhas rfl)
    exact (h.records.namedAs_iff hmade rfl f name).symm
  defined tracing depth name parts inner rest outer f v s' hf hdefine := by
    obtain ⟨⟨formals, body, rfl⟩, hframes⟩ := exists_closure_of_define hdefine
    have hframe := Array.getElem?_eq_getElem hf
    have hrecords := h.records.frames f _ hframe
    -- The function is new, so no name of the frame comes before its own.
    have hfresh : ∀ entry ∈ s.frames[f].bindings,
        entry.2.equal (.closure s.nextIdentity formals body f) = false := fun entry hentry =>
      (h.records.equal_eq_false (hrecords.values entry hentry) formals body f).1
    obtain ⟨before, hnames, hcalls⟩ :=
      Frame.callsFirst_define hrecords.nodup name (by simp [Value.equal]) hfresh
    have hafter : s'.frames[f]? =
        some (s.frames[f].define name (.closure s.nextIdentity formals body f)) := by
      rw [hframes, Array.getElem?_modify, if_pos rfl, hframe, Option.map_some]
    refine ⟨_, hafter, fun s'' hspares => ?_⟩
    rw [hnames] at hspares
    obtain ⟨frame, hframe'', hcalls''⟩ :=
      exists_callsFirst_of_spares hspares ⟨_, hafter, hcalls⟩
    have hname : Value.functionName s'' (.closure s.nextIdentity formals body f) = name := by
      rw [Value.functionName, nameOf?_of_frame hframe'' hcalls''.nameOf?, Option.getD_some]
    exact ⟨hname, fun limit => by rw [Value.displayWithin, hname]⟩
  returns depth name formals body outer inner parameters rest f :=
    exists_outcome_define s depth name formals body outer inner parameters rest f
  spared tracing depth e g f names hf h := spares_evaluate hf tracing depth e g h

/-- A function keeps its name when it is given another one. -/
theorem namesFunctions_twoNames :
    (pushGlobal {}).Reached (primitives 0 ++ []) ∧ ∃ v s',
      (evaluate false 2 (.list [.symbol "define", .symbol "f",
        .list [.symbol "lambda", .list [.symbol "x"], .symbol "x"]]) 0).outcome (pushGlobal {}) =
          (.ok v, s') ∧
      (evaluate false 2 (.list [.symbol "define", .symbol "g", .symbol "f"]) 0).outcome s' =
        (.ok v, s'.define 0 "g" v) ∧
      Value.functionName (s'.define 0 "g" v) v = "f" := by
  have hreached : (pushGlobal {}).Reached (primitives 0 ++ []) := Reached.empty.global
  have hdefine : (evaluate false 2 (.list [.symbol "define", .symbol "f",
      .list [.symbol "lambda", .list [.symbol "x"], .symbol "x"]]) 0).outcome (pushGlobal {}) =
        (.ok (.closure 27 ["x"] (.symbol "x") 0),
          (pushGlobal {}).takeIdentity.define 0 "f" (.closure 27 ["x"] (.symbol "x") 0)) := rfl
  refine ⟨hreached, _, _, hdefine, rfl, ?_⟩
  obtain ⟨frame, hframe, hlasts⟩ :=
    hreached.namesFunctions.defined false 2 "f" _ none [] none 0 _ _ Nat.zero_lt_one hdefine
  obtain rfl := Option.some.inj hframe
  have hnames : Value.definedNames (.list [.symbol "define", .symbol "g", .symbol "f"]) =
      [("g" : Text)] := by
    have hhead : specialHead? (.symbol "define") = some .define := rfl
    simp [Value.definedNames, SpecialForm.definedNames, hhead]
  refine (hlasts _ (.single ?_)).1
  refine spares_evaluate (by decide) false 2 (.list [.symbol "define", .symbol "g", .symbol "f"]) 0
    (Or.inr ?_)
  rw [hnames, List.singleton_disjoint]
  decide

end Store

end SmallLisp
