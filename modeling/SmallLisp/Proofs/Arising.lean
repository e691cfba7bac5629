import SmallLisp.Proofs.Evaluation.WellFormed
import SmallLisp.Proofs.Reading.Datum
import SmallLisp.Proofs.Session.Texts
/-!
The stores that arise from a global frame.

A program that embeds the language holds frames and values: it can open frames, bind names in them
and evaluate, with whatever values it has, and go on after a failure.  Main statements: every store
that arises in this way is well-formed, and so is every value that is returned on the way; the
stores of sessions arise in this way.
-/

namespace SmallLisp

open Evaluation

/-- What a program that embeds the language can do to a store. -/
inductive Act
  | global
  | child (parent : FrameId)
  | define (f : FrameId) (name v : Value)
  /-- An assignment to a name that the frame can see. -/
  | set (f : FrameId) (name v : Value)
  | update (f : FrameId) (table : Table Value Value)
  /-- The frame of a call, without the call. -/
  | extend (identity : Nat) (formals : List Text) (body : Value) (f : FrameId) (args : List Value)
  | evaluate (tracing : Bool) (depth : Nat) (e : Value) (f : FrameId)
  | apply (tracing : Bool) (depth : Nat) (function : Value) (args : List Value)

namespace Act

/-- What an act does to a store, and the values that it returns. -/
def perform : Act → Evaluation (List Value)
  | .global => do
      modify Store.pushGlobal
      return []
  | .child parent => do
      modify (·.push { parent := some parent })
      return []
  | .define f name v => do
      defineDatum f name v
      return []
  | .set f name v => do
      assignDatum f name v
      return []
  | .update f table => do
      defineTable f table
      return []
  | .extend identity formals body f args => do
      let _ ← extendFrame identity formals body f args
      return []
  | .evaluate tracing depth e f => do
      let v ← SmallLisp.evaluate tracing depth e f
      return [v]
  | .apply tracing depth function args => do
      let v ← applyWith (Store.view depth) (SmallLisp.evaluate tracing depth) tracing function args
      return [v]

/-- Whether an act names frames of a store only and puts in values that are well-formed there.  What
is bound may be anything that is well-formed; whether it can be bound is for the act to find out. -/
def Admits (guests : Prop) (s : Store) : Act → Prop
  | .global => True
  | .child parent => parent < s.frames.size
  | .define f name v | .set f name v =>
      f < s.frames.size ∧ name.WellFormed True s.frames.size ∧ v.WellFormed guests s.frames.size
  | .update f table =>
      f < s.frames.size ∧ ∀ entry ∈ table,
        entry.1.WellFormed True s.frames.size ∧ entry.2.WellFormed guests s.frames.size
  | .extend identity formals body f args =>
      (Value.closure identity formals body f).WellFormed guests s.frames.size ∧
        ∀ v ∈ args, v.WellFormed guests s.frames.size
  | .evaluate _ _ e f => e.WellFormed guests s.frames.size ∧ f < s.frames.size
  | .apply _ _ function args =>
      function.WellFormed guests s.frames.size ∧ ∀ v ∈ args, v.WellFormed guests s.frames.size

end Act

/-- The stores that arise from a global frame by acts, whether they succeed or fail, with the values
that have been returned until then. -/
inductive Store.Arises (guests : Prop) : Store → List Value → Prop
  | start : Arises guests (Store.pushGlobal {}) []
  | done {s s' : Store} {returned vs : List Value} {act : Act} : Arises guests s returned →
      act.Admits guests s → act.perform.outcome s = (.ok vs, s') →
      Arises guests s' (vs ++ returned)
  | failed {s s' : Store} {returned : List Value} {act : Act} {e : Failure} :
      Arises guests s returned → act.Admits guests s → act.perform.outcome s = (.error e, s') →
      Arises guests s' returned

section Acts

variable {guests : Prop} {s : Store} {f : FrameId}

/-- A change that leaves the store well-formed and has no result. -/
theorem maintains_change {change : Store → Store}
    (h : s.WellFormed guests → (change s).WellFormed guests) (hprecedes : s.Precedes (change s)) :
    Maintains (wellFormedInvariant guests) (fun _ _ => True) (modify change) s s :=
  fun hs => ⟨_, hprecedes, ⟨rfl, h hs.2⟩, trivial⟩

theorem maintains_defineDatum {name v : Value} (hname : name.WellFormed True s.frames.size)
    (hv : v.WellFormed guests s.frames.size) :
    Maintains (wellFormedInvariant guests) (fun _ _ => True) (defineDatum f name v) s s := by
  cases name with
  | symbol text =>
    exact maintains_change (fun hs => hs.define f hname.name_ne_nil hv) (s.precedes_define f text v)
  | _ => exact (isKept_wellFormed guests).failOn _ _

theorem maintains_assignDatum {name v : Value} (hname : name.WellFormed True s.frames.size)
    (hv : v.WellFormed guests s.frames.size) :
    Maintains (wellFormedInvariant guests) (fun _ _ => True) (assignDatum f name v) s s := by
  cases name with
  | symbol text =>
    have hget : outcome (get : Evaluation Store) s = (.ok s, s) := rfl
    intro hs
    rw [assignDatum, outcome_bind_ok hget]
    cases hset : s.set? f text v with
    | none => exact (isKept_wellFormed guests).failOn _ _ hs
    | some s' =>
      obtain ⟨g, -, rfl⟩ := Option.map_eq_some_iff.mp hset
      exact ⟨_, s.precedes_define g text v, ⟨rfl, hs.2.define g hname.name_ne_nil hv⟩, trivial⟩
  | _ =>
    refine maintains_bind (maintains_discard (P := fun _ _ => True) ?_)
      fun _ _ _ _ _ => (isKept_wellFormed guests).failOn _ _
    simp only [findDatum]
    split
    · exact maintains_pure trivial
    · exact maintains_throw trivial

theorem maintains_defineTable {table : Table Value Value}
    (h : ∀ entry ∈ table, entry.1.WellFormed True s.frames.size ∧
      entry.2.WellFormed guests s.frames.size) :
    Maintains (wellFormedInvariant guests) (fun _ _ => True) (defineTable f table) s s := by
  induction table generalizing s with
  | nil => exact maintains_pure trivial
  | cons entry rest ih =>
    obtain ⟨⟨hname, hv⟩, hrest⟩ := List.forall_mem_cons.mp h
    refine maintains_bind (maintains_defineDatum hname hv) fun _ w s' hprecedes _ hs' => ?_
    obtain ⟨rfl, -⟩ := id hs'
    refine ih (fun entry hentry => ?_) hs'
    obtain ⟨hname, hv⟩ := hrest entry hentry
    exact ⟨hname.mono hprecedes.frames, hv.mono hprecedes.frames⟩

/-- An act keeps a store well-formed and returns what is well-formed there. -/
theorem Act.maintains_perform {act : Act} (h : act.Admits guests s) :
    Maintains (wellFormedInvariant guests)
      (fun s' (vs : List Value) => ∀ v ∈ vs, v.WellFormed guests s'.frames.size)
      act.perform s s := by
  have hkept := isKept_wellFormed guests
  have hnothing : ∀ w s' : Store, Maintains (wellFormedInvariant guests)
      (fun s' (vs : List Value) => ∀ v ∈ vs, v.WellFormed guests s'.frames.size) (pure []) w s' :=
    fun w s' => maintains_pure (by simp)
  cases act with
  | global =>
    refine maintains_bind (P := fun _ _ => True) ?_ fun _ w s' _ _ => hnothing w s'
    exact maintains_change (fun hs => hs.pushGlobal) s.precedes_pushGlobal
  | child parent =>
    refine maintains_bind (P := fun _ _ => True) ?_ fun _ w s' _ _ => hnothing w s'
    refine maintains_change (fun hs => hs.push (Frame.wellFormed_child ?_)) (s.precedes_push _)
    rintro p ⟨⟩
    exact h
  | define f name v =>
    exact maintains_bind (maintains_defineDatum h.2.1 h.2.2) fun _ w s' _ _ => hnothing w s'
  | set f name v =>
    exact maintains_bind (maintains_assignDatum h.2.1 h.2.2) fun _ w s' _ _ => hnothing w s'
  | update f table =>
    exact maintains_bind (maintains_defineTable h.2) fun _ w s' _ _ => hnothing w s'
  | extend identity formals body f args =>
    exact maintains_bind (hkept.extendFrame h.1 h.2) fun _ w s' _ _ => hnothing w s'
  | evaluate tracing depth e f =>
    refine maintains_bind (hkept.evaluate tracing depth h.1 h.2) fun v w s' _ hv => ?_
    exact maintains_pure (List.forall_mem_singleton.mpr hv)
  | apply tracing depth function args =>
    refine maintains_bind (hkept.call tracing depth h.1 h.2) fun v w s' _ hv => ?_
    exact maintains_pure (List.forall_mem_singleton.mpr hv)

end Acts

namespace Store.Arises

variable {guests : Prop} {s : Store} {returned : List Value}

/-- What every act keeps holds of every store that arises. -/
theorem invariant (h : s.Arises guests returned) :
    s.WellFormed guests ∧ ∀ v ∈ returned, v.WellFormed guests s.frames.size := by
  induction h with
  | start => exact ⟨(wellFormed_empty guests).pushGlobal, by simp⟩
  | done _ hadmits hperform ih =>
    obtain ⟨_, hprecedes, ⟨rfl, hstore⟩, hends⟩ := Act.maintains_perform hadmits ⟨rfl, ih.1⟩
    rw [hperform] at hstore hprecedes hends
    refine ⟨hstore, fun v hv => ?_⟩
    rcases List.mem_append.mp hv with hnew | hold
    · exact hends v hnew
    · exact (ih.2 v hold).mono hprecedes.frames
  | failed _ hadmits hperform ih =>
    obtain ⟨_, hprecedes, ⟨rfl, hstore⟩, -⟩ := Act.maintains_perform hadmits ⟨rfl, ih.1⟩
    rw [hperform] at hstore hprecedes
    exact ⟨hstore, fun v hv => (ih.2 v hv).mono hprecedes.frames⟩

/-- Whatever has been done, parents come before their children, so that the way along the parents
ends; and the store, and what has been returned, is well-formed. -/
theorem wellFormed_of_arises (h : s.Arises guests returned) :
    s.WellFormed guests ∧ (∀ v ∈ returned, v.WellFormed guests s.frames.size) ∧
      (∀ f p : Nat, s.parent? f = some p → p < f) ∧ ∀ f, s.Walk f (s.chain f) := by
  obtain ⟨hstore, hreturned⟩ := h.invariant
  exact ⟨hstore, hreturned, hstore.parentsFirst, walk_chain hstore.parentsFirst⟩

/-- A function that was made in a child of the global frame and is bound in the global frame. -/
theorem wellFormed_lambda :
    ∃ s : Store, s.Arises False [.closure 27 ["x"] (.symbol "x") 1] ∧
      s.getIn? "f" 0 = some (.closure 27 ["x"] (.symbol "x") 1) ∧ s.WellFormed False ∧
      (∀ v ∈ [Value.closure 27 ["x"] (.symbol "x") 1], v.WellFormed False s.frames.size) ∧
      (∀ f p : Nat, s.parent? f = some p → p < f) ∧ ∀ f, s.Walk f (s.chain f) := by
  have hx : ∀ {guests : Prop}, (Value.symbol "x").WellFormed guests 2 := .symbol (by decide)
  have hparent : Act.Admits False (Store.pushGlobal {}) (.child 0) := Nat.zero_lt_one
  have hchild : Arises False ((Store.pushGlobal {}).push { parent := some 0 }) [] :=
    start.done hparent rfl
  have hlambda : Act.Admits False ((Store.pushGlobal {}).push { parent := some 0 })
      (.evaluate false 1 (.list [.symbol "lambda", .list [.symbol "x"], .symbol "x"]) 1) := by
    refine ⟨.list none ?_, Nat.one_lt_two⟩
    simp only [List.forall_mem_cons, List.not_mem_nil, false_implies, implies_true, and_true]
    exact ⟨.symbol (by decide), .list none (List.forall_mem_singleton.mpr hx), hx⟩
  have hmade : Arises False ((Store.pushGlobal {}).push { parent := some 0 }).takeIdentity
      [.closure 27 ["x"] (.symbol "x") 1] := hchild.done hlambda rfl
  have hdefine : Act.Admits False ((Store.pushGlobal {}).push { parent := some 0 }).takeIdentity
      (.define 0 (.symbol "f") (.closure 27 ["x"] (.symbol "x") 1)) := by
    refine ⟨Nat.zero_lt_two, .symbol (by decide), .closure 27 ?_ hx Nat.one_lt_two⟩
    exact List.forall_mem_singleton.mpr (by decide)
  have hbound := hmade.done hdefine rfl
  exact ⟨_, hbound, rfl, wellFormed_of_arises hbound⟩

end Store.Arises

section Sessions

variable {guests : Prop} {tracing : Bool} {session final : Session} {returned : List Value}

/-- What is read is well-formed in every store. -/
theorem Value.Readable.wellFormed {v : Value} (h : v.Readable) (count : Nat) :
    v.WellFormed guests count := by
  induction h with
  | symbol hname => exact .symbol hname.isAtom.1
  | integer _ => exact .integer _
  | boolean b => exact .boolean b
  | list identity _ ih => exact .list identity ih

/-- A session whose store has arisen, with the values that have been returned. -/
structure Session.Arises (guests : Prop) (session : Session) (returned : List Value) : Prop where
  store : session.store.Arises guests returned
  global : session.global < session.store.frames.size

namespace Session

theorem arises_empty : Session.empty.Arises guests [] :=
  ⟨.start, by decide⟩

/-- The evaluation of a form is an act. -/
theorem Arises.perform (h : session.Arises guests returned) {form : Value}
    (hform : form.WellFormed guests session.store.frames.size) {result : Except Failure Value}
    (hperform : session.perform (evaluateIn tracing form session.global) = (result, final)) :
    final.Arises guests (result.toOption.toList ++ returned) := by
  obtain ⟨houtcome, hglobal⟩ := outcome_of_perform hperform
  have hadmits : Act.Admits guests session.store
      (.evaluate tracing evaluationDepth form session.global) := ⟨hform, h.global⟩
  obtain ⟨hstore, -⟩ := h.store.invariant
  obtain ⟨_, hprecedes, ⟨rfl, -⟩, -⟩ :=
    (isKept_wellFormed guests).evaluate tracing evaluationDepth hform h.global ⟨rfl, hstore⟩
  rw [← evaluateIn, houtcome] at hprecedes
  refine ⟨?_, hglobal ▸ Nat.lt_of_lt_of_le h.global hprecedes.frames⟩
  cases result with
  | ok v => exact h.store.done hadmits (outcome_bind_ok houtcome)
  | error e => exact h.store.failed hadmits (outcome_bind_error houtcome)

theorem Yields.arises {forms vs : List Value} (hyields : Yields tracing forms session vs final)
    (hforms : ∀ form ∈ forms, form.Readable) (h : session.Arises guests returned) :
    ∃ returned', final.Arises guests returned' ∧ vs ⊆ returned' ∧ returned ⊆ returned' := by
  induction hyields generalizing returned with
  | nil session => exact ⟨returned, h, by simp, List.Subset.refl _⟩
  | cons hform _ ih =>
    obtain ⟨hreadable, hrest⟩ := List.forall_mem_cons.mp hforms
    obtain ⟨returned', hfinal, hvs, hsub⟩ := ih hrest (h.perform (hreadable.wellFormed _) hform)
    obtain ⟨hv, hold⟩ := List.cons_subset.mp hsub
    exact ⟨returned', hfinal, List.cons_subset.mpr ⟨hv, hvs⟩, hold⟩

/-- Whatever course the run of a text takes, the store that it leaves has arisen. -/
theorem Course.arises {source : Text} {run : Run Value}
    (hcourse : Course tracing source session run final) (h : session.Arises guests returned) :
    ∃ returned', final.Arises guests returned' ∧ run.results ⊆ returned' := by
  have hread : ∀ {forms}, parse source = .ok forms → ∀ form ∈ forms, form.Readable :=
    fun hparse form hform => (datum_of_parse hparse form hform).readable
  cases hcourse with
  | unread => exact ⟨returned, h, by simp⟩
  | complete hparse hyields =>
    obtain ⟨returned', hfinal, hvs, -⟩ := hyields.arises (hread hparse) h
    exact ⟨returned', hfinal, hvs⟩
  | stopped hparse hyields hfails =>
    obtain ⟨hbefore, hafter⟩ := List.forall_mem_append.mp (hread hparse)
    obtain ⟨returned', hreached, hvs, -⟩ := hyields.arises hbefore h
    have hform := hafter _ List.mem_cons_self
    exact ⟨returned', hreached.perform (hform.wellFormed _) hfails, hvs⟩

/-- Every session that starts with a prelude has arisen. -/
theorem exists_arises_start (guests : Prop) (tracing : Bool) (prelude : Option Text) :
    ∃ returned, (start tracing prelude).2.Arises guests returned := by
  cases prelude with
  | none => exact ⟨[], arises_empty⟩
  | some source =>
    obtain ⟨run, final, hcourse⟩ := exists_course tracing source empty
    obtain ⟨returned, hfinal, -⟩ := hcourse.arises arises_empty
    rw [start, hcourse.load]
    exact ⟨returned, hfinal⟩

end Session

end Sessions

end SmallLisp
