import SmallLisp.Proofs.Correspondence.Later
/-!
Expressions that define nothing.

An expression without definitions changes no frame from before, whatever the functions do that it
calls, so what it makes there is in new frames alone.  Main statement: two such expressions can be
evaluated in either order, and each of them again, with the same values: the frames and identities
that they take are others, but nothing that is not a function tells them apart.  Identities are told
apart because all of them are taken from the supply, which is an invariant of evaluation.
-/

namespace SmallLisp

open Evaluation

namespace Frame

/-- A frame that grows by no name stays as it is. -/
theorem Grows.eq_of_nil {before after : Frame} (h : before.Grows [] after)
    (hnodup : (Table.keys before.bindings).Nodup) : after = before := by
  obtain ⟨added, hkeys, hadded, -⟩ := h.keys
  rw [List.subset_nil.mp hadded, List.append_nil] at hkeys
  have hbindings : after.bindings = before.bindings :=
    Table.eq_of_lookup hkeys hnodup fun name => h.get? name List.not_mem_nil
  have hparent := h.parent
  cases before
  cases after
  simp_all

end Frame

namespace Store

variable {guests : Prop} {s s' : Store} {f : FrameId}

/-- Nothing is written where no name is. -/
theorem Writes.preserves (h : s.Writes f [] s') (hs : s.WellFormed guests) : s.Preserves s' := by
  refine ⟨h.size_le, fun g hg => ?_⟩
  by_cases hgf : g = f
  · subst hgf
    have hframe := Array.getElem?_eq_getElem hg
    obtain ⟨frame', hframe', hgrows⟩ := h.own _ hframe
    rw [hframe', hframe, hgrows.eq_of_nil (hs g _ hframe).nodup]
  · exact h.others g hg hgf

end Store

section Shift

/-- What has come before stays, and what comes next is moved on. -/
def shifted (first offset n : Nat) : Nat :=
  if n < first then n else n + offset

theorem shifted_injective (first offset : Nat) : Function.Injective (shifted first offset) := by
  intro a b h
  simp only [shifted] at h
  split_ifs at h <;> omega

theorem shifted_of_lt {first n : Nat} (h : n < first) (offset : Nat) :
    shifted first offset n = n :=
  if_pos h

theorem shifted_add {first last : Nat} (h : first ≤ last) (k : Nat) :
    shifted first (last - first) (first + k) = last + k := by
  rw [shifted, if_neg (by omega)]
  omega

/-- The correspondence of a store to a later one, in which more frames and identities have been
taken.  No name is renamed. -/
def Correspondence.toLater (s t : Store) : Correspondence where
  frame := shifted s.frames.size (t.frames.size - s.frames.size)
  identity := shifted s.nextIdentity (t.nextIdentity - s.nextIdentity)
  old := []
  frame_injective := shifted_injective _ _
  identity_injective := shifted_injective _ _

end Shift

/-- An expression of a store, without definitions outside quoted data and the bodies of
functions. -/
structure Value.DefineFree (guests : Prop) (s : Store) (e : Value) : Prop where
  wellFormed : e.WellFormed guests s.frames.size
  numbered : e.Numbered s.nextIdentity
  defines : e.definedNames = []

/-- An expression has a value without functions, which is `v` but for the identities of lists. -/
def Value.Yields (tracing : Bool) (depth : Nat) (f : FrameId) (s : Store) (e v : Value) : Prop :=
  ∃ w, ((evaluate tracing depth e f).outcome s).1 = .ok w ∧ w.FunctionFree ∧ w.bare = v.bare

/-- The values of two expressions, one evaluated after the other. -/
def evaluateBoth (tracing : Bool) (depth : Nat) (e e' : Value) (f : FrameId) :
    Evaluation (Value × Value) := do
  let v ← evaluate tracing depth e f
  let v' ← evaluate tracing depth e' f
  return (v, v')

section Later

variable {guests : Prop} {s t : Store} {f : FrameId} {e : Value}

/-- An expression without definitions leaves a later store that is well-formed again. -/
theorem later_evaluate (hs : s.WellFormed guests) (hf : f < s.frames.size)
    (he : e.DefineFree guests s) (tracing : Bool) (depth : Nat) :
    s.Later ((evaluate tracing depth e f).outcome s).2 ∧
      ((evaluate tracing depth e f).outcome s).2.WellFormed guests := by
  obtain ⟨_, hprecedes, ⟨rfl, hwellFormed⟩, -⟩ :=
    (isKept_wellFormed guests).evaluate tracing depth he.wellFormed hf ⟨rfl, hs⟩
  have hwrites := keeps_evaluate tracing depth e f s
  rw [he.defines] at hwrites
  exact ⟨⟨hwrites.preserves hs, hprecedes.identity⟩, hwellFormed⟩

/-- An expression does in a later store what it does in a store that knows it. -/
theorem matches_evaluate_later (hs : s.WellFormed guests) (hnumbered : s.Numbered)
    (hf : f < s.frames.size) (he : e.DefineFree guests s) (hlater : s.Later t)
    (ht : t.ParentsFirst) (tracing : Bool) (depth : Nat) :
    ∃ aliases, Matches ((Correspondence.toLater s t).Stands aliases)
      ((evaluate tracing depth e f).outcome s).1 ((evaluate tracing depth e f).outcome t).1 := by
  let K := Correspondence.toLater s t
  let aliases := List.replicate s.frames.size K.old
  have hframe : ∀ g < s.frames.size, K.frame g = g := fun g hg => shifted_of_lt hg _
  have hidentity : ∀ i < s.nextIdentity, K.identity i = i := fun i hi => shifted_of_lt hi _
  have hrelates : K.Relates aliases s t :=
    Correspondence.relates_later hs hlater.toPreserves ht rfl hframe (shifted_add hlater.size_le)
      (fun g frame hg entry hentry i hi => hidentity i (hnumbered g frame hg entry hentry i hi))
      (shifted_add hlater.nextIdentity_le)
  have hself : K.value aliases e = e :=
    Correspondence.value_self hframe (fun i hi => hidentity i (he.numbered i hi)) he.wellFormed
  have hcode : K.code aliases K.old e = e := by
    rw [Correspondence.code, Value.rename_self, hself]
  have hmirrors : Mirrors K K.Stands (evaluate tracing depth e f)
      (evaluate tracing depth (K.code aliases K.old e) (K.frame f)) aliases s t :=
    mirrors_evaluate tracing depth (List.getElem?_replicate_of_lt hf)
      ⟨Correspondence.known_of_wellFormed K he.wellFormed, fun _ => rfl⟩
  rw [hcode, hframe f hf] at hmirrors
  obtain ⟨more, -, -, hmatches⟩ := hmirrors hrelates
  exact ⟨more, hmatches⟩

/-- What an expression yields it yields in a later store too, and nothing else. -/
theorem yields_later_iff (hs : s.WellFormed guests) (hnumbered : s.Numbered)
    (hf : f < s.frames.size) (he : e.DefineFree guests s) (hlater : s.Later t)
    (ht : t.ParentsFirst) (tracing : Bool) (depth : Nat) (v : Value) :
    e.Yields tracing depth f t v ↔ e.Yields tracing depth f s v := by
  obtain ⟨aliases, hmatches⟩ :=
    matches_evaluate_later hs hnumbered hf he hlater ht tracing depth
  constructor
  · rintro ⟨w, hw, hfree, hbare⟩
    rw [hw] at hmatches
    obtain ⟨u, hu, -, rfl⟩ := hmatches.exists_of_ok
    have hfree' := Correspondence.functionFree_of_value hfree
    exact ⟨u, hu, hfree', (Correspondence.bare_value hfree').symm.trans hbare⟩
  · rintro ⟨w, hw, hfree, hbare⟩
    rw [hw] at hmatches
    obtain ⟨_, hu, -, rfl⟩ := hmatches.exists_ok
    exact ⟨_, hu, Correspondence.functionFree_value hfree,
      (Correspondence.bare_value hfree).trans hbare⟩

end Later

section Both

variable {guests : Prop} {s : Store} {f : FrameId} {e e' v v' : Value} {tracing : Bool}
  {depth : Nat}

/-- Two expressions without definitions change no frame from before, wherever they fail. -/
theorem preserves_evaluateBoth (hs : s.WellFormed guests) (he : e.definedNames = [])
    (he' : e'.definedNames = []) (tracing : Bool) (depth : Nat) (f : FrameId) :
    s.Preserves ((evaluateBoth tracing depth e e' f).outcome s).2 := by
  have hkeeps : ∀ e : Value, e.definedNames = [] →
      Keeps (Store.Writes f []) (evaluate tracing depth e f) :=
    fun e he => he ▸ keeps_evaluate tracing depth e f
  have hboth : Keeps (Store.Writes f []) (evaluateBoth tracing depth e e' f) :=
    keeps_bind (hkeeps e he) fun v => keeps_bind (hkeeps e' he') fun v' => keeps_pure (v, v')
  exact (hboth s).preserves hs

/-- Two expressions have values one after the other if and only if the second one has its value
where the first one has been evaluated. -/
theorem evaluateBoth_ok_iff :
    ((evaluateBoth tracing depth e e' f).outcome s).1 = .ok (v, v') ↔
      ((evaluate tracing depth e f).outcome s).1 = .ok v ∧
      ((evaluate tracing depth e' f).outcome ((evaluate tracing depth e f).outcome s).2).1 =
        .ok v' := by
  rw [evaluateBoth, outcome_bind]
  cases hfirst : (evaluate tracing depth e f).outcome s with
  | mk result t =>
    cases result with
    | error e => simp
    | ok w =>
      simp only [Except.ok.injEq]
      rw [outcome_bind]
      cases hsecond : (evaluate tracing depth e' f).outcome t with
      | mk result' t' =>
        cases result' with
        | error e => simp
        | ok w' => simp [outcome, pure, EStateM.pure]

/-- Two expressions without definitions yield one after the other what each of them yields. -/
theorem evaluateBoth_yields (hs : s.WellFormed guests) (hnumbered : s.Numbered)
    (hf : f < s.frames.size) (he : e.DefineFree guests s) (he' : e'.DefineFree guests s)
    (hv : e.Yields tracing depth f s v) (hv' : e'.Yields tracing depth f s v') :
    ∃ w w', ((evaluateBoth tracing depth e e' f).outcome s).1 = .ok (w, w') ∧
      w.bare = v.bare ∧ w'.bare = v'.bare := by
  obtain ⟨hlater, ht⟩ := later_evaluate hs hf he tracing depth
  obtain ⟨w, hw, -, hbare⟩ := hv
  obtain ⟨w', hw', -, hbare'⟩ :=
    (yields_later_iff hs hnumbered hf he' hlater ht.parentsFirst tracing depth v').mpr hv'
  exact ⟨w, w', evaluateBoth_ok_iff.mpr ⟨hw, hw'⟩, hbare, hbare'⟩

/-- Expressions without definitions commute: no frame from before changes in any case, and if the
values of two of them are without functions, then the expressions in the other order, and each of
them twice, have the same values, but for the identities of lists. -/
theorem evaluateBoth_commutes {e₁ e₂ : Value} (hs : s.WellFormed guests) (hnumbered : s.Numbered)
    (hf : f < s.frames.size) (he₁ : e₁.DefineFree guests s) (he₂ : e₂.DefineFree guests s)
    (tracing : Bool) (depth : Nat) :
    (∀ a ∈ [e₁, e₂], ∀ b ∈ [e₁, e₂],
      s.Preserves ((evaluateBoth tracing depth a b f).outcome s).2) ∧
    ∀ v₁ v₂ : Value, v₁.FunctionFree → v₂.FunctionFree →
      ((evaluateBoth tracing depth e₁ e₂ f).outcome s).1 = .ok (v₁, v₂) →
        (∃ w₂ w₁, ((evaluateBoth tracing depth e₂ e₁ f).outcome s).1 = .ok (w₂, w₁) ∧
          w₂.bare = v₂.bare ∧ w₁.bare = v₁.bare) ∧
        (∃ w w', ((evaluateBoth tracing depth e₁ e₁ f).outcome s).1 = .ok (w, w') ∧
          w.bare = v₁.bare ∧ w'.bare = v₁.bare) ∧
        ∃ w w', ((evaluateBoth tracing depth e₂ e₂ f).outcome s).1 = .ok (w, w') ∧
          w.bare = v₂.bare ∧ w'.bare = v₂.bare := by
  have hdefines : ∀ a ∈ [e₁, e₂], a.definedNames = [] :=
    List.forall_mem_cons.mpr ⟨he₁.defines, List.forall_mem_singleton.mpr he₂.defines⟩
  have hpreserves : ∀ a ∈ [e₁, e₂], ∀ b ∈ [e₁, e₂],
      s.Preserves ((evaluateBoth tracing depth a b f).outcome s).2 := fun a ha b hb =>
    preserves_evaluateBoth hs (hdefines a ha) (hdefines b hb) tracing depth f
  refine ⟨hpreserves, fun v₁ v₂ hfree₁ hfree₂ hboth => ?_⟩
  obtain ⟨hfirst, hsecond⟩ := evaluateBoth_ok_iff.mp hboth
  obtain ⟨hlater, ht⟩ := later_evaluate hs hf he₁ tracing depth
  have hyields₁ : e₁.Yields tracing depth f s v₁ := ⟨v₁, hfirst, hfree₁, rfl⟩
  have hyields₂ : e₂.Yields tracing depth f s v₂ :=
    (yields_later_iff hs hnumbered hf he₂ hlater ht.parentsFirst tracing depth v₂).mp
      ⟨v₂, hsecond, hfree₂, rfl⟩
  exact ⟨evaluateBoth_yields hs hnumbered hf he₂ he₁ hyields₂ hyields₁,
    evaluateBoth_yields hs hnumbered hf he₁ he₁ hyields₁ hyields₁,
    evaluateBoth_yields hs hnumbered hf he₂ he₂ hyields₂ hyields₂⟩

/-- `(list 1 2)`, whose value takes an identity. -/
def listCall : Value :=
  .list [.symbol "list", .integer 1, .integer 2]

/-- `((lambda (x) (if (define y x) y x)) 5)`, which makes a definition in the frame of its call. -/
def definingCall : Value :=
  .list [.list [.symbol "lambda", .list [.symbol "x"], .list [.symbol "if",
    .list [.symbol "define", .symbol "y", .symbol "x"], .symbol "y", .symbol "x"]], .integer 5]

/-- In a new store, both calls can be evaluated in either order. -/
theorem evaluateBoth_commutes_localDefinition :
    (∃ w₂ w₁, ((evaluateBoth false 6 definingCall listCall 0).outcome (.pushGlobal {})).1 =
      .ok (w₂, w₁) ∧ w₂.bare = .integer 5 ∧ w₁.bare = .list [.integer 1, .integer 2]) ∧
    Store.Preserves (.pushGlobal {})
      ((evaluateBoth false 6 definingCall listCall 0).outcome (.pushGlobal {})).2 := by
  have hsymbol : ∀ name : Text, name ≠ [] →
      (Value.symbol name).WellFormed False (Store.pushGlobal {}).frames.size :=
    fun name hname => .symbol hname
  have hlist : listCall.DefineFree False (.pushGlobal {}) :=
    { wellFormed := by
        simp (disch := decide) [listCall, Value.wellFormed_list, hsymbol, Value.WellFormed.integer]
      numbered := by
        simp [listCall, Value.numbered_list, Value.numbered_symbol, Value.numbered_integer]
      defines := by
        have hhead : specialHead? (.symbol "list") = none := by decide
        simp [listCall, Value.definedNames, Value.definedNamesIn, hhead] }
  have hdefining : definingCall.DefineFree False (.pushGlobal {}) :=
    { wellFormed := by
        simp (disch := decide) [definingCall, Value.wellFormed_list, hsymbol,
          Value.WellFormed.integer]
      numbered := by
        simp [definingCall, Value.numbered_list, Value.numbered_symbol, Value.numbered_integer]
      defines := by
        have hhead : specialHead? (.symbol "lambda") = some .lambda := by decide
        have hcall : ∀ items, specialHead? (.list items) = none := fun _ => rfl
        simp [definingCall, Value.definedNames, Value.definedNamesIn, SpecialForm.definedNames,
          hhead, hcall] }
  obtain ⟨hpreserves, hvalues⟩ := evaluateBoth_commutes (Store.wellFormed_empty False).pushGlobal
    Store.numbered_empty.pushGlobal (f := 0) (by decide +kernel) hlist hdefining false 6
  have hfree : (Value.list [.integer 1, .integer 2] (some 27)).FunctionFree :=
    .list _ (List.forall_mem_cons.mpr ⟨.integer 1, List.forall_mem_singleton.mpr (.integer 2)⟩)
  obtain ⟨⟨w₂, w₁, hboth, hbare₂, hbare₁⟩, -⟩ := hvalues _ _ hfree (.integer 5) rfl
  refine ⟨⟨w₂, w₁, hboth, ?_, ?_⟩, hpreserves _ (by simp) _ (by simp)⟩
  · rw [hbare₂]
    simp [Value.bare]
  · rw [hbare₁]
    simp [Value.bare]

end Both

end SmallLisp
