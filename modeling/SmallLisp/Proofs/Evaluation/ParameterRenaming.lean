import SmallLisp.Proofs.Correspondence.Later
/-!
Renaming a parameter.

Main statement: a function does the same when a parameter is renamed, together with all that the
name stands for in the function, to a name that does not occur there.  The frames of its calls, and
those of calls of the functions made in them, know the variable under its new name; all other frames
stay as they are.
-/

namespace SmallLisp

open Evaluation

/-- A lambda expression.  Its lists may have identities. -/
def Value.lambda (parameters : List Value) (body : Value) (inner outer : Option Nat) : Value :=
  .list [.symbol "lambda", .list parameters inner, body] outer

/-- A value that an expression makes in a frame, in some store. -/
def Value.MakesIn (e : Value) (f : FrameId) (v : Value) : Prop :=
  ∃ (tracing : Bool) (depth : Nat) (s : Store), ((evaluate tracing depth e f).outcome s).1 = .ok v

/-- What a call ends with. -/
def resultOfCall (tracing : Bool) (depth : Nat) (s : Store) (function : Value)
    (args : List Value) : Except Failure Value :=
  ((applyWith (Store.view depth) (evaluate tracing depth) tracing function args).outcome s).1

section Lambda

variable {parameters : List Value} {body : Value} {inner outer : Option Nat} {f : FrameId}

theorem evaluate_lambda (tracing : Bool) (depth : Nat) :
    evaluate tracing (depth + 1) (.lambda parameters body inner outer) f =
      trace (Store.view depth) tracing "Evaluating: "
          (.lambda parameters body inner outer) >>= fun _ =>
        SpecialForm.lambda.evaluateWith (Store.view depth) (evaluate tracing depth)
          [.list parameters inner, body] f :=
  rfl

/-- What a lambda expression makes is a function of the parameters that it names. -/
theorem exists_of_makesIn {c : Value}
    (h : (Value.lambda parameters body inner outer).MakesIn f c) :
    ∃ names identity, parameters = names.map .symbol ∧ c = .closure identity names body f := by
  obtain ⟨tracing, depth, s, h⟩ := h
  cases depth with
  | zero => cases h
  | succ depth =>
    rw [evaluate_lambda] at h
    cases htrace : (trace (Store.view depth) tracing "Evaluating: "
        (.lambda parameters body inner outer)).outcome s with
    | mk result t =>
      cases result with
      | error e =>
        rw [outcome_bind_error htrace] at h
        cases h
      | ok _ =>
        rw [outcome_bind_ok htrace, SpecialForm.evaluateWith] at h
        rcases parameters_cases parameters with ⟨names, rfl⟩ | ⟨names, v, rest, rfl, hv⟩
        · rw [outcome_bind_ok (outcome_parameterNames_symbols _ names t)] at h
          exact ⟨names, t.nextIdentity, rfl, (Except.ok.inj h).symm⟩
        · have hfails := outcome_parameterNames_other (Store.view depth) names hv rest t
          cases hshown : (failShowing (Store.view depth t) v .lambdaParameter :
              Except Failure (List Text)) with
          | ok a => exact absurd hshown (failShowing_ne_ok _ _ _ _)
          | error e =>
            rw [hshown] at hfails
            rw [outcome_bind_error hfails] at h
            cases h

theorem makesIn_lambda (names : List Text) (body : Value) (inner outer : Option Nat)
    (f : FrameId) :
    (Value.lambda (names.map .symbol) body inner outer).MakesIn f (.closure 0 names body f) :=
  ⟨false, 1, {}, congrArg Prod.fst
    (outcome_bind_ok (outcome_parameterNames_symbols (Store.view 0) names {}))⟩

end Lambda

/-- The correspondence of a renaming: every frame and every identity stands for itself. -/
def Correspondence.renaming (x : Text) : Correspondence where
  frame := id
  identity := id
  old := x
  frame_injective := Function.injective_id
  identity_injective := Function.injective_id

section Calls

variable {guests : Prop} {x y : Text} {s : Store} {f : FrameId} {body : Value} {args : List Value}

/-- A renamed lambda expression is the lambda expression of renamed parts. -/
theorem rename_lambda (x y : Text) (names : List Text) (body : Value) (inner outer : Option Nat) :
    (Value.lambda (names.map .symbol) body inner outer).rename x y =
      .lambda ((names.map (Text.renamed x y)).map .symbol) (body.rename x y) inner outer := by
  have hform : specialHead? (.symbol "lambda") = some .lambda := by decide
  rw [Value.lambda, Value.rename_special hform, SpecialForm.rename, Value.replace_list,
    List.map_map, List.map_map]
  rfl

/-- Calls of a closure and of a renamed one end alike. -/
theorem matches_resultOfCall (hs : s.WellFormed guests) (hf : f < s.frames.size)
    (hx : SpecialForm.ofName? x = none) (hy : SpecialForm.ofName? y = none) {names : List Text}
    (hparameter : x ∈ names) (hnames : y ∉ names) (hbody : ¬ body.Names y)
    (hwellFormed : body.WellFormed guests s.frames.size)
    (hargs : ∀ v ∈ args, v.WellFormed guests s.frames.size) (identity identity' : Nat)
    (tracing : Bool) (depth : Nat) :
    ∃ aliases, Matches ((Correspondence.renaming x).Stands aliases)
      (resultOfCall tracing depth s (.closure identity names body f) args)
      (resultOfCall tracing depth s
        (.closure identity' (names.map (Text.renamed x y)) (body.rename x y) f) args) := by
  let K := Correspondence.renaming x
  let aliases := List.replicate s.frames.size x
  have hrelates : K.Relates aliases s s :=
    Correspondence.relates_later hs (refl_of Store.Preserves s) hs.parentsFirst hx
      (fun _ _ => rfl) (fun _ => rfl) (fun _ _ _ _ _ _ _ => rfl) fun _ => rfl
  have hself : ∀ v : Value, v.WellFormed guests s.frames.size → K.value aliases v = v :=
    fun v hv => Correspondence.value_self (fun _ _ => rfl) (fun _ _ => rfl) hv
  have hknown : ∀ v : Value, v.WellFormed guests s.frames.size → K.Known aliases v :=
    fun v hv => Correspondence.known_of_wellFormed K hv
  -- The frame of the closure knows the variable as `x`; the frame of its call knows it as `y`.
  have hframe : aliases[f]? = some y ∨ (x ∈ names ∧ aliases[f]? = some x) :=
    .inr ⟨hparameter, List.getElem?_replicate_of_lt hf⟩
  have hmirrors : Evaluation.Mirrors K K.Stands
      (applyWith (Store.view depth) (evaluate tracing depth) tracing
        (.closure identity names body f) args) _ aliases s s :=
    mirrors_applyClosure (mirrors_evaluate tracing depth) identity identity' hy hframe
      (fun h => absurd h hnames) ⟨hknown body hwellFormed, fun h => absurd h hbody⟩
      fun v hv => hknown v (hargs v hv)
  obtain ⟨more, -, -, hmatches⟩ := hmirrors hrelates
  rw [Correspondence.code, hself body hwellFormed,
    List.map_congr_left fun v hv => hself v (hargs v hv), List.map_id'] at hmatches
  exact ⟨more, hmatches⟩

/-- A parameter can be renamed to a name that is not in the function: at every depth, a call of the
renamed function gives the same value if that has no function in it, and fails with an error of the
same kind if the call of the function does. -/
theorem resultOfCall_renameParameter {parameters : List Value} {inner outer : Option Nat}
    {c : Value} (hs : s.WellFormed guests) (hf : f < s.frames.size)
    (hx : SpecialForm.ofName? x = none) (hy : SpecialForm.ofName? y = none)
    (hparameter : .symbol x ∈ parameters)
    (hfresh : ¬ (Value.lambda parameters body inner outer).Names y)
    (hlambda : (Value.lambda parameters body inner outer).WellFormed guests s.frames.size)
    (hargs : ∀ v ∈ args, v.WellFormed guests s.frames.size)
    (hc : (Value.lambda parameters body inner outer).MakesIn f c) :
    (∃ c', ((Value.lambda parameters body inner outer).rename x y).MakesIn f c') ∧
      ∀ c', ((Value.lambda parameters body inner outer).rename x y).MakesIn f c' →
        ∀ (tracing : Bool) (depth : Nat),
          (∀ v, v.FunctionFree → resultOfCall tracing depth s c args = .ok v →
            resultOfCall tracing depth s c' args = .ok v) ∧
          ∀ e, resultOfCall tracing depth s c args = .error e →
            ∃ e', resultOfCall tracing depth s c' args = .error e' ∧ e.SameKind e' := by
  obtain ⟨names, identity, rfl, rfl⟩ := exists_of_makesIn hc
  rw [rename_lambda]
  refine ⟨⟨_, makesIn_lambda _ _ inner outer f⟩, fun c' hc' tracing depth => ?_⟩
  obtain ⟨names', identity', hnames', rfl⟩ := exists_of_makesIn hc'
  obtain rfl : names.map (Text.renamed x y) = names' :=
    List.map_injective_iff.mpr (fun _ _ => Value.symbol.inj) hnames'
  have hx' : x ∈ names := by simpa using hparameter
  have hnames : y ∉ names := fun h =>
    hfresh (.item (v := .list _ inner) (by simp) (.item (List.mem_map_of_mem h) .symbol))
  have hbody : ¬ body.Names y := fun h => hfresh (.item (by simp) h)
  have hwellFormed : body.WellFormed guests s.frames.size :=
    Value.wellFormed_list.mp hlambda body (by simp)
  obtain ⟨aliases, hmatches⟩ := matches_resultOfCall hs hf hx hy hx' hnames hbody hwellFormed hargs
    identity identity' tracing depth
  constructor
  · intro v hv hresult
    rw [hresult] at hmatches
    obtain ⟨_, hresult', -, rfl⟩ := hmatches.exists_ok
    rw [hresult', Correspondence.value_of_functionFree (fun _ => rfl) hv]
  · intro e hresult
    rw [hresult] at hmatches
    exact hmatches.exists_error

/-- `(lambda (x) (list x 'x))`, in which the name of the parameter is quoted too. -/
def pairWithName : Value :=
  .lambda [.symbol "x"] (.list [.symbol "list", .symbol "x", quoteDatum (.symbol "x")]) none none

/-- In a new store, the function gives `(3 x)` of three, and so does the one with `y` for `x`. -/
theorem resultOfCall_renameParameter_quotedName :
    (∃ c', (pairWithName.rename "x" "y").MakesIn 0 c') ∧
    ∀ c', (pairWithName.rename "x" "y").MakesIn 0 c' →
      resultOfCall false 4 (.pushGlobal {}) c' [.integer 3] =
        .ok (.list [.integer 3, .symbol "x"] (some 27)) := by
  have hfresh : ¬ pairWithName.Names "y" := by
    simp only [pairWithName, Value.lambda, quoteDatum, Value.names_list, Value.names_symbol,
      List.exists_mem_cons_iff, List.not_mem_nil, false_and, exists_false]
    decide
  have hsymbol : ∀ name : Text, name ≠ [] →
      (Value.symbol name).WellFormed False (Store.pushGlobal {}).frames.size :=
    fun name hname => .symbol hname
  have hlambda : pairWithName.WellFormed False (Store.pushGlobal {}).frames.size := by
    simp (disch := decide) [pairWithName, Value.lambda, quoteDatum, Value.wellFormed_list, hsymbol]
  have hargs : ∀ v ∈ [Value.integer 3], v.WellFormed False (Store.pushGlobal {}).frames.size :=
    List.forall_mem_singleton.mpr (.integer 3)
  obtain ⟨hexists, hcalls⟩ := resultOfCall_renameParameter (f := 0) (x := "x")
    (Store.wellFormed_empty False).pushGlobal (by decide +kernel) (by decide) (by decide)
    List.mem_cons_self hfresh hlambda hargs (makesIn_lambda ["x"] _ none none 0)
  refine ⟨hexists, fun c' hc' => (hcalls c' hc' false 4).1 _ (.list _ ?_) rfl⟩
  exact List.forall_mem_cons.mpr ⟨.integer 3, List.forall_mem_singleton.mpr (.symbol "x")⟩

end Calls

end SmallLisp
