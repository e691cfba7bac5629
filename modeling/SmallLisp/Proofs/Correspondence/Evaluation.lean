import SmallLisp.Proofs.Correspondence.Result
import SmallLisp.Proofs.Correspondence.Store
/-!
Evaluations that correspond to each other.

Main statement: evaluating what stands for an expression in what stands for a store and a frame
gives what stands for its value, or fails with an error of the same kind or at the same limit, and
the stores correspond again.  The frames that are made in between take the aliases of their
closures.
-/

namespace SmallLisp

namespace Correspondence

/-- A known value and the one that stands for it. -/
def Stands (K : Correspondence) (aliases : List Text) (v v' : Value) : Prop :=
  K.Known aliases v ∧ v' = K.value aliases v

theorem Stands.mono {K : Correspondence} {aliases more : List Text} (hmore : aliases <+: more)
    {v v' : Value} (h : K.Stands aliases v v') : K.Stands more v v' :=
  ⟨h.1.mono hmore, h.2.trans (h.1.value_eq hmore).symm⟩

/-- An expression that can be evaluated where the variable goes by the alias `y`. -/
structure KnownAs (K : Correspondence) (aliases : List Text) (y : Text) (e : Value) : Prop where
  known : K.Known aliases e
  names : e.Names y → y = K.old

theorem KnownAs.mono {K : Correspondence} {aliases more : List Text} {y : Text} {e : Value}
    (h : K.KnownAs aliases y e) (hmore : aliases <+: more) : K.KnownAs more y e :=
  ⟨h.known.mono hmore, h.names⟩

theorem KnownAs.items {K : Correspondence} {aliases : List Text} {y : Text} {items : List Value}
    {identity : Option Nat} (h : K.KnownAs aliases y (.list items identity)) :
    ∀ e ∈ items, K.KnownAs aliases y e :=
  fun e he => ⟨known_list.mp h.known e he, fun hname => h.names (.item he hname)⟩

/-- What stands for expressions stands for them when there are more frames. -/
theorem map_code_eq {K : Correspondence} {aliases more : List Text} (hmore : aliases <+: more)
    {y : Text} {es : List Value} (hes : ∀ e ∈ es, K.KnownAs aliases y e) :
    es.map (K.code aliases y) = es.map (K.code more y) :=
  List.map_congr_left fun e he => ((hes e he).known.code_eq hmore y).symm

/-- An expression that is neither a symbol nor a list is its own value. -/
theorem stands_code {K : Correspondence} {aliases : List Text} {e : Value}
    (he : K.Known aliases e) (hsymbol : ∀ name, e ≠ .symbol name)
    (hlist : ∀ items identity, e ≠ .list items identity) (y : Text) :
    K.Stands aliases e (K.code aliases y e) := by
  refine ⟨he, ?_⟩
  cases e <;> simp_all [code, value, Value.rename]

end Correspondence

namespace Evaluation

/-- Two computations that, from stores that correspond, lead to stores that correspond, with more
frames perhaps, and to results that are related or fail alike. -/
def Mirrors {α α' : Type} (K : Correspondence) (P : List Text → α → α' → Prop) (x : Evaluation α)
    (x' : Evaluation α') (aliases : List Text) (s s' : Store) : Prop :=
  K.Relates aliases s s' → ∃ more, aliases <+: more ∧
    K.Relates more (x.outcome s).2 (x'.outcome s').2 ∧
    Matches (P more) (x.outcome s).1 (x'.outcome s').1

variable {α α' β β' : Type} {K : Correspondence} {P : List Text → α → α' → Prop}
  {Q : List Text → β → β' → Prop} {aliases : List Text} {s s' : Store}

theorem mirrors_pure {a : α} {a' : α'} (h : P aliases a a') :
    Mirrors K P (pure a) (pure a') aliases s s' :=
  fun hs => ⟨aliases, List.prefix_rfl, hs, .ok h⟩

theorem mirrors_throw {e e' : Failure} (h : e.SameKind e') :
    Mirrors K P (throw e) (throw e') aliases s s' :=
  fun hs => ⟨aliases, List.prefix_rfl, hs, .error h⟩

theorem mirrors_fail {fault fault' : Fault} (h : fault.kind = fault'.kind) :
    Mirrors K P (fail fault) (fail fault') aliases s s' :=
  mirrors_throw (.fault h)

theorem mirrors_observe {look : Store → Except Failure α} {look' : Store → Except Failure α'}
    (h : K.Relates aliases s s' → Matches (P aliases) (look s) (look' s')) :
    Mirrors K P (observe look) (observe look') aliases s s' := by
  intro hs
  rw [outcome_observe, outcome_observe]
  exact ⟨aliases, List.prefix_rfl, hs, h hs⟩

theorem mirrors_modify {change change' : Store → Store} {P : List Text → PUnit → PUnit → Prop}
    (h : K.Relates aliases s s' → K.Relates aliases (change s) (change' s'))
    (hP : P aliases PUnit.unit PUnit.unit) :
    Mirrors K P (modify change) (modify change') aliases s s' :=
  fun hs => ⟨aliases, List.prefix_rfl, h hs, .ok hP⟩

/-- Computations after others, from the stores that the others leave. -/
theorem mirrors_bind {x : Evaluation α} {x' : Evaluation α'} {next : α → Evaluation β}
    {next' : α' → Evaluation β'} (hx : Mirrors K P x x' aliases s s')
    (hnext : ∀ a a' more t t', aliases <+: more → P more a a' →
      Mirrors K Q (next a) (next' a') more t t') :
    Mirrors K Q (x >>= next) (x' >>= next') aliases s s' := by
  intro hs
  obtain ⟨more, hmore, hrelates, hmatches⟩ := hx hs
  rw [outcome_bind, outcome_bind]
  cases hout : x.outcome s with
  | mk result t =>
    cases hout' : x'.outcome s' with
    | mk result' t' =>
      rw [hout, hout'] at hrelates hmatches
      cases hmatches with
      | error hkind => exact ⟨more, hmore, hrelates, .error hkind⟩
      | ok hP =>
        obtain ⟨most, hmost, hrelates', hmatches'⟩ := hnext _ _ more t t' hmore hP hrelates
        exact ⟨most, hmore.trans hmost, hrelates', hmatches'⟩

theorem mirrors_failOn (depth : Nat) {v v' : Value} {fault fault' : Text → Fault}
    (h : v.displayStop depth = v'.displayStop depth)
    (hkind : ∀ shown shown', (fault shown).kind = (fault' shown').kind) :
    Mirrors K P (failOn (Store.view depth) v fault) (failOn (Store.view depth) v' fault') aliases
      s s' := by
  refine mirrors_observe fun _ => matches_failShowing ?_ hkind
  exact (Value.failureOf?_displayWithin s depth v).trans
    (h.trans (Value.failureOf?_displayWithin s' depth v').symm)

theorem mirrors_trace (depth : Nat) (tracing : Bool) (label : Text) {v v' : Value}
    (h : K.Relates aliases s s' →
      failureOf? (v.detailedWithin s depth) = failureOf? (v'.detailedWithin s' depth)) :
    Mirrors K (fun _ _ _ => True) (trace (Store.view depth) tracing label v)
      (trace (Store.view depth) tracing label v') aliases s s' := by
  cases tracing with
  | false => exact mirrors_pure trivial
  | true =>
    have htext : Mirrors K (fun _ _ _ => True) (observe fun s => (s.view depth).detailed v)
        (observe fun s => (s.view depth).detailed v') aliases s s' :=
      mirrors_observe fun hs => matches_of_failureOf? (h hs)
    refine mirrors_bind htext fun text text' more t t' _ _ => ?_
    exact mirrors_modify (fun ht => ht.record _ _) trivial

/-- A renamed list of parameters has the renamed names, if it is one of symbols. -/
theorem mirrors_parameterNames (depth : Nat) (y : Text) (parameters : List Value) :
    Mirrors K (fun _ names names' =>
        parameters = names.map .symbol ∧ names' = names.map (Text.renamed K.old y))
      (parameterNames (Store.view depth) parameters)
      (parameterNames (Store.view depth)
        ((parameters.map (K.value aliases)).map (Value.replace K.old y))) aliases s s' := by
  intro hs
  have hsymbols : ∀ names : List Text,
      ((names.map Value.symbol).map (K.value aliases)).map (Value.replace K.old y) =
        (names.map (Text.renamed K.old y)).map Value.symbol := by
    intro names
    simp [Correspondence.value_symbol, Value.replace]
  rcases parameters_cases parameters with ⟨names, rfl⟩ | ⟨names, v, rest, rfl, hv⟩
  · rw [hsymbols, outcome_parameterNames_symbols, outcome_parameterNames_symbols]
    exact ⟨aliases, List.prefix_rfl, hs, .ok ⟨rfl, rfl⟩⟩
  · have hv' : ∀ name, (K.value aliases v).replace K.old y ≠ .symbol name :=
      Value.replace_ne_symbol (Correspondence.value_ne_symbol hv)
    rw [List.map_append, List.map_append, hsymbols, List.map_cons, List.map_cons,
      outcome_parameterNames_other _ _ hv, outcome_parameterNames_other _ _ hv']
    refine ⟨aliases, List.prefix_rfl, hs, matches_failShowing ?_ fun _ _ => rfl⟩
    rw [Store.view, Store.view, Value.failureOf?_displayWithin, Value.failureOf?_displayWithin,
      Value.displayStop, Value.stop_replace]
    exact (Correspondence.displayStop_value depth v).symm

theorem mirrors_identify {v v' : Value} (h : K.Stands aliases v v') :
    Mirrors K K.Stands (identify v) (identify v') aliases s s' := by
  intro hs
  obtain ⟨hknown, rfl⟩ := h
  rw [outcome_identify, outcome_identify, ← hs.nextIdentity, Correspondence.identified_value]
  exact ⟨aliases, List.prefix_rfl, hs.takeIdentity,
    .ok ⟨Value.identified_of_list (fun _ h => Correspondence.known_list.mpr
      (Correspondence.known_list.mp h)) hknown, rfl⟩⟩

section Rules

variable {depth : Nat} {eval : Value → FrameId → Evaluation Value} {tracing : Bool}
  (heval : ∀ {aliases : List Text} {s s' : Store} {e : Value} {f : FrameId} {y : Text},
    aliases[f]? = some y → K.KnownAs aliases y e →
      Mirrors K K.Stands (eval e f) (eval (K.code aliases y e) (K.frame f)) aliases s s')

include heval

/-- Evaluation after frames have been added. -/
theorem mirrors_eval_later {more : List Text} (hmore : aliases <+: more) {e : Value} {f : FrameId}
    {y : Text} (hf : aliases[f]? = some y) (he : K.KnownAs aliases y e) :
    Mirrors K K.Stands (eval e f) (eval (K.code aliases y e) (K.frame f)) more s s' := by
  rw [← he.known.code_eq hmore]
  exact heval (Correspondence.getElem?_of_isPrefix hmore hf) (he.mono hmore)

/-- The call of a closure and of a renamed one.  The frame of the call goes by the new name. -/
theorem mirrors_applyClosure (identity identity' : Nat) {formals : List Text} {body : Value}
    {f : FrameId} {y : Text} {args : List Value} (hy : SpecialForm.ofName? y = none)
    (hf : aliases[f]? = some y ∨ (K.old ∈ formals ∧ aliases[f]? = some K.old))
    (hformals : y ∈ formals → y = K.old) (hbody : K.KnownAs aliases y body)
    (hargs : ∀ v ∈ args, K.Known aliases v) :
    Mirrors K K.Stands
      (applyWith (Store.view depth) eval tracing (.closure identity formals body f) args)
      (applyWith (Store.view depth) eval tracing
        (.closure identity' (formals.map (Text.renamed K.old y)) (K.code aliases y body)
          (K.frame f)) (args.map (K.value aliases))) aliases s s' := by
  have hframe : Mirrors K (fun more g g' => more[g]? = some y ∧ g' = K.frame g)
      (extendFrame identity formals body f args)
      (extendFrame identity' (formals.map (Text.renamed K.old y)) (K.code aliases y body)
        (K.frame f) (args.map (K.value aliases))) aliases s s' := by
    intro hs
    rw [outcome_extendFrame, outcome_extendFrame, List.length_map, List.length_map]
    split
    · rename_i hcount
      obtain ⟨hknown, himage⟩ :=
        Correspondence.knownFrame_calleeFrame hf hformals hargs hcount
      refine ⟨aliases ++ [y], List.prefix_append _ _, himage ▸ hs.push hy hknown, .ok ⟨?_, ?_⟩⟩
      · rw [Store.nextFrame, hs.size, List.getElem?_concat_length]
      · exact hs.nextFrame.symm
    · exact ⟨aliases, List.prefix_rfl, hs, .error (.fault rfl)⟩
  refine mirrors_bind hframe fun g g' more t t' hmore hg => ?_
  obtain ⟨hg, rfl⟩ := hg
  obtain ⟨y', hf'⟩ : ∃ y', more[f]? = some y' :=
    hf.elim (fun h => ⟨_, Correspondence.getElem?_of_isPrefix hmore h⟩)
      fun h => ⟨_, Correspondence.getElem?_of_isPrefix hmore h.2⟩
  rw [← hbody.known.code_eq hmore]
  have htrace := mirrors_trace depth tracing "Applying: " fun ht : K.Relates more t t' =>
    ht.detailedStop_closure depth hf' identity identity' formals
      (formals.map (Text.renamed K.old y)) body y
  refine mirrors_bind htrace fun _ _ more' u u' hmore' _ => ?_
  exact mirrors_eval_later heval hmore' hg (hbody.mono hmore)

/-- The call of a value and of what stands for it. -/
theorem mirrors_applyWith {function : Value} {args : List Value}
    (hfunction : K.Known aliases function) (hargs : ∀ v ∈ args, K.Known aliases v) :
    Mirrors K K.Stands (applyWith (Store.view depth) eval tracing function args)
      (applyWith (Store.view depth) eval tracing (K.value aliases function)
        (args.map (K.value aliases))) aliases s s' := by
  have hfail : Mirrors K K.Stands (failOn (Store.view depth) function .notAFunction)
      (failOn (Store.view depth) (K.value aliases function) .notAFunction) aliases s s' :=
    mirrors_failOn depth (Correspondence.displayStop_value depth function).symm fun _ _ => rfl
  cases hfunction with
  | closure identity hf hformals hnames hbody =>
    intro hs
    have hy := hs.plain _ (List.mem_of_getElem? hf)
    rw [Correspondence.value_closure _ _ _ hf]
    exact mirrors_applyClosure heval identity _ hy (.inl hf) hformals ⟨hbody, hnames⟩ hargs hs
  | primitive identity p =>
    rw [Correspondence.value_primitive]
    have hcall : Mirrors K K.Stands (observe fun s => p.applyWith (s.view depth) args)
        (observe fun s => p.applyWith (s.view depth) (args.map (K.value aliases))) aliases
        s s' := by
      refine mirrors_observe fun _ => ?_
      have hknown := Primitive.ends_applyWith (Correspondence.hereditary_known K aliases) p hargs
        (View.failsWithin_true args (s.view depth)) fun _ _ => trivial
      exact (Primitive.matches_applyWith (K.view_corresponds aliases depth s s') p args).and_ends
        hknown
    exact mirrors_bind hcall fun v v' more t t' _ hv => mirrors_identify hv
  | _ => simpa only [Correspondence.value, applyWith] using hfail

section Expressions

variable {f : FrameId} {y : Text} (hf : aliases[f]? = some y)

include hf

/-- The values of expressions. -/
theorem mirrors_evaluateArguments {es : List Value} (hes : ∀ e ∈ es, K.KnownAs aliases y e) :
    Mirrors K (fun more vs vs' => (∀ v ∈ vs, K.Known more v) ∧ vs' = vs.map (K.value more))
      (evaluateArguments eval f es)
      (evaluateArguments eval (K.frame f) (es.map (K.code aliases y))) aliases s s' := by
  induction es generalizing aliases s s' with
  | nil => exact mirrors_pure ⟨by simp, rfl⟩
  | cons e rest ih =>
    obtain ⟨he, hrest⟩ := List.forall_mem_cons.mp hes
    refine mirrors_bind (heval hf he) fun v v' more t t' hmore hv => ?_
    rw [Correspondence.map_code_eq hmore hrest]
    refine mirrors_bind (ih (Correspondence.getElem?_of_isPrefix hmore hf)
      fun e he => (hrest e he).mono hmore) fun vs vs' most u u' hmost hvs => ?_
    obtain ⟨hfirst, rfl⟩ := hv.mono hmost
    obtain ⟨hothers, rfl⟩ := hvs
    exact mirrors_pure ⟨List.forall_mem_cons.mpr ⟨hfirst, hothers⟩, rfl⟩

theorem mirrors_evaluateCall {head : Value} (hhead : K.KnownAs aliases y head)
    {parts : List Value} (hparts : ∀ e ∈ parts, K.KnownAs aliases y e) :
    Mirrors K K.Stands (evaluateCall (Store.view depth) eval tracing head parts f)
      (evaluateCall (Store.view depth) eval tracing (K.code aliases y head)
        (parts.map (K.code aliases y)) (K.frame f)) aliases s s' := by
  refine mirrors_bind (heval hf hhead) fun function _ more t t' hmore hfunction => ?_
  obtain ⟨hknown, rfl⟩ := hfunction
  rw [Correspondence.isFunction_value]
  split
  · rw [Correspondence.map_code_eq hmore hparts]
    refine mirrors_bind (mirrors_evaluateArguments heval
      (Correspondence.getElem?_of_isPrefix hmore hf)
      fun e he => (hparts e he).mono hmore) fun vs _ most u u' hmost hvs => ?_
    obtain ⟨hargs, rfl⟩ := hvs
    rw [← hknown.value_eq hmost]
    exact mirrors_applyWith heval (hknown.mono hmost) hargs
  · exact mirrors_failOn depth (Correspondence.displayStop_value depth function).symm fun _ _ => rfl

/-- A definition binds the new name in the frame that stands for the old one. -/
theorem mirrors_define {name : Text} {e : Value} (hname : name = y → y = K.old)
    (he : K.KnownAs aliases y e) (rest : List Value) :
    Mirrors K K.Stands
      (SpecialForm.define.evaluateWith (Store.view depth) eval (.symbol name :: e :: rest) f)
      (SpecialForm.define.evaluateWith (Store.view depth) eval
        (.symbol (Text.renamed K.old y name) :: K.code aliases y e ::
          rest.map (K.code aliases y)) (K.frame f)) aliases s s' := by
  refine mirrors_bind (heval hf he) fun v v' more t t' hmore hv => ?_
  have hdefine : Mirrors K (fun most _ _ => K.Stands most v v') (modify (·.define f name v))
      (modify (·.define (K.frame f) (Text.renamed K.old y name) v')) more t t' := by
    refine mirrors_modify (fun ht => ?_) hv
    obtain ⟨hknown, rfl⟩ := hv
    exact ht.define (Correspondence.getElem?_of_isPrefix hmore hf) hname hknown
  exact mirrors_bind hdefine fun _ _ most u u' _ hv => mirrors_pure hv

theorem mirrors_conditional {test consequent alternate : Value}
    (htest : K.KnownAs aliases y test) (hconsequent : K.KnownAs aliases y consequent)
    (halternate : K.KnownAs aliases y alternate) :
    Mirrors K K.Stands
      (SpecialForm.conditional.evaluateWith (Store.view depth) eval [test, consequent, alternate] f)
      (SpecialForm.conditional.evaluateWith (Store.view depth) eval
        ([test, consequent, alternate].map (K.code aliases y)) (K.frame f)) aliases s s' := by
  refine mirrors_bind (heval hf htest) fun t t' more u u' hmore ht => ?_
  obtain ⟨-, rfl⟩ := ht
  rw [Correspondence.isTrue_value]
  split
  · exact mirrors_eval_later heval hmore hf hconsequent
  · exact mirrors_eval_later heval hmore hf halternate

omit heval in
/-- The closures that stand for each other take identities that do. -/
theorem mirrors_lambda {parameters : List Value} {body : Value}
    (hparameters : ∀ v ∈ parameters, v.Names y → y = K.old) (hbody : K.KnownAs aliases y body)
    (identity identity' : Option Nat) :
    Mirrors K K.Stands
      (SpecialForm.lambda.evaluateWith (Store.view depth) eval
        [.list parameters identity, body] f)
      (SpecialForm.lambda.evaluateWith (Store.view depth) eval
        [.list ((parameters.map (K.value aliases)).map (Value.replace K.old y)) identity',
          K.code aliases y body] (K.frame f)) aliases s s' := by
  refine mirrors_bind (mirrors_parameterNames depth y parameters)
    fun formals formals' more t t' hmore hformals => ?_
  obtain ⟨rfl, rfl⟩ := hformals
  intro ht
  have hf' := Correspondence.getElem?_of_isPrefix hmore hf
  have hnew : y ∈ formals → y = K.old := fun hmem =>
    hparameters _ (List.mem_map_of_mem hmem) .symbol
  refine ⟨more, List.prefix_rfl, ht.takeIdentity, .ok ⟨?_, ?_⟩⟩
  · exact .closure _ hf' hnew hbody.names (hbody.known.mono hmore)
  · rw [Correspondence.value_closure _ _ _ hf', ht.nextIdentity, hbody.known.code_eq hmore]

theorem mirrors_specialForm (form : SpecialForm) {parts : List Value}
    (hparts : ∀ e ∈ parts, K.KnownAs aliases y e) :
    Mirrors K K.Stands (form.evaluateWith (Store.view depth) eval parts f)
      (form.evaluateWith (Store.view depth) eval
        (form.rename K.old y (parts.map (K.value aliases))) (K.frame f)) aliases s s' := by
  have hlength : (form.rename K.old y (parts.map (K.value aliases))).length = parts.length := by
    rw [Value.length_rename, List.length_map]
  cases form.shape parts with
  | quote datum => exact mirrors_pure ⟨(hparts datum List.mem_cons_self).known, rfl⟩
  | quoteParts hcount =>
    rw [SpecialForm.evaluateWith_quoteParts hcount,
      SpecialForm.evaluateWith_quoteParts (hlength ▸ hcount)]
    exact mirrors_fail rfl
  | define name e rest =>
    obtain ⟨hname, he, -⟩ := by simpa using hparts
    rw [Correspondence.rename_define, Correspondence.value_symbol]
    exact mirrors_define heval hf (fun heq => hname.names (heq ▸ .symbol)) he rest
  | defineTarget e rest htarget =>
    rw [Correspondence.rename_define, List.map_cons,
      SpecialForm.evaluateWith_defineTarget htarget,
      SpecialForm.evaluateWith_defineTarget
        (Value.replace_ne_symbol (Correspondence.value_ne_symbol htarget))]
    exact mirrors_failOn depth (Correspondence.displayStop_replace_value depth y _).symm
      fun _ _ => rfl
  | defineIncomplete hcount =>
    rw [SpecialForm.evaluateWith_defineIncomplete hcount,
      SpecialForm.evaluateWith_defineIncomplete (hlength ▸ hcount)]
    exact mirrors_fail rfl
  | lambda parameters identity body =>
    obtain ⟨hparameters, hbody⟩ := by simpa using hparts
    rw [Correspondence.rename_lambda, Correspondence.value_list, Value.replace_list]
    exact mirrors_lambda hf (fun v hv => (hparameters.items v hv).names) hbody _ _
  | lambdaParameters body hparameters =>
    rw [Correspondence.rename_lambda, List.map_singleton,
      SpecialForm.evaluateWith_lambdaParameters hparameters,
      SpecialForm.evaluateWith_lambdaParameters
        (Value.replace_ne_list (Correspondence.value_ne_list hparameters))]
    exact mirrors_failOn depth (Correspondence.displayStop_replace_value depth y _).symm
      fun _ _ => rfl
  | lambdaParts hcount =>
    rw [SpecialForm.evaluateWith_lambdaParts hcount,
      SpecialForm.evaluateWith_lambdaParts (hlength ▸ hcount)]
    exact mirrors_fail rfl
  | conditional test consequent alternate =>
    obtain ⟨htest, hconsequent, halternate⟩ := by simpa using hparts
    rw [Correspondence.rename_conditional]
    exact mirrors_conditional heval hf htest hconsequent halternate
  | conditionalParts hcount =>
    rw [SpecialForm.evaluateWith_conditionalParts hcount,
      SpecialForm.evaluateWith_conditionalParts (hlength ▸ hcount)]
    exact mirrors_fail rfl

end Expressions

/-- One step, if the evaluations of parts correspond. -/
theorem mirrors_evaluateStep {e : Value} {f : FrameId} {y : Text} (hf : aliases[f]? = some y)
    (he : K.KnownAs aliases y e) :
    Mirrors K K.Stands (evaluateStep (Store.view depth) eval tracing e f)
      (evaluateStep (Store.view depth) eval tracing (K.code aliases y e) (K.frame f)) aliases
      s s' := by
  have htrace := mirrors_trace depth tracing "Evaluating: " fun hs : K.Relates aliases s s' =>
    hs.detailedStop_code depth he.known y
  refine mirrors_bind htrace fun _ _ more t t' hmore _ => ?_
  rw [← he.known.code_eq hmore]
  obtain ⟨hknown, hnames⟩ := he.mono hmore
  have hf' := Correspondence.getElem?_of_isPrefix hmore hf
  cases hknown with
  | symbol name =>
    rw [Correspondence.code_symbol]
    refine mirrors_observe fun ht => ?_
    have hlookup := ht.lookup?_eq hf' fun heq => hnames (heq ▸ .symbol)
    rw [Store.lookup, Store.lookup, hlookup]
    cases hv : t.lookup? f name with
    | none => exact .error (.fault rfl)
    | some v => exact .ok ⟨ht.lookup?_known hv, rfl⟩
  | list identity hitems =>
    rename_i items
    cases items with
    | nil =>
      rw [Correspondence.code_nil]
      exact mirrors_fail rfl
    | cons head parts =>
      have hparts : ∀ e ∈ head :: parts, K.KnownAs more y e :=
        Correspondence.KnownAs.items ⟨.list identity hitems, hnames⟩
      obtain ⟨hhead, hparts⟩ := List.forall_mem_cons.mp hparts
      intro ht
      cases hform : specialHead? head with
      | some form =>
        rw [Correspondence.code_special hform]
        simp only [evaluateList, hform]
        exact mirrors_specialForm heval hf' form hparts ht
      | none =>
        have hform' : specialHead? (K.code more y head) = none :=
          Correspondence.specialHead?_code (ht.plain y (List.mem_of_getElem? hf')) hform
        rw [Correspondence.code_call hform]
        simp only [evaluateList, hform, hform']
        exact mirrors_evaluateCall heval hf' hhead hparts ht
  | foreign text =>
    simp only [Correspondence.code, Correspondence.value, Value.rename]
    exact mirrors_fail rfl
  | _ =>
    have hself := Correspondence.stands_code (he.known.mono hmore) (by simp) (by simp) y
    simp only [Correspondence.code, Correspondence.value, Value.rename] at hself ⊢
    exact mirrors_pure hself

end Rules

/-- Evaluation of what stands for an expression, in what stands for its frame. -/
theorem mirrors_evaluate (tracing : Bool) (depth : Nat) {e : Value} {f : FrameId} {y : Text}
    (hf : aliases[f]? = some y) (he : K.KnownAs aliases y e) :
    Mirrors K K.Stands (evaluate tracing depth e f)
      (evaluate tracing depth (K.code aliases y e) (K.frame f)) aliases s s' := by
  induction depth generalizing aliases s s' e f y with
  | zero => exact mirrors_throw (.refl _)
  | succ depth ih => exact mirrors_evaluateStep (fun hf he => ih hf he) hf he

end Evaluation

end SmallLisp
