import SmallLisp.Proofs.Limit
import SmallLisp.Proofs.Reading.Datum
import SmallLisp.Proofs.Session
/-!
The reader and the display are inverse to each other on readable values.

Main statement: a value that is not nested too deep is readable if and only if it is read back from
its display, and if and only if it is read from any text at all.  So the displays of what was read
are read as it, and after a quote mark a display evaluates to the value that it shows.
-/

namespace SmallLisp

open Value
open TokenStream (readAllWithin)

/-- A value that is nested less deeply than the reader and the display allow. -/
def Value.IsShallow (v : Value) : Prop :=
  ∃ depth, depth < readingDepth ∧ depth < nestingLimit ∧ v.isNestedWithin depth = true

section Parse

theorem parse_of_spells {text : Text} {ts : List Token} (h : Spells text ts) :
    parse text = readAllWithin none #[] [] ts := by
  rw [parse, TokenStream.readAll, TokenStream.ofSource, h.lex_eq]
  rfl

/-- A text that spells the tokens of one datum. -/
theorem parse_of_reads {text : Text} {ts : List Token} {v : Value} (h : Spells text ts)
    (hreads : Reads [] ts v) : parse text = .ok [v] := by
  have hread := hreads none #[] []
  rw [List.append_nil] at hread
  exact (parse_of_spells h).trans hread

/-- Tokens of readable values one after the other. -/
theorem readAllWithin_values {vs : List Value} (hreadable : ∀ v ∈ vs, v.Readable) {depth : Nat}
    (hroom : depth ≤ readingDepth) (hdepth : ∀ v ∈ vs, v.isNestedWithin depth = true)
    (done : Array Value) :
    readAllWithin none done [] (vs.flatMap tokens) = .ok (done.toList ++ vs.map bare) := by
  induction vs generalizing done with
  | nil => exact congrArg Except.ok (List.append_nil _).symm
  | cons v rest ih =>
    obtain ⟨hv, hrest⟩ := List.forall_mem_cons.mp hreadable
    obtain ⟨hvdepth, hrestdepth⟩ := List.forall_mem_cons.mp hdepth
    have hreads : Reads [] v.tokens v.bare := hv.reads_tokens hvdepth (by simpa using hroom)
    rw [List.flatMap_cons, hreads]
    refine (ih hrest hrestdepth (done.push v.bare)).trans ?_
    simp

/-- Readable values are read back from their displays with spaces between them. -/
theorem parse_displays (s : Store) {vs : List Value} (hreadable : ∀ v ∈ vs, v.Readable)
    {depth : Nat} (hroom : depth ≤ readingDepth) (hlimit : depth ≤ nestingLimit)
    (hdepth : ∀ v ∈ vs, v.isNestedWithin depth = true) :
    ∃ texts, vs.mapM (display s) = .ok texts ∧
      parse (Text.join " " texts) = .ok (vs.map bare) := by
  have hdisplay : ∀ v ∈ vs, ∃ text, v.display s = .ok text ∧ Spells text v.tokens :=
    fun v hv => (hreadable v hv).display_spells s (isNestedWithin_mono hlimit (hdepth v hv))
  obtain ⟨texts, htexts, hspells⟩ := mapM_spells hdisplay
  refine ⟨texts, htexts, ?_⟩
  rw [parse_of_spells hspells]
  exact readAllWithin_values hreadable hroom hdepth #[]

/-- A readable value is read back from its display. -/
theorem Value.Readable.parse_display {v : Value} (h : v.Readable) (hshallow : v.IsShallow)
    (s : Store) : ∃ text, v.display s = .ok text ∧ parse text = .ok [v.bare] := by
  obtain ⟨depth, hroom, hlimit, hdepth⟩ := hshallow
  have hnested := isNestedWithin_mono (Nat.le_of_lt hlimit) hdepth
  obtain ⟨text, htext, hspells⟩ := h.display_spells s hnested
  have hreads : Reads [] v.tokens v.bare :=
    h.reads_tokens hdepth (by simpa using Nat.le_of_lt hroom)
  exact ⟨text, htext, parse_of_reads hspells hreads⟩

/-- After a quote mark, the display of a readable value is read as the quoted value. -/
theorem Value.Readable.parse_quoted_display {v : Value} (h : v.Readable) (hshallow : v.IsShallow)
    {s : Store} {text : Text} (htext : v.display s = .ok text) :
    parse ("'" ++ text) = .ok [quoteDatum v.bare] := by
  obtain ⟨depth, hroom, hlimit, hdepth⟩ := hshallow
  have hnested := isNestedWithin_mono (Nat.le_of_lt hlimit) hdepth
  obtain ⟨text', htext', hspells⟩ := h.display_spells s hnested
  obtain rfl : text = text' := Except.ok.inj (htext.symm.trans htext')
  have hreads : Reads [] (⟨.quote, "'"⟩ :: v.tokens) (quoteDatum v.bare) :=
    .quote (by decide) (h.reads_tokens hdepth (by simp only [List.length_singleton]; omega))
  exact parse_of_reads hspells.quote hreads

end Parse

section Evaluation

open Evaluation

theorem exists_mapM_ok {f : Value → Except Failure Text} {items : List Value}
    (h : ∀ v ∈ items, ∃ text, f v = .ok text) : ∃ texts, items.mapM f = .ok texts := by
  induction items with
  | nil => exact ⟨[], rfl⟩
  | cons v rest ih =>
    obtain ⟨⟨text, htext⟩, hrest⟩ := List.forall_mem_cons.mp h
    obtain ⟨texts, htexts⟩ := ih hrest
    refine ⟨text :: texts, ?_⟩
    rw [List.mapM_cons, htext, htexts]
    rfl

/-- A readable value has a text in the trace. -/
theorem Value.Readable.detailed {v : Value} (h : v.Readable) (s : Store) {depth : Nat}
    (hdepth : v.isNestedWithin depth = true) : ∃ text, detailedWithin s depth v = .ok text := by
  induction h generalizing depth with
  | symbol | boolean =>
    cases depth with
    | zero => cases hdepth
    | succ depth => exact ⟨_, rfl⟩
  | integer hn =>
    cases depth with
    | zero => cases hdepth
    | succ depth =>
      rw [detailedWithin, integerText_eq_ok hn]
      exact ⟨_, rfl⟩
  | @list items identity _ ih =>
    cases depth with
    | zero => cases hdepth
    | succ depth =>
      rw [isNestedWithin, List.all_eq_true] at hdepth
      obtain ⟨texts, htexts⟩ := exists_mapM_ok fun v hv => ih v hv (hdepth v hv)
      cases items with
      | nil => exact ⟨_, rfl⟩
      | cons v rest =>
        rw [detailedWithin, htexts]
        · exact ⟨_, rfl⟩
        · simp

theorem isNestedWithin_bare (depth : Nat) (v : Value) :
    v.bare.isNestedWithin depth = v.isNestedWithin depth := by
  induction depth generalizing v with
  | zero => rfl
  | succ depth ih =>
    cases v with
    | list items identity =>
      have hitems : isNestedWithin depth ∘ bare = isNestedWithin depth := funext ih
      simp only [bare_list, isNestedWithin, List.all_map, hitems]
    | _ => rw [bare]; simp

/-- A quoted value is nested one deeper. -/
theorem isNestedWithin_quoteDatum {depth : Nat} {v : Value} (h : v.isNestedWithin depth = true) :
    (quoteDatum v).isNestedWithin (depth + 1) = true := by
  cases depth with
  | zero => cases h
  | succ depth => simp [quoteDatum, isNestedWithin, h]

theorem outcome_trace (view : Store → View) (tracing : Bool) (label : Text) {v : Value} {s : Store}
    {text : Text} (h : (view s).detailed v = .ok text) :
    (trace view tracing label v).outcome s =
      (.ok ⟨⟩, if tracing then s.record (label ++ text) else s) := by
  cases tracing with
  | false => rfl
  | true =>
    have hobserve : (observe fun s => (view s).detailed v).outcome s = (.ok text, s) := by
      rw [outcome_observe, h]
    exact outcome_bind_ok hobserve

/-- A quoted value evaluates to itself, and only the log changes. -/
theorem outcome_evaluate_quoteDatum (tracing : Bool) (depth : Nat) (f : FrameId) {v : Value}
    {s : Store} {text : Text} (h : (quoteDatum v).detailedWithin s depth = .ok text) :
    ∃ s', (evaluate tracing (depth + 1) (quoteDatum v) f).outcome s = (.ok v, s') ∧
      s'.frames = s.frames := by
  have htrace := outcome_trace (Store.view depth) tracing "Evaluating: " h
  refine ⟨_, outcome_bind_ok htrace, ?_⟩
  split
  · rfl
  · rfl

/-- The evaluation of a text that holds one quoted value. -/
theorem Session.evaluateLast_quoteDatum (session : Session) (tracing : Bool) {source : Text}
    {v : Value} (hsource : parse source = .ok [quoteDatum v]) {text : Text}
    (htext : (quoteDatum v).detailed session.store = .ok text) :
    ∃ session' : Session, session.evaluateLast tracing source = (.ok (some v), session') ∧
      session'.store.frames = session.store.frames ∧ session'.global = session.global := by
  obtain ⟨s', houtcome, hframes⟩ :=
    outcome_evaluate_quoteDatum tracing nestingLimit session.global htext
  have hform : (evaluateForm tracing (fun _ v => .ok v) session.global (quoteDatum v)).outcome
      session.store = (.ok v, s') := by
    rw [evaluateForm, evaluateIn, evaluationDepth, outcome_bind_ok houtcome]
    exact outcome_observe _ s'
  refine ⟨{ session with store := s' }, ?_, hframes, rfl⟩
  simp only [evaluateLast, evaluateAll, hsource, evaluateForms, perform_of_outcome hform]
  rfl

/-- After a quote mark, the display of a readable value evaluates to the value in any session. -/
theorem Value.Readable.evaluateLast_quoted_display {v : Value} (h : v.Readable)
    (hshallow : v.IsShallow) {s : Store} {text : Text} (htext : v.display s = .ok text)
    (session : Session) (tracing : Bool) : ∃ session' : Session,
      session.evaluateLast tracing ("'" ++ text) = (.ok (some v.bare), session') ∧
      session'.store.frames = session.store.frames ∧ session'.global = session.global := by
  have hquoted := h.parse_quoted_display hshallow htext
  have hdatum := datum_of_parse hquoted _ List.mem_cons_self
  obtain ⟨depth, -, hlimit, hdepth⟩ := hshallow
  -- The quote is one more list around the value in the trace.
  have hnested : (quoteDatum v.bare).isNestedWithin (depth + 1) = true :=
    isNestedWithin_quoteDatum ((isNestedWithin_bare depth v).trans hdepth)
  obtain ⟨line, hline⟩ :=
    hdatum.readable.detailed session.store (isNestedWithin_mono hlimit hnested)
  exact session.evaluateLast_quoteDatum tracing hquoted hline

end Evaluation

/-- The reader and the display are inverse to each other exactly on readable values.  A value that
is not nested too deep is readable if and only if it is read back from its display, and if and only
if it is read from any text.  What was read, and can be displayed, is read back from its displays;
and in every session the display of a readable value evaluates, after a quote mark, to the value and
changes no frame. -/
theorem readable_roundTrip (s : Store) :
    (∀ v : Value, v.IsShallow →
      (v.Readable ↔ ∃ text w, v.display s = .ok text ∧ parse text = .ok [w] ∧ w.equal v = true) ∧
      (v.Readable ↔ ∃ source vs w, parse source = .ok vs ∧ w ∈ vs ∧ w.equal v = true) ∧
      (v.Readable → ∃ text, v.display s = .ok text ∧ ∀ (session : Session) (tracing : Bool),
        ∃ w session', session.evaluateLast tracing ("'" ++ text) = (.ok (some w), session') ∧
          w.equal v = true ∧ session'.store.frames = session.store.frames ∧
          session'.global = session.global)) ∧
    (∀ source vs, parse source = .ok vs → (∀ v ∈ vs, v.isNestedWithin nestingLimit = true) →
      ∃ texts, vs.mapM (display s) = .ok texts ∧ parse (Text.join " " texts) = .ok vs) := by
  constructor
  · intro v hshallow
    have hback : v.Readable →
        ∃ text w, v.display s = .ok text ∧ parse text = .ok [w] ∧ w.equal v = true := by
      intro hv
      obtain ⟨text, htext, hparse⟩ := hv.parse_display hshallow s
      exact ⟨text, v.bare, htext, hparse, hv.bare_equal⟩
    have hread : ∀ source vs w, parse source = .ok vs → w ∈ vs → w.equal v = true → v.Readable :=
      fun source vs w hparse hw heq => (datum_of_parse hparse w hw).readable.of_equal heq
    refine ⟨⟨hback, ?_⟩, ⟨?_, ?_⟩, ?_⟩
    · rintro ⟨text, w, -, hparse, heq⟩
      exact hread text [w] w hparse List.mem_cons_self heq
    · intro hv
      obtain ⟨text, w, -, hparse, heq⟩ := hback hv
      exact ⟨text, [w], w, hparse, List.mem_cons_self, heq⟩
    · rintro ⟨source, vs, w, hparse, hw, heq⟩
      exact hread source vs w hparse hw heq
    · intro hv
      obtain ⟨text, htext, -⟩ := hv.parse_display hshallow s
      refine ⟨text, htext, fun session tracing => ?_⟩
      obtain ⟨session', heval, hframes, hglobal⟩ :=
        hv.evaluateLast_quoted_display hshallow htext session tracing
      exact ⟨v.bare, session', heval, hv.bare_equal, hframes, hglobal⟩
  · intro source vs hparse hnested
    have hdata := datum_of_parse hparse
    have hroom : nestingLimit ≤ readingDepth := by decide
    have hbare : vs.map bare = vs := by
      rw [List.map_congr_left fun v hv => (hdata v hv).bare]
      simp
    obtain ⟨texts, htexts, hback⟩ :=
      parse_displays s (fun v hv => (hdata v hv).readable) hroom (Nat.le_refl _) hnested
    exact ⟨texts, htexts, hbare ▸ hback⟩

/-- A list in a list, of which the inner one has an identity. -/
def nestedList : Value :=
  .list [.symbol "a", .list [.integer (-12), .boolean true] (some 3)]

/-- A list that a program made is read back from its display. -/
theorem readable_roundTrip_nestedList :
    nestedList.IsShallow ∧ nestedList.Readable ∧
      ∃ text w, nestedList.display {} = .ok text ∧ parse text = .ok [w] ∧
        w.equal nestedList = true := by
  have hshallow : nestedList.IsShallow := ⟨3, by decide, by decide, by decide⟩
  have hname : Text.IsName "a" := ⟨by decide, by decide, by decide, by decide⟩
  have hinteger : Readable (.integer (-12)) := by
    apply Readable.integer
    have hpow : 10 ^ 2 ≤ 10 ^ Text.maxDigits := Nat.pow_le_pow_right (by decide) (by decide)
    exact Nat.lt_of_lt_of_le (by decide) hpow
  have hinner : Readable (.list [.integer (-12), .boolean true] (some 3)) := by
    apply Readable.list
    simpa using ⟨hinteger, Readable.boolean true⟩
  have hreadable : nestedList.Readable := by
    apply Readable.list
    simpa using ⟨Readable.symbol hname, hinner⟩
  exact ⟨hshallow, hreadable, ((readable_roundTrip {}).1 nestedList hshallow).1.mp hreadable⟩

end SmallLisp
