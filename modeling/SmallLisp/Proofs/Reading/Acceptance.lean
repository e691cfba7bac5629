import SmallLisp.Proofs.Limit
import SmallLisp.Proofs.Reading.Grammar
import SmallLisp.Proofs.Reading.Machine
/-!
The reader accepts exactly the grammar.

Soundness has as its invariant that the tokens so far are a row of derived expressions and then what
has opened the contexts; completeness follows the derivation.  Main statement: tokens are read as
some values if and only if they are derived with these values, and otherwise reading stops at the
first token that no derivation can go on with, or at the end.
-/

namespace SmallLisp

open SmallLisp.Derivation

section Completeness

/-- One more context is opened, or the limit is met. -/
theorem upToLimit_open {r : Reader} {context : Pending} {t : Token} {ts : List Token}
    {x : Except Failure Reader} (ht : consume r.contexts t = nest context r.contexts)
    (h : UpToLimit True (({ r with contexts := context :: r.contexts } : Reader).run ts) x) :
    UpToLimit True (r.run (t :: ts)) x := by
  rw [Reader.run_cons, Reader.take, ht, nest]
  split
  · exact h
  · exact Or.inr ⟨trivial, rfl⟩

/-- Tokens are read after others. -/
theorem upToLimit_append {r mid : Reader} {ts us : List Token} {x : Except Failure Reader}
    (hts : UpToLimit True (r.run ts) (.ok mid)) (hus : UpToLimit True (mid.run us) x) :
    UpToLimit True (r.run (ts ++ us)) x := by
  rw [Reader.run_append]
  exact (hts.bind_same fun r' => r'.run us).trans hus

mutual

/-- The tokens of a derivation are read as its value, unless they are nested too deep. -/
theorem Derivation.run_tokens : ∀ (d : Derivation) (r : Reader),
    UpToLimit True (r.run d.tokens) (r.settle (deliver d.value r.contexts))
  | .atom text v accepted, r => by
      have hatom : consume r.contexts ⟨.symbol, text⟩ = deliver v r.contexts := by
        simp only [consume, accepted]
      rw [tokens, value, Reader.run_singleton, Reader.take, hatom]
      exact UpToLimit.refl _ _
  | .quoted mark datum, r => by
      rw [tokens, value]
      exact upToLimit_open rfl (datum.run_tokens { r with contexts := .quoted :: r.contexts })
  | .bracketed shape items, r => by
      rw [tokens_bracketed, value_bracketed]
      have hopen : consume r.contexts ⟨.opener, shape.opener⟩ =
          nest (.bracket shape.opener shape.closer #[]) r.contexts := by
        cases shape <;> rfl
      have hclose : consume (.bracket shape.opener shape.closer (items.map value).toArray ::
          r.contexts) ⟨.closer, shape.closer⟩ = deliver (.list (items.map value)) r.contexts :=
        if_pos rfl
      have hrow := run_flatMap_tokens items r.done shape.opener shape.closer #[] r.contexts
      rw [Array.empty_append] at hrow
      apply upToLimit_open hopen
      apply upToLimit_append hrow
      rw [Reader.run_singleton, Reader.take, hclose]
      exact UpToLimit.refl _ _

/-- The tokens of a row of derivations are read into the innermost bracket. -/
theorem Derivation.run_flatMap_tokens : ∀ (ds : List Derivation) (done : Array Value)
    (opener closer : Text) (items : Array Value) (outer : List Pending),
    UpToLimit True
      (Reader.run ⟨done, .bracket opener closer items :: outer⟩ (ds.flatMap tokens))
      (.ok ⟨done, .bracket opener closer (items ++ (ds.map value).toArray) :: outer⟩)
  | [], done, opener, closer, items, outer => by
      rw [List.map_nil, Array.append_empty]
      exact UpToLimit.refl _ _
  | d :: ds, done, opener, closer, items, outer => by
      have hpush : items ++ ((d :: ds).map value).toArray =
          items.push d.value ++ (ds.map value).toArray := by simp
      rw [List.flatMap_cons, hpush]
      apply upToLimit_append (d.run_tokens ⟨done, .bracket opener closer items :: outer⟩)
      exact run_flatMap_tokens ds done opener closer (items.push d.value) outer

end

/-- The tokens of a program are read as its values, unless they are nested too deep. -/
theorem run_program (program : List Derivation) (done : Array Value) :
    UpToLimit True (Reader.run { done } (program.flatMap tokens))
      (.ok { done := done ++ (program.map value).toArray }) := by
  induction program generalizing done with
  | nil =>
    rw [List.map_nil, Array.append_empty]
    exact UpToLimit.refl _ _
  | cons d rest ih =>
    have hpush : done ++ ((d :: rest).map value).toArray =
        done.push d.value ++ (rest.map value).toArray := by simp
    rw [List.flatMap_cons, hpush]
    exact upToLimit_append (d.run_tokens { done }) (ih (done.push d.value))

end Completeness

section Soundness

/-- The tokens since the outermost of some open contexts was opened. -/
inductive Opened : List Pending → List Token → Prop
  | nil : Opened [] []
  | quoted {outer : List Pending} {ts : List Token} (mark : Text) : Opened outer ts →
      Opened (.quoted :: outer) (ts ++ [⟨.quote, mark⟩])
  | bracket {outer : List Pending} {ts : List Token} (shape : Bracket)
      (items : List Derivation) : Opened outer ts →
      Opened (.bracket shape.opener shape.closer (items.map value).toArray :: outer)
        (ts ++ ⟨.opener, shape.opener⟩ :: items.flatMap tokens)

/-- A reader after tokens: those of a program that has the complete values, and then those that
have opened the contexts. -/
def Reader.After (r : Reader) (ts : List Token) : Prop :=
  ∃ (program : List Derivation) (us : List Token), ts = program.flatMap tokens ++ us ∧
    r.done.toList = program.map value ∧ Opened r.contexts us

/-- A complete derivation goes where its value goes. -/
theorem Opened.after_deliver {contexts : List Pending} {us : List Token}
    (h : Opened contexts us) {r r' : Reader} {program : List Derivation}
    (hdone : r.done.toList = program.map value) (d : Derivation)
    (hsettle : r.settle (deliver d.value contexts) = .ok r') :
    r'.After (program.flatMap tokens ++ (us ++ d.tokens)) := by
  induction h generalizing d with
  | nil =>
    cases hsettle
    refine ⟨program ++ [d], [], ?_, ?_, .nil⟩
    · simp
    · simp [hdone]
  | @quoted outer ts mark _ ih =>
    have hquoted := ih (.quoted mark d) (by rw [value]; exact hsettle)
    rw [tokens] at hquoted
    rw [List.append_assoc]
    exact hquoted
  | @bracket outer ts shape items houter _ =>
    cases hsettle
    refine ⟨program, _, rfl, hdone, ?_⟩
    have hpush : (items.map value).toArray.push d.value =
        ((items ++ [d]).map value).toArray := by simp
    have htokens : ts ++ ⟨.opener, shape.opener⟩ :: items.flatMap tokens ++ d.tokens =
        ts ++ ⟨.opener, shape.opener⟩ :: (items ++ [d]).flatMap tokens := by simp
    rw [hpush, htokens]
    exact houter.bracket shape (items ++ [d])

theorem Bracket.exists_of_closerOf? {opener closer : Text}
    (h : closerOf? opener = some closer) :
    ∃ shape : Bracket, opener = shape.opener ∧ closer = shape.closer := by
  rw [closerOf?] at h
  split at h
  · rename_i hround
    cases h
    exact ⟨.round, hround, rfl⟩
  · split at h
    · rename_i hsquare
      cases h
      exact ⟨.square, hsquare, rfl⟩
    · cases h

/-- One token keeps the invariant. -/
theorem Reader.After.take {r r' : Reader} {ts : List Token} (h : r.After ts) {t : Token}
    (ht : r.take t = .ok r') : r'.After (ts ++ [t]) := by
  obtain ⟨program, us, rfl, hdone, hopened⟩ := h
  rw [List.append_assoc]
  cases takes_of_take ht with
  | @atom text v _ hatom hsettle =>
    have hafter := hopened.after_deliver hdone (.atom text v hatom) (by rw [value]; exact hsettle)
    rw [tokens] at hafter
    exact hafter
  | quote => exact ⟨program, _, rfl, hdone, hopened.quoted _⟩
  | opener hcloser =>
    obtain ⟨shape, rfl, rfl⟩ := Bracket.exists_of_closerOf? hcloser
    exact ⟨program, _, rfl, hdone, hopened.bracket shape []⟩
  | closer hcontexts hsettle =>
    rw [hcontexts] at hopened
    cases hopened with
    | @bracket _ ts shape items houter =>
      have hafter := houter.after_deliver hdone (.bracketed shape items)
        (by rw [value_bracketed]; exact hsettle)
      rw [tokens_bracketed] at hafter
      simpa using hafter

/-- Whatever has been read keeps the invariant. -/
theorem Reader.After.run {r r' : Reader} {ts us : List Token} (h : r.After ts)
    (hrun : r.run us = .ok r') : r'.After (ts ++ us) := by
  induction us generalizing r ts with
  | nil =>
    cases hrun
    rw [List.append_nil]
    exact h
  | cons t rest ih =>
    obtain ⟨mid, ht, hrest⟩ := Reader.run_cons_eq_ok hrun
    have hafter := ih (h.take ht) hrest
    rw [List.append_assoc] at hafter
    exact hafter

theorem after_of_run {r : Reader} {ts : List Token} (h : Reader.run {} ts = .ok r) :
    r.After ts := by
  have hempty : Reader.After {} [] := ⟨[], [], rfl, rfl, .nil⟩
  exact hempty.run h

/-- What has been read to its end is a program. -/
theorem exists_program_of_run {done : Array Value} {ts : List Token}
    (h : Reader.run {} ts = .ok { done }) :
    ∃ program : List Derivation,
      program.flatMap tokens = ts ∧ program.map value = done.toList := by
  obtain ⟨program, us, rfl, hdone, hopened⟩ := after_of_run h
  cases hopened
  exact ⟨program, by simp, hdone.symm⟩

/-- Open contexts can be closed around any datum. -/
theorem Opened.exists_closed {contexts : List Pending} {us : List Token} (h : Opened contexts us)
    (d : Derivation) : ∃ (d' : Derivation) (rest : List Token),
      d'.tokens = us ++ d.tokens ++ rest := by
  induction h generalizing d with
  | nil => exact ⟨d, [], by simp⟩
  | quoted mark _ ih =>
    obtain ⟨d', rest, hclosed⟩ := ih (.quoted mark d)
    refine ⟨d', rest, hclosed.trans ?_⟩
    simp [tokens]
  | bracket shape items _ ih =>
    obtain ⟨d', rest, hclosed⟩ := ih (.bracketed shape (items ++ [d]))
    refine ⟨d', ⟨.closer, shape.closer⟩ :: rest, hclosed.trans ?_⟩
    simp [tokens_bracketed]

end Soundness

/-- Tokens with which some program begins. -/
def BeginsProgram (ts : List Token) : Prop :=
  ∃ (program : List Derivation) (rest : List Token), program.flatMap tokens = ts ++ rest

/-- A token as a source text has it. -/
def Token.IsSource (t : Token) : Prop :=
  match t.kind with
  | .symbol => t.text ≠ []
  | .quote => True
  | .opener => ∃ shape : Bracket, t.text = shape.opener
  | .closer => ∃ shape : Bracket, t.text = shape.closer
  | .other _ => False

/-- An integer with more digits than the reader takes. -/
def Token.IsTooLong (t : Token) : Prop :=
  t.kind = .symbol ∧ t.text.isInteger = true ∧ Text.maxDigits < (Text.splitSign t.text).2.length

/-- Reading stops at a token: the tokens before it begin a program, but not together with it, and
what comes after it makes no difference. -/
structure StopsAt (before : List Token) (t : Token) (failure : Failure) : Prop where
  begins : BeginsProgram before
  stuck : ¬ BeginsProgram (before ++ [t])
  fails : ∀ after, TokenStream.readAll { unread := before ++ t :: after } = .error failure
  tooLong : t.IsTooLong → failure = .integerTooLong
  unreadable : t.IsSource → ¬ t.IsTooLong →
    ∃ fault : Fault, failure = .fault fault ∧ fault.kind = .unreadable

/-- Reading stops at the end of tokens that begin a program, because of an open quote or bracket. -/
structure StopsAtEnd (ts : List Token) (fault : Fault) : Prop where
  begins : BeginsProgram ts
  fails : TokenStream.readAll { unread := ts } = .error (.fault fault)
  unreadable : fault.kind = .unreadable
  pending : fault = .nothingQuoted ∨ ∃ shape : Bracket, fault = .unclosed shape.opener

theorem beginsProgram_of_run {r : Reader} {ts : List Token} (h : Reader.run {} ts = .ok r) :
    BeginsProgram ts := by
  obtain ⟨program, us, rfl, -, hopened⟩ := after_of_run h
  obtain ⟨v, hatom⟩ : ∃ v, readAtom "0" = .ok v := ⟨_, rfl⟩
  obtain ⟨d, rest, hclosed⟩ := hopened.exists_closed (.atom "0" v hatom)
  refine ⟨program ++ [d], tokens (.atom "0" v hatom) ++ rest, ?_⟩
  simp [hclosed]

/-- A token that is refused for another reason than its depth is part of no program. -/
theorem not_beginsProgram_of_take {mid : Reader} {before : List Token} {t : Token} {e : Failure}
    (hbefore : Reader.run {} before = .ok mid) (ht : mid.take t = .error e)
    (he : e ≠ .nestingTooDeep) : ¬ BeginsProgram (before ++ [t]) := by
  rintro ⟨program, rest, hprogram⟩
  have hrun := run_program program #[]
  have hstop := Reader.run_of_take_eq_error hbefore ht rest
  rw [hprogram, List.append_assoc, List.singleton_append, hstop] at hrun
  rcases hrun with hok | ⟨-, hdeep⟩
  · cases hok
  · exact he (Except.error.inj hdeep)

/-- What a reader says of a token of source text. -/
theorem Reader.Refuses.unreadable {r : Reader} {t : Token} {e : Failure} (h : r.Refuses t e)
    (he : e ≠ .nestingTooDeep) (hsource : t.IsSource) (hlong : ¬ t.IsTooLong) :
    ∃ fault : Fault, e = .fault fault ∧ fault.kind = .unreadable := by
  cases h with
  | @atom text e hatom =>
    rcases readAtom_eq_error hatom with ⟨hinteger, hlength, -⟩ | ⟨-, rfl⟩ | ⟨rfl, -⟩
    · exact absurd ⟨rfl, hinteger, hlength⟩ hlong
    · exact ⟨_, rfl, rfl⟩
    · exact absurd rfl hsource
  | depth => exact absurd rfl he
  | unknownBracket hnone =>
    obtain ⟨shape, rfl⟩ := hsource
    cases shape <;> exact absurd hnone (by decide)
  | mismatched => exact ⟨_, rfl, rfl⟩
  | strayCloser => exact ⟨_, rfl, rfl⟩
  | unknownToken => exact absurd hsource id

theorem Reader.Refuses.eq_of_isTooLong {r : Reader} {t : Token} {e : Failure} (h : r.Refuses t e)
    (he : e ≠ .nestingTooDeep) (hlong : t.IsTooLong) : e = .integerTooLong := by
  obtain ⟨hkind, hinteger, hlength⟩ := hlong
  cases h with
  | atom hatom =>
    rcases readAtom_eq_error hatom with ⟨-, -, rfl⟩ | ⟨hno, -⟩ | ⟨rfl, -⟩
    · rfl
    · rw [hinteger] at hno
      cases hno
    · cases hinteger
  | depth => exact absurd rfl he
  | unknownBracket | mismatched | strayCloser | unknownToken => cases hkind

theorem stopsAt_of_take {mid : Reader} {before : List Token} {t : Token} {e : Failure}
    (hbefore : Reader.run {} before = .ok mid) (ht : mid.take t = .error e)
    (he : e ≠ .nestingTooDeep) : StopsAt before t e where
  begins := beginsProgram_of_run hbefore
  stuck := not_beginsProgram_of_take hbefore ht he
  fails after := by
    rw [TokenStream.readAll_eq_run, Reader.run_of_take_eq_error hbefore ht]
    rfl
  tooLong := (Reader.refuses_of_take ht).eq_of_isTooLong he
  unreadable := (Reader.refuses_of_take ht).unreadable he

theorem stopsAtEnd_of_run {r : Reader} {ts : List Token} (h : Reader.run {} ts = .ok r)
    (hopen : r.contexts ≠ []) : ∃ fault, StopsAtEnd ts fault := by
  have hend : TokenStream.readAll { unread := ts } = r.finish := by
    rw [TokenStream.readAll_eq_run, h]
    rfl
  obtain ⟨program, us, -, -, hopened⟩ := after_of_run h
  obtain ⟨done, contexts⟩ := r
  cases hopened with
  | nil => exact absurd rfl hopen
  | quoted mark _ => exact ⟨_, beginsProgram_of_run h, hend, rfl, Or.inl rfl⟩
  | bracket shape items _ => exact ⟨_, beginsProgram_of_run h, hend, rfl, Or.inr ⟨shape, rfl⟩⟩

/-- Tokens are read as some values if and only if they are derived with these values. -/
theorem readAll_eq_ok_iff_derived {ts : List Token} (h : nesting ts ≤ readingDepth)
    {vs : List Value} : TokenStream.readAll { unread := ts } = .ok vs ↔
      ∃ program : List Derivation, program.flatMap tokens = ts ∧ program.map value = vs := by
  rw [TokenStream.readAll_eq_ok_iff]
  constructor
  · rintro ⟨done, hrun, rfl⟩
    exact exists_program_of_run hrun
  · rintro ⟨program, rfl, rfl⟩
    have hrun := (run_program program #[]).eq_of_ne (Reader.run_ne_nestingTooDeep h)
    exact ⟨_, hrun, by simp⟩

/-- The reader accepts exactly the grammar.  Tokens whose quotes and brackets are nested within the
limit are read as some values if and only if they are derived with these values, and they have at
most one derivation.  Tokens that are not derived make the reader stop at the first token that no
derivation can go on with, or else at the end. -/
theorem readAll_acceptsGrammar (ts : List Token) (h : nesting ts ≤ readingDepth) :
    (∀ vs, TokenStream.readAll { unread := ts } = .ok vs ↔
      ∃ program : List Derivation, program.flatMap tokens = ts ∧ program.map value = vs) ∧
    (∀ program program' : List Derivation, program.flatMap tokens = ts →
      program'.flatMap tokens = ts → program = program') ∧
    ((¬ ∃ program : List Derivation, program.flatMap tokens = ts) →
      (∃ before t after failure, ts = before ++ t :: after ∧ StopsAt before t failure) ∨
        ∃ fault, StopsAtEnd ts fault) := by
  refine ⟨fun vs => readAll_eq_ok_iff_derived h, ?_, ?_⟩
  · intro program program' hprogram hprogram'
    exact program_unique (hprogram.trans hprogram'.symm)
  · intro hnone
    have hdeep := Reader.run_ne_nestingTooDeep (r := {}) h
    cases hrun : Reader.run {} ts with
    | error e =>
      obtain ⟨before, t, after, mid, rfl, hbefore, ht⟩ := Reader.exists_of_run_eq_error hrun
      rw [hrun] at hdeep
      have he : e ≠ .nestingTooDeep := fun heq => hdeep (congrArg Except.error heq)
      exact Or.inl ⟨before, t, after, e, rfl, stopsAt_of_take hbefore ht he⟩
    | ok r =>
      refine Or.inr (stopsAtEnd_of_run hrun fun hclosed => hnone ?_)
      obtain ⟨done, contexts⟩ := r
      cases hclosed
      have hread := TokenStream.readAll_eq_ok_iff.mpr ⟨done, hrun, rfl⟩
      obtain ⟨program, hprogram, -⟩ := (readAll_eq_ok_iff_derived h).mp hread
      exact ⟨program, hprogram⟩

/-- The tokens of `['a]`. -/
def quotedInBrackets : List Token :=
  [⟨.opener, "["⟩, ⟨.quote, "'"⟩, ⟨.symbol, "a"⟩, ⟨.closer, "]"⟩]

/-- A quoted atom in square brackets has a derivation. -/
theorem readAll_acceptsGrammar_quotedInBrackets :
    nesting quotedInBrackets ≤ readingDepth ∧
      ∃ program : List Derivation, program.flatMap tokens = quotedInBrackets ∧
        program.map value = [.list [.list [.symbol "quote", .symbol "a"]]] := by
  have hnest : nesting quotedInBrackets ≤ readingDepth := by decide
  exact ⟨hnest, ((readAll_acceptsGrammar quotedInBrackets hnest).1 _).mp rfl⟩

end SmallLisp
