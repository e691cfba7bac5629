import SmallLisp.Proofs.Reading.Lines
import SmallLisp.Proofs.Reading.Machine
import SmallLisp.Proofs.Session
/-!
A conversation and the run of the text that is fed to it.

The shell evaluates its input in portions, which end where no bracket is open at the end of a line.
Main statement: where the portions are read as the whole text is, the conversation echoes the values
of the text in order up to the first failure, which it reports in the session that the run of the
text leaves.
-/

namespace SmallLisp

/-- Whether an event tells of a value or of a failure. -/
def ShellEvent.isAnswer : ShellEvent → Bool
  | .echo _ | .report _ => true
  | _ => false

/-- What a conversation tells of values and failures. -/
def Conversation.answers (c : Conversation) : List ShellEvent :=
  c.events.filter ShellEvent.isAnswer

namespace Shell

section Portions

/-- A line that the shell can be fed with after some tokens: it is not `end` where no bracket is
open, and it does not end with a quote mark where none is open at its end. -/
structure Fits (before : List Token) (line : Text) : Prop where
  ne_end : bracketDepth before = 0 → line.trim ≠ "end"
  noQuote : bracketDepth (before ++ (lex line).tokens) = 0 →
    ∀ t ∈ (lex line).tokens.getLast?, t.kind ≠ .quote

/-- Tokens whose brackets are closed do not matter for a line. -/
theorem Fits.of_append {ts us : List Token} {line : Text} (h : Fits (ts ++ us) line)
    (hts : bracketDepth ts = 0) : Fits us line := by
  obtain ⟨hend, hquote⟩ := h
  rw [List.append_assoc] at hquote
  rw [bracketDepth_append, hts, Int.zero_add] at hend hquote
  exact ⟨hend, hquote⟩

/-- Lines that complete a buffer to a text that is read as some forms, and that the shell can be fed
with.  The buffer waits for them with an open bracket, if it is not empty. -/
structure Completes (buffer : Text) (lines : List Text) (forms : List Value) : Prop where
  endsLine : buffer.EndsLine
  scanned : (lex buffer).failure = none
  waiting : buffer = [] ∨ 0 < bracketDepth (lex buffer).tokens
  lexed : ∀ line ∈ lines, (lex line).failure = none
  read : ∃ done : Array Value,
    Reader.run {} ((lex buffer).tokens ++ lineTokens lines) = .ok { done } ∧ done.toList = forms
  fits : ∀ (before : List Text) (line : Text) (after : List Text),
    lines = before ++ line :: after → Fits ((lex buffer).tokens ++ lineTokens before) line

namespace Completes

variable {buffer line : Text} {rest : List Text} {forms : List Value}

theorem forms_eq_nil (h : Completes buffer [] forms) : forms = [] := by
  obtain ⟨done, hrun, rfl⟩ := h.read
  have hdepth := Reader.openBrackets_run hrun
  rcases h.waiting with rfl | hopen
  · cases hrun
    rfl
  · have hnone : lineTokens [] = [] := rfl
    simp only [hnone, List.append_nil, Reader.openBrackets, Reader.openings, List.map_nil,
      List.count_nil] at hdepth
    omega

/-- The text that the next line makes of the buffer. -/
theorem lex_entered (h : Completes buffer (line :: rest) forms) :
    (lex (buffer ++ line ++ [.scalar '\n'])).failure = none ∧
      (lex (buffer ++ line ++ [.scalar '\n'])).tokens =
        (lex buffer).tokens ++ (lex line).tokens := by
  have hline := h.lexed line List.mem_cons_self
  obtain ⟨htokens, hfailure⟩ := lex_append h.endsLine h.scanned (line ++ [.scalar '\n'])
  rw [List.append_assoc, htokens, hfailure, lex_lineFeed hline]
  exact ⟨hline, rfl⟩

theorem needsMore_eq (h : Completes buffer (line :: rest) forms) :
    needsMore (buffer ++ line ++ [.scalar '\n']) =
      decide (0 < bracketDepth ((lex buffer).tokens ++ (lex line).tokens)) := by
  obtain ⟨hfailure, htokens⟩ := h.lex_entered
  simp only [needsMore, hfailure, htokens, Option.isNone_none, Bool.true_and]

theorem not_endedBy (h : Completes buffer (line :: rest) forms) (session : Session) :
    endedBy { session, buffer } line = false := by
  rw [endedBy, Bool.and_eq_false_iff]
  by_cases hbuffer : buffer = []
  · subst hbuffer
    right
    simpa using (h.fits [] line rest rfl).ne_end rfl
  · left
    simpa using hbuffer

/-- A line after which a bracket is open goes to the buffer. -/
theorem wait (h : Completes buffer (line :: rest) forms)
    (hmore : needsMore (buffer ++ line ++ [.scalar '\n']) = true) :
    Completes (buffer ++ line ++ [.scalar '\n']) rest forms := by
  obtain ⟨hfailure, htokens⟩ := h.lex_entered
  rw [h.needsMore_eq, decide_eq_true_eq] at hmore
  have hread := h.read
  rw [lineTokens_cons, ← List.append_assoc] at hread
  refine ⟨Or.inr ⟨_, rfl⟩, hfailure, Or.inr (htokens ▸ hmore), fun l hl => ?_, htokens ▸ hread,
    fun before l after hrest => ?_⟩
  · exact h.lexed l (List.mem_cons_of_mem _ hl)
  · have hfits := h.fits (line :: before) l after (by rw [hrest, List.cons_append])
    rwa [lineTokens_cons, ← List.append_assoc, ← htokens] at hfits

/-- Where no bracket is open at the end of a line, nothing is open. -/
theorem contexts_eq_nil (h : Completes buffer (line :: rest) forms) {mid : Reader}
    (hmid : Reader.run {} ((lex buffer).tokens ++ (lex line).tokens) = .ok mid)
    (hdepth : bracketDepth ((lex buffer).tokens ++ (lex line).tokens) = 0) :
    mid.contexts = [] := by
  have hopen : mid.openBrackets = 0 := by
    have hbrackets := Reader.openBrackets_run hmid
    rw [hdepth] at hbrackets
    exact Int.ofNat_eq_zero.mp hbrackets
  have hlast : ∀ t ∈ (lex line).tokens.getLast?, t.kind ≠ .quote := by
    refine (h.fits [] line rest rfl).noQuote ?_
    have hnone : lineTokens [] = [] := rfl
    rwa [hnone, List.append_nil]
  rcases List.eq_nil_or_concat (lex line).tokens with hempty | ⟨before, t, htokens⟩
  · rw [hempty, List.append_nil] at hmid hdepth
    rcases h.waiting with rfl | hwaiting
    · cases hmid
      rfl
    · omega
  · rw [htokens] at hmid hlast
    rw [List.concat_eq_append, ← List.append_assoc] at hmid
    exact Reader.contexts_eq_nil hmid hopen (hlast t (by simp))

/-- A line after which no bracket is open completes the first of the forms. -/
theorem portion (h : Completes buffer (line :: rest) forms)
    (hmore : needsMore (buffer ++ line ++ [.scalar '\n']) = false) :
    ∃ first last, forms = first ++ last ∧
      parse (buffer ++ line ++ [.scalar '\n']) = .ok first ∧ Completes [] rest last := by
  obtain ⟨hfailure, htokens⟩ := h.lex_entered
  obtain ⟨done, hrun, rfl⟩ := h.read
  rw [lineTokens_cons, ← List.append_assoc] at hrun
  obtain ⟨mid, hmid, hrest⟩ := Reader.run_append_eq_ok hrun
  have hdepth : bracketDepth ((lex buffer).tokens ++ (lex line).tokens) = 0 := by
    have hbrackets := Reader.openBrackets_run hmid
    rw [h.needsMore_eq, decide_eq_false_iff_not] at hmore
    simp only [Reader.openBrackets, Reader.openings, List.map_nil, List.count_nil] at hbrackets
    omega
  obtain ⟨first, contexts⟩ := mid
  obtain rfl : contexts = [] := h.contexts_eq_nil hmid hdepth
  have hsplit := Reader.run_done first {} (lineTokens rest)
  rw [Array.append_empty, hrest] at hsplit
  cases hlast : Reader.run {} (lineTokens rest) with
  | error e =>
    rw [hlast] at hsplit
    cases hsplit
  | ok r =>
    rw [hlast] at hsplit
    obtain ⟨last, contexts⟩ := r
    obtain ⟨rfl, rfl⟩ := Reader.mk.inj (Except.ok.inj hsplit)
    refine ⟨first.toList, last.toList, Array.toList_append, ?_, ?_⟩
    · exact parse_eq_ok_iff.mpr ⟨hfailure, first, htokens ▸ hmid, rfl⟩
    · refine ⟨Or.inl rfl, rfl, Or.inl rfl, fun l hl => ?_, ⟨last, hlast, rfl⟩,
        fun before l after heq => ?_⟩
      · exact h.lexed l (List.mem_cons_of_mem _ hl)
      · have hfits := h.fits (line :: before) l after (by rw [heq, List.cons_append])
        rw [lineTokens_cons, ← List.append_assoc] at hfits
        exact hfits.of_append hdepth

end Completes

end Portions

section Conversations

variable {tracing : Bool} {shell next : Shell} {line : Text} {events : List ShellEvent}

theorem converse_of_enter (hend : shell.endedBy line = false)
    (henter : shell.enter tracing line = (events, none, next)) (rest : List Text) :
    converse tracing (line :: rest) shell =
      { converse tracing rest next with
        events := shell.promptEvent :: events ++ (converse tracing rest next).events } := by
  rw [converse, hend, henter]
  rfl

theorem converse_of_enter_failure (hend : shell.endedBy line = false) {e : Failure}
    (henter : shell.enter tracing line = (events, some e, next)) (rest : List Text) :
    converse tracing (line :: rest) shell =
      { events := shell.promptEvent :: events, failure := e, session := next.session } := by
  rw [converse, hend, henter]
  rfl

theorem answers_converse_of_enter (hend : shell.endedBy line = false)
    (henter : shell.enter tracing line = (events, none, next)) (rest : List Text) :
    (converse tracing (line :: rest) shell).answers =
      events.filter ShellEvent.isAnswer ++ (converse tracing rest next).answers := by
  rw [converse_of_enter hend henter]
  exact List.filter_append _ _

theorem filter_isAnswer_echoes (shown : List Text) :
    (shown.map ShellEvent.echo).filter ShellEvent.isAnswer = shown.map .echo := by
  rw [List.filter_eq_self]
  intro event hevent
  obtain ⟨text, -, rfl⟩ := List.mem_map.mp hevent
  rfl

/-- A conversation that echoes the observations of a run in order.  A failure that can be reported
is reported next, in the session that the run leaves, whatever the conversation goes on with.  Any
other failure ends the conversation. -/
structure Agrees (tracing : Bool) (lines : List Text) (shell : Shell) (run : Run Text)
    (final : Session) : Prop where
  complete : run.failure = none →
    (converse tracing lines shell).answers = run.results.map .echo ∧
      (converse tracing lines shell).failure = none ∧
      (converse tracing lines shell).session = final
  reported : ∀ e text, run.failure = some e → e.report? = some text →
    ∃ before after more, lines = before ++ after ∧
      (converse tracing before shell).answers = run.results.map .echo ++ [.report text] ∧
      (converse tracing before shell).failure = none ∧
      (converse tracing before shell).session = final ∧
      (converse tracing lines shell).answers = run.results.map .echo ++ .report text :: more
  ended : ∀ e, run.failure = some e → e.report? = none →
    (converse tracing lines shell).answers = run.results.map .echo ∧
      (converse tracing lines shell).failure = some e ∧
      (converse tracing lines shell).session = final

variable {run : Run Text} {final : Session} {rest : List Text}

/-- Before the conversation goes on, a line may have been entered that did not fail. -/
theorem Agrees.enter (hend : shell.endedBy line = false) {shown : List Text}
    (henter : shell.enter tracing line = (shown.map .echo, none, next))
    (h : Agrees tracing rest next run final) :
    Agrees tracing (line :: rest) shell { run with results := shown ++ run.results } final := by
  have hanswers := answers_converse_of_enter hend henter
  simp only [filter_isAnswer_echoes] at hanswers
  have hconverse := converse_of_enter hend henter
  refine ⟨fun hnone => ?_, fun e text hsome hreport => ?_, fun e hsome hreport => ?_⟩
  · obtain ⟨hshown, hfailure, hsession⟩ := h.complete hnone
    rw [hanswers, hshown, List.map_append, hconverse]
    exact ⟨rfl, hfailure, hsession⟩
  · obtain ⟨before, after, more, rfl, hshown, hfailure, hsession, hmore⟩ :=
      h.reported e text hsome hreport
    refine ⟨line :: before, after, more, rfl, ?_⟩
    rw [hanswers, hanswers, hshown, hmore, List.map_append, hconverse]
    exact ⟨(List.append_assoc _ _ _).symm, hfailure, hsession, (List.append_assoc _ _ _).symm⟩
  · obtain ⟨hshown, hfailure, hsession⟩ := h.ended e hsome hreport
    rw [hanswers, hshown, List.map_append, hconverse]
    exact ⟨rfl, hfailure, hsession⟩

theorem enter_of_not_needsMore (shell : Shell) (tracing : Bool)
    (hmore : needsMore (shell.buffer ++ line ++ [.scalar '\n']) = false) :
    shell.enter tracing line =
      ((runSource tracing (shell.buffer ++ line ++ [.scalar '\n']) shell.session).1,
        (runSource tracing (shell.buffer ++ line ++ [.scalar '\n']) shell.session).2.1,
        { session :=
            (runSource tracing (shell.buffer ++ line ++ [.scalar '\n']) shell.session).2.2 }) := by
  have hlineFeed : ("\n" : Text) = [.scalar '\n'] := rfl
  rw [Shell.enter, hlineFeed, hmore]
  rfl

/-- The first portion that fails. -/
theorem Agrees.of_failure (hend : shell.endedBy line = false)
    (hmore : needsMore (shell.buffer ++ line ++ [.scalar '\n']) = false)
    (hrun : shell.session.evaluateAll tracing (fun s v => v.display s)
      (shell.buffer ++ line ++ [.scalar '\n']) = (run, final))
    {e : Failure} (he : run.failure = some e) (rest : List Text) :
    Agrees tracing (line :: rest) shell run final := by
  have henter := shell.enter_of_not_needsMore tracing hmore
  refine ⟨fun hnone => ?_, fun e' text hsome hreport => ?_, fun e' hsome hreport => ?_⟩
  · rw [he] at hnone
    cases hnone
  · obtain rfl := Option.some.inj (he.symm.trans hsome)
    simp only [runSource, hrun, he, hreport] at henter
    have hevents : (run.results.map ShellEvent.echo ++ [ShellEvent.report text]).filter
        ShellEvent.isAnswer = run.results.map .echo ++ [.report text] := by
      rw [List.filter_append, filter_isAnswer_echoes]
      rfl
    have hanswers := answers_converse_of_enter hend henter
    rw [hevents] at hanswers
    refine ⟨[line], rest, (converse tracing rest { session := final }).answers, rfl, ?_⟩
    rw [hanswers, hanswers, converse_of_enter hend henter]
    exact ⟨List.append_nil _, rfl, rfl, List.append_assoc _ _ _⟩
  · obtain rfl := Option.some.inj (he.symm.trans hsome)
    simp only [runSource, hrun, he, hreport] at henter
    rw [converse_of_enter_failure hend henter]
    exact ⟨filter_isAnswer_echoes run.results, rfl, rfl⟩

/-- The conversation over the lines that complete a buffer agrees with the run of the forms that
they are read as. -/
theorem agrees_evaluateForms {buffer : Text} {lines : List Text} {forms : List Value}
    (h : Completes buffer lines forms) (tracing : Bool) (session : Session) :
    Agrees tracing lines { session, buffer }
      (Session.evaluateForms tracing (fun s v => v.display s) forms session).1
      (Session.evaluateForms tracing (fun s v => v.display s) forms session).2 := by
  induction lines generalizing buffer forms session with
  | nil =>
    obtain rfl := h.forms_eq_nil
    exact ⟨fun _ => ⟨rfl, rfl, rfl⟩, nofun, nofun⟩
  | cons line rest ih =>
    have hend := h.not_endedBy session
    cases hmore : needsMore (buffer ++ line ++ [.scalar '\n']) with
    | true =>
      have henter : Shell.enter { session, buffer } tracing line =
          ([].map ShellEvent.echo, none,
            { session, buffer := buffer ++ line ++ [.scalar '\n'] }) := by
        have hlineFeed : ("\n" : Text) = [.scalar '\n'] := rfl
        rw [Shell.enter, hlineFeed, hmore]
        rfl
      exact (ih (h.wait hmore) session).enter hend henter
    | false =>
      obtain ⟨first, last, rfl, hparse, hrest⟩ := h.portion hmore
      rw [Session.evaluateForms_append]
      cases hfirst : session.evaluateForms tracing (fun s v => v.display s) first with
      | mk run next =>
        have hall : session.evaluateAll tracing (fun s v => v.display s)
            (buffer ++ line ++ [.scalar '\n']) = (run, next) := by
          rw [Session.evaluateAll, hparse]
          exact hfirst
        cases hfailure : run.failure with
        | none =>
          have henter := Shell.enter_of_not_needsMore { session, buffer } tracing hmore
          simp only [runSource, hall, hfailure] at henter
          rw [Run.andThen, hfailure]
          exact (ih hrest next).enter hend henter
        | some e =>
          rw [Run.andThen, hfailure]
          exact Agrees.of_failure hend hmore hall hfailure rest

end Conversations

/-- The brackets that are open after lines. -/
def depthAfter (lines : List Text) : Int :=
  bracketDepth (lex (lines.flatMap (· ++ [.scalar '\n']))).tokens

/-- A text that is read as some forms and that the shell can be fed with: no line is `end` where no
bracket is open, and no line ends with a quote mark where no bracket is open. -/
structure Feedable (source : Text) (forms : List Value) : Prop where
  parses : parse source = .ok forms
  noEnd : ∀ (before : List Text) (line : Text) (after : List Text),
    inputLines source = before ++ line :: after → depthAfter before = 0 → line.trim ≠ "end"
  noQuote : ∀ (before : List Text) (line : Text) (after : List Text),
    inputLines source = before ++ line :: after → depthAfter (before ++ [line]) = 0 →
    ∀ t ∈ (lex line).tokens.getLast?, t.kind ≠ .quote

theorem Feedable.completes {source : Text} {forms : List Value} (h : Feedable source forms) :
    Completes [] (inputLines source) forms := by
  obtain ⟨hfailure, hread⟩ := parse_eq_ok_iff.mp h.parses
  have hsame := lex_inputLines hfailure
  rw [← hsame] at hfailure hread
  obtain ⟨hlines, htokens⟩ := lex_flatMap hfailure
  have hdepth : ∀ {before after : List Text}, inputLines source = before ++ after →
      depthAfter before = bracketDepth (lineTokens before) := by
    intro before after heq
    rw [heq, List.flatMap_append] at hfailure
    rw [depthAfter, (lex_flatMap (lex_failure_of_append hfailure)).2]
  refine ⟨Or.inl rfl, rfl, Or.inl rfl, hlines, htokens ▸ hread, fun before line after heq => ?_⟩
  constructor
  · exact fun hbefore => h.noEnd before line after heq (hdepth heq ▸ hbefore)
  · intro hbefore
    have happend : inputLines source = (before ++ [line]) ++ after := by simp [heq]
    have htokens : lineTokens (before ++ [line]) = lineTokens before ++ (lex line).tokens := by
      simp [lineTokens]
    refine h.noQuote before line after heq ?_
    rw [hdepth happend, htokens]
    exact hbefore

/-- The lines may be entered without their carriage returns. -/
theorem Completes.withoutReturns {lines : List Text} {forms : List Value}
    (h : Completes [] lines forms) : Completes [] (lines.map withoutReturns) forms := by
  have hlex : ∀ {l}, l ∈ lines → lex (Shell.withoutReturns l) = lex l :=
    fun hl => lex_withoutReturns (h.lexed _ hl)
  have htokens : ∀ {ls : List Text}, (∀ l ∈ ls, l ∈ lines) →
      lineTokens (ls.map Shell.withoutReturns) = lineTokens ls := by
    intro ls hls
    rw [lineTokens, lineTokens, List.flatMap_map]
    exact List.flatMap_congr fun l hl => by rw [hlex (hls l hl)]
  -- A line that is entered comes from a line at the same place.
  have hplace : ∀ {before line after},
      lines.map Shell.withoutReturns = before ++ line :: after →
      ∃ before' line' after', lines = before' ++ line' :: after' ∧
        lineTokens before = lineTokens before' ∧ line = Shell.withoutReturns line' := by
    intro before line after heq
    obtain ⟨before', rest, rfl, rfl, hrest⟩ := List.map_eq_append_iff.mp heq
    obtain ⟨line', after', rfl, rfl, rfl⟩ := List.map_eq_cons_iff.mp hrest
    exact ⟨before', line', after', rfl, htokens (by simp +contextual), rfl⟩
  refine ⟨Or.inl rfl, rfl, Or.inl rfl, fun l hl => ?_, ?_, fun before line after heq => ?_⟩
  · obtain ⟨line, hline, rfl⟩ := List.mem_map.mp hl
    rw [hlex hline]
    exact h.lexed line hline
  · rw [htokens fun _ hl => hl]
    exact h.read
  · obtain ⟨before', line', after', rfl, hbefore, rfl⟩ := hplace heq
    have hfits := h.fits before' line' after' rfl
    rw [hbefore]
    constructor
    · rw [trim_withoutReturns]
      exact hfits.ne_end
    · rw [hlex (by simp)]
      exact hfits.noQuote

/-- The interactive loop agrees with the evaluation of the whole text.  Fed with the lines of a
text, the shell echoes what the evaluation of the text yields, each value as it is when it is
produced, up to the first failure.  That is reported first of all failures and leaves the session
that it leaves in the evaluation of the text; without a failure the final sessions are the same.
If every value can be shown, then all this is the evaluation of the text as it is without
showing. -/
theorem converse_agrees {source : Text} {forms : List Value} (h : Feedable source forms)
    {lines : List Text}
    (hlines : lines = inputLines source ∨ lines = (inputLines source).map withoutReturns)
    (tracing : Bool) {session final : Session} {run : Run Text}
    (hrun : session.evaluateAll tracing (fun s v => v.display s) source = (run, final)) :
    Agrees tracing lines { session } run final ∧
    ∀ shown, (session.produce tracing source).1.results.mapM
        (fun produced => produced.2.display produced.1) = .ok shown →
      run = { results := shown, failure := (session.produce tracing source).1.failure } ∧
        final = (session.produce tracing source).2 := by
  have hevaluate : ∀ {α : Type} (observe : Store → Value → Except Failure α),
      session.evaluateAll tracing observe source =
        Session.evaluateForms tracing observe forms session := by
    intro α observe
    rw [Session.evaluateAll, h.parses]
  rw [hevaluate] at hrun
  constructor
  · have hcompletes : Completes [] lines forms := by
      rcases hlines with rfl | rfl
      · exact h.completes
      · exact h.completes.withoutReturns
    have hagrees := agrees_evaluateForms hcompletes tracing session
    rwa [hrun] at hagrees
  · intro shown hshown
    rw [Session.produce, hevaluate] at hshown ⊢
    have hobserved := Session.evaluateForms_of_mapM (fun s v => v.display s) hshown
    rw [hrun] at hobserved
    exact Prod.mk.inj hobserved

/-- A definition that takes two lines, and a call that fails. -/
def splitDefinition : Text :=
  "(define x\n  1)\n(car x)"

/-- What holds of every line and the lines before it. -/
theorem forall_split {P : List Text → Text → Prop} {lines : List Text}
    (h : ∀ i, (hi : i < lines.length) → P (lines.take i) lines[i]) (before : List Text)
    (line : Text) (after : List Text) (heq : lines = before ++ line :: after) : P before line := by
  subst heq
  have hline := h before.length (by simp)
  simpa using hline

/-- The failing call is reported after the echo of the definition. -/
theorem converse_agrees_splitDefinition : ∃ forms run final,
    Feedable splitDefinition forms ∧
      Session.empty.evaluateAll false (fun s v => v.display s) splitDefinition = (run, final) ∧
      Agrees false (inputLines splitDefinition) { session := Session.empty } run final := by
  have hread : (parse splitDefinition).toOption.isSome = true := by decide +kernel
  cases hparse : parse splitDefinition with
  | error e =>
    rw [hparse] at hread
    cases hread
  | ok forms =>
    have hfeedable : Feedable splitDefinition forms := by
      refine ⟨hparse, forall_split ?_, ?_⟩
      · decide +kernel
      · refine forall_split (P := fun before line => depthAfter (before ++ [line]) = 0 →
          ∀ t ∈ (lex line).tokens.getLast?, t.kind ≠ .quote) ?_
        decide +kernel
    cases hrun : Session.empty.evaluateAll false (fun s v => v.display s) splitDefinition with
    | mk run final =>
      have hagrees := converse_agrees hfeedable (Or.inl rfl) false hrun
      exact ⟨forms, run, final, hfeedable, rfl, hagrees.1⟩

end Shell

end SmallLisp
