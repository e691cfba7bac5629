import SmallLisp.Proofs.Reading.Writing
import SmallLisp.Proofs.Shell
/-!
What becomes of the lines that a shell is fed with.

A shell is followed with its history: the lines that it has read, the texts that it has run and what
it has written, with the prompt as it is set from line to line.  Main statement: at any time the
texts run so far and the buffer are the lines read so far, no text could have been run before its
last line, each was run once and in order, and the buffer is what the prompt says.
-/

namespace SmallLisp

/-- Where a shell reads its lines. -/
inductive LineSource
  /-- A terminal, which gives a line without its line feed. -/
  | terminal
  /-- A stream, whose lines are taken without the carriage returns and line feeds at their ends. -/
  | stream
deriving DecidableEq, Repr

namespace LineSource

/-- The characters that are taken off the end of a line. -/
def takesOff : LineSource → CodePoint → Bool
  | .terminal, c => c == .scalar '\n'
  | .stream, c => c == .scalar '\r' || c == .scalar '\n'

/-- A line as the shell gets it.  A line that is read has no line feed but at its end. -/
def asRead (source : LineSource) (line : Text) : Text :=
  Text.stripEndBy source.takesOff line

theorem takesOff_lineFeed (source : LineSource) : source.takesOff (.scalar '\n') = true := by
  cases source <;> rfl

theorem asRead_concat_lineFeed (source : LineSource) (line : Text) :
    source.asRead (line ++ [.scalar '\n']) = source.asRead line := by
  rw [asRead, Text.stripEndBy, List.reverse_append]
  simp [takesOff_lineFeed, asRead, Text.stripEndBy]

theorem lineFeed_not_mem_asRead (source : LineSource) {line : Text}
    (h : .scalar '\n' ∉ line.dropLast) : .scalar '\n' ∉ source.asRead line := by
  rcases List.eq_nil_or_concat line with rfl | ⟨before, last, rfl⟩
  · simp [asRead, Text.stripEndBy]
  · rw [List.concat_eq_append, List.dropLast_concat] at h
    rw [List.concat_eq_append, asRead, Text.stripEndBy, List.reverse_append, List.reverse_singleton,
      List.singleton_append, List.dropWhile_cons, List.mem_reverse]
    split_ifs with hlast
    · intro hmem
      exact h (List.mem_reverse.mp ((List.dropWhile_sublist _).subset hmem))
    · have hne : CodePoint.scalar '\n' ≠ last := by
        rintro rfl
        exact hlast source.takesOff_lineFeed
      simp [hne, h]

theorem dropWhile_congr {α : Type} {p q : α → Bool} {items : List α}
    (h : ∀ item ∈ items, p item = q item) : items.dropWhile p = items.dropWhile q := by
  induction items with
  | nil => rfl
  | cons item items ih =>
    obtain ⟨hitem, hitems⟩ := List.forall_mem_cons.mp h
    rw [List.dropWhile_cons, List.dropWhile_cons, hitem, ih hitems]

/-- Without a line feed, what is taken off a line are the carriage returns of a stream. -/
theorem asRead_of_lineFeed_not_mem {line : Text} (h : .scalar '\n' ∉ line) :
    terminal.asRead line = line ∧ stream.asRead line = Shell.withoutReturns line := by
  have hne : ∀ c ∈ line.reverse, (c == .scalar '\n') = false := by
    intro c hc
    rw [beq_eq_false_iff_ne]
    rintro rfl
    exact h (List.mem_reverse.mp hc)
  constructor
  · have hnone : line.reverse.dropWhile terminal.takesOff = line.reverse := by
      cases hlast : line.reverse with
      | nil => rfl
      | cons c rest => exact List.dropWhile_cons_of_neg (Bool.eq_false_iff.mp
          (hne c (hlast ▸ List.mem_cons_self)))
    rw [asRead, Text.stripEndBy, hnone, List.reverse_reverse]
  · refine congrArg List.reverse (dropWhile_congr fun c hc => ?_)
    rw [takesOff, hne c hc, Bool.or_false]

theorem lineFeed_not_mem_of_mem_splitOn {input piece : Text}
    (h : piece ∈ input.splitOn (.scalar '\n')) : .scalar '\n' ∉ piece := by
  induction input generalizing piece with
  | nil =>
    obtain rfl : piece = [] := by simpa using h
    exact List.not_mem_nil
  | cons c rest ih =>
    rw [List.splitOn_cons_eq_if_modifyHead] at h
    split_ifs at h with hc
    · rcases List.mem_cons.mp h with rfl | hrest
      · exact List.not_mem_nil
      · exact ih hrest
    · cases hsplit : rest.splitOn (.scalar '\n') with
      | nil => simp [hsplit] at h
      | cons first others =>
        rw [hsplit, List.modifyHead_cons] at h
        rcases List.mem_cons.mp h with rfl | hothers
        · rw [List.mem_cons, not_or]
          exact ⟨fun heq => hc (by simp [heq]), ih (hsplit ▸ List.mem_cons_self)⟩
        · exact ih (hsplit ▸ List.mem_cons_of_mem _ hothers)

theorem lineFeed_not_mem_of_mem_inputLines {input line : Text}
    (h : line ∈ Shell.inputLines input) : .scalar '\n' ∉ line := by
  rw [Shell.inputLines] at h
  split at h
  · exact lineFeed_not_mem_of_mem_splitOn ((List.dropLast_sublist _).subset h)
  · exact lineFeed_not_mem_of_mem_splitOn h

/-- The lines of an input as a shell gets them: from a terminal as they are, and from a stream
without their carriage returns. -/
def linesOf (source : LineSource) (input : Text) : List Text :=
  match source with
  | .terminal => Shell.inputLines input
  | .stream => (Shell.inputLines input).map Shell.withoutReturns

/-- The lines of an input are read one by one, each up to its line feed. -/
theorem linesOf_eq_map_asRead (source : LineSource) (input : Text) :
    source.linesOf input =
      ((Shell.inputLines input).map (· ++ [.scalar '\n'])).map source.asRead := by
  have hlines : ∀ line ∈ Shell.inputLines input, _ := fun line hline =>
    asRead_of_lineFeed_not_mem (lineFeed_not_mem_of_mem_inputLines hline)
  have hread : source.asRead ∘ (· ++ [.scalar '\n']) = source.asRead :=
    funext source.asRead_concat_lineFeed
  rw [List.map_map, hread]
  cases source with
  | terminal =>
    rw [List.map_congr_left fun line hline => (hlines line hline).1, List.map_id']
    rfl
  | stream => exact List.map_congr_left fun line hline => (hlines line hline).2.symm

end LineSource

namespace Shell

/-- A shell with the prompt that it has set, and its history: the lines that it has read, the texts
that it has run, what it has written, and the failures that it has not reported. -/
structure Transcript where
  shell : Shell
  continuing : Bool := false
  lines : List Text := []
  chunks : List Text := []
  written : List ShellEvent := []
  escaped : List Failure := []

namespace Transcript

/-- A shell that has read nothing. -/
def new (session : Session) : Transcript :=
  { shell := { session } }

/-- What the shell has to read and has not run, with one more line. -/
def pending (source : LineSource) (t : Transcript) (line : Text) : Text :=
  t.shell.buffer ++ source.asRead line ++ [.scalar '\n']

/-- One more line that does not end the conversation.  Before a text is run the buffer is emptied
and the prompt is set back, so that a failure finds them so. -/
def feed (tracing : Bool) (source : LineSource) (t : Transcript) (line : Text) : Transcript :=
  let chunk := t.pending source line
  let asked := { t with
    lines := t.lines ++ [line], written := t.written ++ [ShellEvent.prompt t.continuing] }
  if needsMore chunk then
    { asked with shell := { t.shell with buffer := chunk }, continuing := true }
  else
    let (events, failure, session) := runSource tracing chunk t.shell.session
    { asked with
      shell := { session }
      continuing := false
      chunks := t.chunks ++ [chunk]
      written := asked.written ++ events
      escaped := t.escaped ++ failure.toList }

end Transcript

/-- What a shell can come to by lines that do not end the conversation. -/
inductive Reached (tracing : Bool) (source : LineSource) (session : Session) : Transcript → Prop
  | new : Reached tracing source session (.new session)
  | feed {t : Transcript} {line : Text} (ht : Reached tracing source session t)
      (hline : .scalar '\n' ∉ line.dropLast)
      (hend : t.shell.endedBy (source.asRead line) = false) :
      Reached tracing source session (t.feed tracing source line)

section Waiting

/-- Whole lines, after each of which more input is needed. -/
structure Waits (buffer : Text) : Prop where
  endsLine : buffer.EndsLine
  more : ∀ before after, buffer = before ++ .scalar '\n' :: after →
    needsMore (before ++ [.scalar '\n']) = true

/-- Whole lines that need no more input, but do so after each line before the last. -/
structure IsChunk (chunk : Text) : Prop where
  complete : needsMore chunk = false
  more : ∀ before after, chunk = before ++ .scalar '\n' :: after → after ≠ [] →
    needsMore (before ++ [.scalar '\n']) = true

theorem waits_nil : Waits [] where
  endsLine := .inl rfl
  more := by simp

variable {buffer line : Text}

theorem Waits.needsMore (h : Waits buffer) (hbuffer : buffer ≠ []) :
    needsMore buffer = true := by
  obtain ⟨line, rfl⟩ := h.endsLine.resolve_left hbuffer
  exact h.more line [] rfl

/-- A line feed before the end of one more line is one of the lines before. -/
theorem Waits.more_of_concat (h : Waits buffer) (hline : .scalar '\n' ∉ line)
    {before after : Text}
    (hsplit : buffer ++ line ++ [.scalar '\n'] = before ++ .scalar '\n' :: after)
    (hafter : after ≠ []) : SmallLisp.needsMore (before ++ [.scalar '\n']) = true := by
  obtain ⟨rest, last, rfl⟩ := (List.eq_nil_or_concat after).resolve_left hafter
  rw [List.concat_eq_append, ← List.cons_append, ← List.append_assoc] at hsplit
  obtain ⟨hfront, -⟩ := List.append_inj' hsplit rfl
  -- The new line has no line feed in it, so that this one lies in the buffer.
  rcases List.append_eq_append_iff.mp hfront with ⟨more, -, hrest⟩ | ⟨more, hbuffer, hrest⟩
  · exact absurd (hrest ▸ List.mem_append_right more List.mem_cons_self) hline
  · cases more with
    | nil =>
      rw [List.nil_append] at hrest
      exact absurd (hrest ▸ List.mem_cons_self) hline
    | cons c more =>
      obtain ⟨rfl, -⟩ := List.cons.inj hrest
      exact h.more before more hbuffer

theorem Waits.concat (h : Waits buffer) (hline : .scalar '\n' ∉ line)
    (hmore : SmallLisp.needsMore (buffer ++ line ++ [.scalar '\n']) = true) :
    Waits (buffer ++ line ++ [.scalar '\n']) where
  endsLine := .inr ⟨_, rfl⟩
  more := by
    intro before after hsplit
    by_cases hafter : after = []
    · rw [hafter] at hsplit
      rwa [← hsplit]
    · exact h.more_of_concat hline hsplit hafter

theorem Waits.isChunk (h : Waits buffer) (hline : .scalar '\n' ∉ line)
    (hmore : SmallLisp.needsMore (buffer ++ line ++ [.scalar '\n']) = false) :
    IsChunk (buffer ++ line ++ [.scalar '\n']) :=
  ⟨hmore, fun _ _ => h.more_of_concat hline⟩

theorem isGap_of_forall_isBlank {gap : Text} (h : ∀ c ∈ gap, Text.isBlank c = true) :
    gap.IsGap := by
  induction gap with
  | nil => exact .nil
  | cons c gap ih =>
    obtain ⟨hc, hgap⟩ := List.forall_mem_cons.mp h
    exact .blank hc (ih hgap)

/-- A line that is `end` but for white space is read as this word. -/
theorem lex_of_trim_eq_end (h : line.trim = "end") :
    lex line = { tokens := [⟨.symbol, "end"⟩], failure := none } := by
  obtain ⟨blanks, hdrop, hblanks⟩ := Text.exists_dropWhile_eq_trim_append line
  have hline : line = line.takeWhile Text.isBlank ++ (("end" : Text) ++ blanks) := by
    rw [← h, ← hdrop, List.takeWhile_append_dropWhile]
  have hlast := isGap_of_forall_isBlank hblanks
  have hfirst := isGap_of_forall_isBlank fun c hc => List.mem_takeWhile_imp (l := line) hc
  have hname : Text.IsAtom "end" := by decide
  have hends : EndsAtom blanks := by
    have happend : EndsAtom (blanks ++ []) := hlast.endsAtom_append (by simp [EndsAtom])
    rwa [List.append_nil] at happend
  have hspells := Spells.gap_append hlast Spells.nil
  rw [List.append_nil] at hspells
  rw [hline]
  exact (Spells.gap_append hfirst (hspells.atom_append hname hends)).lex_eq

/-- In a text that waits, a line `end` is more of the text. -/
theorem Waits.needsMore_end (h : Waits buffer) (hbuffer : buffer ≠ []) (hend : line.trim = "end") :
    SmallLisp.needsMore (buffer ++ line ++ [.scalar '\n']) = true := by
  have hwaiting := h.needsMore hbuffer
  have hline := lex_of_trim_eq_end hend
  have hlast : lex (line ++ [.scalar '\n']) = lex line := lex_lineFeed (by rw [hline])
  rw [SmallLisp.needsMore, Bool.and_eq_true, Option.isNone_iff_eq_none, decide_eq_true_eq]
    at hwaiting ⊢
  obtain ⟨hfailure, hdepth⟩ := hwaiting
  obtain ⟨htokens, hfails⟩ := lex_append h.endsLine hfailure (line ++ [.scalar '\n'])
  rw [hlast, hline] at htokens hfails
  have hname : bracketDepth [⟨.symbol, "end"⟩] = 0 := rfl
  rw [List.append_assoc, hfails, htokens, bracketDepth_append, hname, Int.add_zero]
  exact ⟨rfl, hdepth⟩

end Waiting

section Steps

variable {tracing : Bool} {source : LineSource} {session : Session} {t : Transcript} {line : Text}

theorem feed_of_needsMore (hmore : needsMore (t.pending source line) = true) :
    t.feed tracing source line =
      { t with
        shell := { t.shell with buffer := t.pending source line }
        continuing := true
        lines := t.lines ++ [line]
        written := t.written ++ [.prompt t.continuing] } := by
  rw [Transcript.feed, if_pos hmore]

/-- A line that completes a text: the text is run in the session, and nothing else. -/
theorem feed_of_not_needsMore (hmore : needsMore (t.pending source line) = false)
    {events : List ShellEvent} {failure : Option Failure} {next : Session}
    (hrun : runSource tracing (t.pending source line) t.shell.session = (events, failure, next)) :
    t.feed tracing source line =
      { shell := { session := next }
        lines := t.lines ++ [line]
        chunks := t.chunks ++ [t.pending source line]
        written := t.written ++ [.prompt t.continuing] ++ events
        escaped := t.escaped ++ failure.toList } := by
  rw [Transcript.feed, if_neg (Bool.eq_false_iff.mp hmore), hrun]

/-- The session after texts have been run, each once and in order. -/
def sessionAfter (tracing : Bool) (session : Session) (chunks : List Text) : Session :=
  chunks.foldl (fun session chunk => (runSource tracing chunk session).2.2) session

theorem sessionAfter_concat (session : Session) (chunks : List Text) (chunk : Text) :
    sessionAfter tracing session (chunks ++ [chunk]) =
      (runSource tracing chunk (sessionAfter tracing session chunks)).2.2 := by
  rw [sessionAfter, List.foldl_append]
  rfl

/-- A history that loses nothing: the texts that were run and the buffer are the lines, each text
was run as soon as it was complete, the buffer waits, and the prompt tells of it. -/
structure Keeps (tracing : Bool) (source : LineSource) (session : Session) (t : Transcript) :
    Prop where
  lines : t.chunks.flatten ++ t.shell.buffer =
    t.lines.flatMap fun line => source.asRead line ++ [.scalar '\n']
  prompt : t.continuing = !t.shell.buffer.isEmpty
  waits : Waits t.shell.buffer
  chunks : ∀ chunk ∈ t.chunks, IsChunk chunk
  session : t.shell.session = sessionAfter tracing session t.chunks

theorem keeps_new (tracing : Bool) (source : LineSource) (session : Session) :
    Keeps tracing source session (.new session) where
  lines := rfl
  prompt := rfl
  waits := waits_nil
  chunks := by simp [Transcript.new]
  session := rfl

theorem Keeps.feed (h : Keeps tracing source session t) (hline : .scalar '\n' ∉ line.dropLast) :
    Keeps tracing source session (t.feed tracing source line) := by
  have hread := source.lineFeed_not_mem_asRead hline
  have hlines : t.chunks.flatten ++ t.pending source line =
      (t.lines ++ [line]).flatMap fun line => source.asRead line ++ [.scalar '\n'] := by
    rw [List.flatMap_append, ← h.lines, List.flatMap_singleton, Transcript.pending]
    simp only [List.append_assoc]
  cases hmore : needsMore (t.pending source line) with
  | true =>
    rw [feed_of_needsMore hmore]
    refine ⟨hlines, ?_, h.waits.concat hread hmore, h.chunks, h.session⟩
    simp [Transcript.pending]
  | false =>
    cases hrun : runSource tracing (t.pending source line) t.shell.session with
    | mk events outcome =>
      obtain ⟨failure, next⟩ := outcome
      rw [feed_of_not_needsMore hmore hrun]
      refine ⟨?_, rfl, waits_nil, ?_, ?_⟩
      · rw [← hlines, List.flatten_append, List.flatten_singleton, List.append_nil]
      · exact List.forall_mem_append.mpr
          ⟨h.chunks, List.forall_mem_singleton.mpr (h.waits.isChunk hread hmore)⟩
      · rw [sessionAfter_concat, ← h.session, hrun]

theorem Reached.keeps (h : Reached tracing source session t) : Keeps tracing source session t := by
  induction h with
  | new => exact keeps_new tracing source session
  | feed _ hline _ ih => exact ih.feed hline

end Steps

section Conversations

variable {tracing : Bool} {source : LineSource} {session : Session} {t : Transcript} {line : Text}

/-- A shell that is followed with its history enters lines as one without it. -/
theorem exists_enter (hprompt : t.continuing = !t.shell.buffer.isEmpty) (tracing : Bool)
    (source : LineSource) (line : Text) : ∃ events failure,
      t.shell.enter tracing (source.asRead line) =
        (events, failure, (t.feed tracing source line).shell) ∧
      (t.feed tracing source line).lines = t.lines ++ [line] ∧
      (t.feed tracing source line).written = t.written ++ t.shell.promptEvent :: events ∧
      (t.feed tracing source line).escaped = t.escaped ++ failure.toList := by
  rw [promptEvent, ← hprompt]
  cases hmore : needsMore (t.pending source line) with
  | true =>
    rw [feed_of_needsMore hmore]
    refine ⟨[], none, ?_, rfl, rfl, (List.append_nil _).symm⟩
    exact if_pos hmore
  | false =>
    cases hrun : runSource tracing (t.pending source line) t.shell.session with
    | mk events outcome =>
      obtain ⟨failure, next⟩ := outcome
      rw [feed_of_not_needsMore hmore hrun]
      refine ⟨events, failure, ?_, rfl, List.append_assoc _ _ _, rfl⟩
      rw [Transcript.pending] at hmore hrun
      rw [enter_of_not_needsMore t.shell tracing hmore, hrun]

/-- Up to a state without a failure that was not reported, a conversation is the history of it. -/
theorem Reached.converse_eq (h : Reached tracing source session t) (hescaped : t.escaped = [])
    (rest : List Text) :
    converse tracing (t.lines.map source.asRead ++ rest) { session } =
      { converse tracing rest t.shell with
        events := t.written ++ (converse tracing rest t.shell).events } := by
  -- What is fed last is the first of the lines that the conversation goes on with.
  induction h generalizing rest with
  | new => rfl
  | @feed t line ht _ hend ih =>
    obtain ⟨events, failure, henter, hlines, hwritten, hfailure⟩ :=
      exists_enter ht.keeps.prompt tracing source line
    rw [hfailure, List.append_eq_nil_iff, Option.toList_eq_nil_iff] at hescaped
    obtain ⟨hbefore, rfl⟩ := hescaped
    rw [hlines, List.map_append, List.map_singleton, List.append_assoc, List.singleton_append,
      ih hbefore, converse_of_enter hend henter, hwritten, List.append_assoc]

/-- The conversation over an input is that of the shell that has been fed with its lines. -/
theorem Reached.converse_linesOf (h : Reached tracing source session t) (hescaped : t.escaped = [])
    {input : Text} (hlines : t.lines = (inputLines input).map (· ++ [.scalar '\n'])) :
    converse tracing (source.linesOf input) { session } =
      { converse tracing [] t.shell with
        events := t.written ++ (converse tracing [] t.shell).events } := by
  have hfed := h.converse_eq hescaped []
  rwa [List.append_nil, hlines, ← source.linesOf_eq_map_asRead] at hfed

/-- A failure that is not reported ends the conversation in the state that the text leaves. -/
theorem Reached.converse_eq_of_escaped (h : Reached tracing source session t)
    (hescaped : t.escaped = []) (hend : t.shell.endedBy (source.asRead line) = false) {e : Failure}
    (hfails : (t.feed tracing source line).escaped = [e]) (rest : List Text) :
    converse tracing (t.lines.map source.asRead ++ source.asRead line :: rest) { session } =
      { events := (t.feed tracing source line).written, failure := some e,
        session := (t.feed tracing source line).shell.session } := by
  obtain ⟨events, failure, henter, -, hwritten, hfailure⟩ :=
    exists_enter h.keeps.prompt tracing source line
  rw [hfailure, hescaped, List.nil_append, Option.toList_eq_singleton_iff] at hfails
  rw [hfails] at henter
  rw [h.converse_eq hescaped, converse_of_enter_failure hend henter, hwritten]

theorem endedBy_eq_true_iff {shell : Shell} :
    shell.endedBy line = true ↔ shell.buffer = [] ∧ line.trim = "end" := by
  rw [endedBy, Bool.and_eq_true, List.isEmpty_iff, decide_eq_true_eq]

/-- Feeding loses no line and runs no text twice.  In every state that a shell can come to, the
texts run so far and the buffer are the lines so far, each as it is read and with one line feed; the
prompt is that of a continuation if and only if the buffer is not empty, and then the buffer needs
more input; a text that was run needs no more input, but does so after each line before the last;
and the session is that after these texts, each run once and in order.  A line `end` ends the
conversation if and only if the buffer is empty, and belongs to the buffer otherwise.  Conversations
go through these states, up to a failure that is not reported. -/
theorem reached_loses_nothing (h : Reached tracing source session t) :
    t.chunks.flatten ++ t.shell.buffer =
      t.lines.flatMap (fun line => source.asRead line ++ [.scalar '\n']) ∧
    (t.continuing = true ↔ t.shell.buffer ≠ []) ∧
    (t.shell.buffer ≠ [] → needsMore t.shell.buffer = true) ∧
    (∀ chunk ∈ t.chunks, IsChunk chunk) ∧
    t.shell.session = sessionAfter tracing session t.chunks ∧
    (∀ line, (source.asRead line).trim = "end" →
      (t.shell.endedBy (source.asRead line) = true ↔ t.shell.buffer = []) ∧
      (t.shell.buffer = [] → ∀ rest, converse tracing (source.asRead line :: rest) t.shell =
        { events := [.prompt false], session := t.shell.session }) ∧
      (t.shell.buffer ≠ [] → (t.feed tracing source line).shell =
        { t.shell with buffer := t.pending source line })) ∧
    (t.escaped = [] →
      (∀ rest, converse tracing (t.lines.map source.asRead ++ rest) { session } =
        { converse tracing rest t.shell with
          events := t.written ++ (converse tracing rest t.shell).events }) ∧
      ∀ line e, t.shell.endedBy (source.asRead line) = false →
        (t.feed tracing source line).escaped = [e] →
        ∀ rest, converse tracing (t.lines.map source.asRead ++ source.asRead line :: rest)
          { session } =
            { events := (t.feed tracing source line).written, failure := some e,
              session := (t.feed tracing source line).shell.session }) := by
  obtain ⟨hlines, hprompt, hwaits, hchunks, hsession⟩ := h.keeps
  refine ⟨hlines, by simp [hprompt], hwaits.needsMore, hchunks, hsession, fun line hend => ?_,
    fun hescaped => ⟨h.converse_eq hescaped, fun line e hgoes hfails => ?_⟩⟩
  · have hiff : t.shell.endedBy (source.asRead line) = true ↔ t.shell.buffer = [] := by
      rw [endedBy_eq_true_iff]
      exact and_iff_left hend
    refine ⟨hiff, fun hbuffer rest => ?_, fun hbuffer => ?_⟩
    · rw [converse, hiff.mpr hbuffer, promptEvent, hbuffer]
      rfl
    · rw [feed_of_needsMore (hwaits.needsMore_end hbuffer hend)]
  · exact h.converse_eq_of_escaped hescaped hgoes hfails

/-- A form on two lines of a stream, and a line that opens another one. -/
def openForms : Transcript :=
  (((Transcript.new Session.empty).feed false .stream "(quote\r\n").feed false .stream
    "end)\n").feed false .stream "(\n"

/-- The first form has been run, and a line `end` would belong to the second.  The conversation
over the three lines writes what was written up to there, and ends at the prompt of a
continuation. -/
theorem reached_loses_nothing_openForms :
    Reached false .stream Session.empty openForms ∧ openForms.chunks = ["(quote\nend)\n"] ∧
      openForms.chunks.flatten ++ openForms.shell.buffer = "(quote\nend)\n(\n" ∧
      openForms.continuing = true ∧ openForms.shell.endedBy "end" = false ∧
      (converse false (LineSource.stream.linesOf "(quote\r\nend)\n(\n")
        { session := Session.empty }).events =
          openForms.written ++ [.prompt true, .farewell] := by
  have hreached : Reached false .stream Session.empty openForms := by
    refine .feed (.feed (.feed .new ?_ ?_) ?_ ?_) ?_ ?_
    all_goals decide +kernel
  have hbuffer : openForms.shell.buffer ≠ [] := by decide +kernel
  obtain ⟨hlines, hprompt, -, -, -, hend, -⟩ := reached_loses_nothing hreached
  refine ⟨hreached, by decide +kernel, ?_, hprompt.mpr hbuffer, ?_, ?_⟩
  · rw [hlines]
    decide +kernel
  · rw [Bool.eq_false_iff]
    exact fun hends => hbuffer ((hend "end" (by decide)).1.mp hends)
  · rw [hreached.converse_linesOf (by decide +kernel) (by decide +kernel)]
    exact congrArg (openForms.written ++ ·) (by decide +kernel)

/-- Two lines of a terminal, the first with a carriage return at its end. -/
def returnedLine : Transcript :=
  ((Transcript.new Session.empty).feed false .terminal "(\r\n").feed false .terminal "\"\n"

/-- The text that is run has the carriage return, which a stream would have lost. -/
theorem carriageReturn_kept_at_terminal :
    Reached false .terminal Session.empty returnedLine ∧
      returnedLine.lines = ["(\r\n", "\"\n"] ∧
      returnedLine.chunks.flatten ++ returnedLine.shell.buffer = "(\r\n\"\n" ∧
      returnedLine.chunks.flatten ++ returnedLine.shell.buffer ≠
        returnedLine.lines.flatMap fun line => LineSource.stream.asRead line ++ [.scalar '\n'] := by
  refine ⟨.feed (.feed .new ?_ ?_) ?_ ?_, rfl, ?_, ?_⟩
  all_goals decide +kernel

end Conversations

end Shell

end SmallLisp
