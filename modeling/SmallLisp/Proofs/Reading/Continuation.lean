import SmallLisp.Proofs.Reading.Machine
import SmallLisp.Proofs.Reading.Writing
/-!
What more input can do for a text.

The lines after a text add tokens to its own.  They can close what the text leaves open, but they
change nothing about a token or a character at which reading has stopped.  Main statement: a text
that waits for more input is not read, a text that more input completes waits for it or ends with a
quote mark, and a failure before the end of a text is the failure of all its continuations.
-/

namespace SmallLisp

variable {text : Text}

/-- The failures that a reader meets at the end of the tokens: a quote mark has nothing after it, or
a bracket is open. -/
def Failure.IsAtEnd (e : Failure) : Prop :=
  e = .fault .nothingQuoted ∨ ∃ opener, e = .fault (.unclosed opener)

/-- The lines after a text leave its tokens as they are. -/
theorem lex_continued (h : (lex text).failure = none) (rest : Text) :
    (lex (text ++ "\n" ++ rest)).tokens = (lex text).tokens ++ (lex rest).tokens ∧
      ((lex (text ++ "\n" ++ rest)).failure = none ↔ (lex rest).failure = none) := by
  have hsame : lex (text ++ "\n") = lex text := lex_lineFeed h
  have hended : (lex (text ++ "\n")).failure = none := by rw [hsame, h]
  have hends : Text.EndsLine (text ++ "\n") := Or.inr ⟨text, rfl⟩
  have happend := lex_append hends hended rest
  rwa [hsame] at happend

theorem lex_append_of_failure (h : (lex text).failure ≠ none) (rest : Text) :
    lex (text ++ rest) = lex text := by
  rw [lex_failure] at h
  rw [lex, lex, Scan.run_append, Scan.run_of_failure h]

namespace Reader

theorem isAtEnd_of_finish {r : Reader} {e : Failure} (h : r.finish = .error e) : e.IsAtEnd := by
  obtain ⟨done, contexts⟩ := r
  rcases contexts with _ | ⟨_ | ⟨opener, closer, items⟩, outer⟩
  · cases h
  · cases h
    exact Or.inl rfl
  · cases h
    exact Or.inr ⟨opener, rfl⟩

/-- Where a reader has to wait although no bracket is open, its last token was a quote mark. -/
theorem kind_getLast?_of_open {r : Reader} {ts : List Token} (h : Reader.run {} ts = .ok r)
    (hopen : r.contexts ≠ []) (hbrackets : r.openBrackets = 0) :
    ∃ t, ts.getLast? = some t ∧ t.kind = .quote := by
  rcases List.eq_nil_or_concat ts with rfl | ⟨before, t, rfl⟩
  · cases h
    exact absurd rfl hopen
  · rw [List.concat_eq_append] at h ⊢
    refine ⟨t, List.getLast?_concat, ?_⟩
    by_contra hquote
    exact hopen (contexts_eq_nil h hbrackets hquote)

end Reader

/-- What can be read has as many closing as opening brackets. -/
theorem bracketDepth_of_parse {vs : List Value} (h : parse text = .ok vs) :
    bracketDepth (lex text).tokens = 0 := by
  obtain ⟨-, done, hrun, -⟩ := parse_eq_ok_iff.mp h
  have hbrackets := Reader.openBrackets_run hrun
  simpa [Reader.openBrackets, Reader.openings] using hbrackets.symm

theorem parse_ne_ok_of_needsMore (h : needsMore text = true) (vs : List Value) :
    parse text ≠ .ok vs := by
  intro hread
  rw [needsMore, bracketDepth_of_parse hread] at h
  simp at h

/-- A text that more input completes waits for it, or ends with a quote mark. -/
theorem needsMore_of_continued {e : Failure} (h : parse text = .error e) {rest : Text}
    {vs : List Value} (hrest : parse (text ++ "\n" ++ rest) = .ok vs) :
    needsMore text = true ∨ ∃ t, (lex text).tokens.getLast? = some t ∧ t.kind = .quote := by
  obtain ⟨hfailure, done, hrun, -⟩ := parse_eq_ok_iff.mp hrest
  rw [List.append_assoc] at hfailure
  have hscanned := lex_failure_of_append hfailure
  rw [(lex_continued hscanned rest).1] at hrun
  obtain ⟨mid, hmid, -⟩ := Reader.run_append_eq_ok hrun
  have hopen : mid.contexts ≠ [] := by
    intro hclosed
    rw [parse_eq_run, hmid, hscanned] at h
    simp [bind, Except.bind, Reader.finish, hclosed, atEnd, Except.map] at h
  by_cases hbrackets : mid.openBrackets = 0
  · exact Or.inr (Reader.kind_getLast?_of_open hmid hopen hbrackets)
  · left
    have hdepth := Reader.openBrackets_run hmid
    have hnone : Reader.openBrackets {} = 0 := rfl
    have hpositive : 0 < bracketDepth (lex text).tokens := by omega
    simp [needsMore, hscanned, hpositive]

/-- A failure that does not wait for more input is final. -/
theorem parse_continued_of_error {e : Failure} (h : parse text = .error e) (he : ¬ e.IsAtEnd)
    (rest : Text) : parse (text ++ "\n" ++ rest) = .error e := by
  by_cases hscanned : (lex text).failure = none
  · rw [parse_eq_run] at h ⊢
    rw [hscanned] at h
    rw [(lex_continued hscanned rest).1, Reader.run_append]
    cases hrun : Reader.run {} (lex text).tokens with
    | error e' =>
      rw [hrun] at h
      exact h
    | ok r =>
      rw [hrun] at h
      exact absurd (Reader.isAtEnd_of_finish h) he
  · -- The scan stands still at the character that starts no token.
    rw [List.append_assoc, parse_eq_run, lex_append_of_failure hscanned, ← parse_eq_run]
    exact h

/-- Whether a text waits for more input anticipates what the lines after it do.  If it waits, it is
not read.  If it is not read but some continuation is, it waits, or its last token is a quote mark.
If it fails, and not because of an open bracket or a quote mark at the end, every continuation fails
alike. -/
theorem needsMore_anticipates (text : Text) :
    (needsMore text = true → ∀ vs, parse text ≠ .ok vs) ∧
    (∀ e, parse text = .error e → ∀ rest vs, parse (text ++ "\n" ++ rest) = .ok vs →
      needsMore text = true ∨ ∃ t, (lex text).tokens.getLast? = some t ∧ t.kind = .quote) ∧
    (∀ e, parse text = .error e → e ≠ .fault .nothingQuoted →
      (∀ opener, e ≠ .fault (.unclosed opener)) →
      ∀ rest, parse (text ++ "\n" ++ rest) = .error e) := by
  refine ⟨parse_ne_ok_of_needsMore, ?_, ?_⟩
  · intro e he rest vs hrest
    exact needsMore_of_continued he hrest
  · intro e he hquote hopener rest
    refine parse_continued_of_error he ?_ rest
    rintro (rfl | ⟨opener, rfl⟩)
    · exact hquote rfl
    · exact hopener opener rfl

/-- A quote mark does not wait, although the next line can complete it.  A closing bracket of the
wrong shape fails for good. -/
theorem needsMore_anticipates_quoteMark :
    needsMore "'" = false ∧
      (needsMore "'" = true ∨
        ∃ t, (lex "'").tokens.getLast? = some t ∧ t.kind = .quote) ∧
      ∀ rest : Text, parse ("([)" ++ "\n" ++ rest) =
        .error (.fault (.mismatched "[" "]" ")")) := by
  have herror : parse "'" = .error (.fault .nothingQuoted) := by rfl
  have hread : parse ("'" ++ "\n" ++ "a") = .ok [.list [.symbol "quote", .symbol "a"]] := by rfl
  have hmismatch : parse "([)" = .error (.fault (.mismatched "[" "]" ")")) := by rfl
  refine ⟨by rfl, (needsMore_anticipates "'").2.1 _ herror _ _ hread, ?_⟩
  exact (needsMore_anticipates "([)").2.2 _ hmismatch (by simp) (by simp)

end SmallLisp
