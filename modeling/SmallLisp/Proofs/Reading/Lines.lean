import Mathlib.Data.List.TakeWhile
import SmallLisp.Proofs.Reading.Spelling
import SmallLisp.Shell
/-!
Tokens line by line.

A line feed ends whatever a scan is in the middle of, so the tokens of lines are the tokens of one
line after the other.  Carriage returns at the end of a line make no difference.
-/

namespace SmallLisp

namespace Scan

theorem step_of_failure {s : Scan} (h : s.failure ≠ none) (c : CodePoint) : s.step c = s := by
  rw [step, if_pos (Option.isSome_iff_ne_none.mpr h)]

/-- A failure of a scan is final. -/
theorem failure_of_step {s : Scan} {c : CodePoint} (h : (s.step c).failure = none) :
    s.failure = none := by
  by_cases hfailure : s.failure = none
  · exact hfailure
  · rwa [step_of_failure hfailure] at h

theorem failure_of_run {s : Scan} {text : Text} (h : (s.run text).failure = none) :
    s.failure = none := by
  induction text generalizing s with
  | nil => exact h
  | cons c rest ih => exact failure_of_step (ih h)

/-- Two scans that go on alike; the first of them has found some tokens before. -/
structure Follows (before : List Token) (s s' : Scan) : Prop where
  mode : s.mode = s'.mode
  failure : s.failure.isSome = s'.failure.isSome
  tokens : s.tokens.toList = before ++ s'.tokens.toList

namespace Follows

variable {before : List Token} {s s' : Scan}

theorem push (h : Follows before s s') (kind : TokenKind) (text : Text) :
    Follows before (s.push kind text) (s'.push kind text) where
  mode := h.mode
  failure := h.failure
  tokens := by simp [Scan.push, h.tokens]

theorem withMode (h : Follows before s s') (mode : ScanMode) :
    Follows before { s with mode } { s' with mode } :=
  ⟨rfl, h.failure, h.tokens⟩

theorem flush (h : Follows before s s') : Follows before s.flush s'.flush := by
  have hmode := h.mode
  cases hs : s.mode with
  | atom read =>
    rw [hs] at hmode
    rw [flush_of_atom hs, flush_of_atom hmode.symm]
    exact (h.push .symbol read.reverse).withMode .between
  | between | comment =>
    rw [hs] at hmode
    simpa only [Scan.flush, hs, ← hmode] using h

theorem start (h : Follows before s s') (c : CodePoint) :
    Follows before (s.start c) (s'.start c) := by
  rw [Scan.start, Scan.start]
  split_ifs
  · exact h
  · exact h.withMode .comment
  · exact h.push .quote "'"
  · exact h.push .opener [c]
  · exact h.push .closer [c]
  · exact ⟨h.mode, rfl, h.tokens⟩
  · exact h.withMode (.atom [c])

theorem withOffset (h : Follows before s s') (offset offset' : Nat) :
    Follows before { s with offset } { s' with offset := offset' } :=
  ⟨h.mode, h.failure, h.tokens⟩

theorem step (h : Follows before s s') (c : CodePoint) :
    Follows before (s.step c) (s'.step c) := by
  have hmode := h.mode
  rw [Scan.step, Scan.step, h.failure]
  split
  · exact h
  · apply withOffset
    cases hs : s.mode with
    | between =>
      rw [hs] at hmode
      simpa only [← hmode] using h.start c
    | atom read =>
      rw [hs] at hmode
      simp only [← hmode]
      split
      · exact h.withMode (.atom (c :: read))
      · exact h.flush.start c
    | comment =>
      rw [hs] at hmode
      simp only [← hmode]
      split
      · exact h.withMode .between
      · exact h

theorem run (h : Follows before s s') (text : Text) :
    Follows before (s.run text) (s'.run text) := by
  induction text generalizing s s' with
  | nil => exact h
  | cons c rest ih => exact ih (h.step c)

end Follows

/-- A scan that is not in the middle of anything goes on like a new one. -/
theorem Between.follows {s : Scan} (h : s.Between) : Follows s.tokens.toList s {} where
  mode := h.mode
  failure := by rw [h.failure]
  tokens := by simp

/-- A line feed ends whatever the scan is in the middle of and adds no token. -/
theorem step_lineFeed {s : Scan} (h : s.failure = none) :
    (s.step (.scalar '\n')).Between ∧ (s.step (.scalar '\n')).tokens = s.flush.tokens := by
  have hatom : isAtomChar (.scalar '\n') = false := by decide
  have hstart : ∀ s : Scan, s.start (.scalar '\n') = s := fun s => if_pos rfl
  rw [step, h]
  cases hs : s.mode with
  | between => exact ⟨⟨by simp [hstart, hs], by simp [hstart, h]⟩, by simp [hstart, flush, hs]⟩
  | atom read =>
    simp only [hatom, hstart, flush_of_atom hs, push]
    exact ⟨⟨rfl, h⟩, rfl⟩
  | comment => exact ⟨⟨rfl, rfl⟩, by simp [flush, hs]⟩

end Scan

/-- A text that is empty or ends with a line feed. -/
def Text.EndsLine (text : Text) : Prop :=
  text = [] ∨ ∃ line : Text, text = line ++ [.scalar '\n']

theorem lex_failure (source : Text) : (lex source).failure = (Scan.run {} source).failure :=
  Scan.flush_failure _

theorem Text.EndsLine.between {text : Text} (h : text.EndsLine)
    (hfailure : (Scan.run {} text).failure = none) : (Scan.run {} text).Between := by
  rcases h with rfl | ⟨line, rfl⟩
  · exact ⟨rfl, rfl⟩
  · rw [Scan.run_append] at hfailure ⊢
    exact (Scan.step_lineFeed (Scan.failure_of_step hfailure)).1

/-- The tokens of whole lines and of the text after them. -/
theorem lex_append {text : Text} (h : text.EndsLine) (hfailure : (lex text).failure = none)
    (rest : Text) :
    (lex (text ++ rest)).tokens = (lex text).tokens ++ (lex rest).tokens ∧
      ((lex (text ++ rest)).failure = none ↔ (lex rest).failure = none) := by
  rw [lex_failure] at hfailure
  have hbetween := h.between hfailure
  have hfollows := hbetween.follows.run rest
  have htext : (lex text).tokens = (Scan.run {} text).tokens.toList :=
    congrArg (fun s : Scan => s.tokens.toList) (Scan.flush_of_between hbetween.mode)
  constructor
  · rw [htext]
    simp only [lex, Scan.run_append]
    exact hfollows.flush.tokens
  · rw [lex_failure, lex_failure, Scan.run_append, ← Option.isNone_iff_eq_none,
      ← Option.isNone_iff_eq_none, ← Option.not_isSome, ← Option.not_isSome, hfollows.failure]

/-- A text that is scanned without failing has no failure in its first part. -/
theorem lex_failure_of_append {text rest : Text} (h : (lex (text ++ rest)).failure = none) :
    (lex text).failure = none := by
  rw [lex_failure, Scan.run_append] at h
  rw [lex_failure]
  exact Scan.failure_of_run h

section LineEnds

namespace Scan

/-- Carriage returns leave open nothing but a comment. -/
theorem flush_step_carriageReturn {s : Scan} (h : s.failure = none) :
    (s.step (.scalar '\r')).failure = none ∧
      (s.step (.scalar '\r')).flush.tokens = s.flush.tokens := by
  have hatom : isAtomChar (.scalar '\r') = false := by decide
  have hstart : ∀ s : Scan, s.start (.scalar '\r') = s := fun s => if_pos rfl
  rw [step, h]
  cases hs : s.mode with
  | between => exact ⟨by simp [hstart, h], by simp [hstart, flush, hs]⟩
  | atom read =>
    simp only [hatom, hstart, flush_of_atom hs, push]
    exact ⟨h, rfl⟩
  | comment =>
    have hne : CodePoint.scalar '\r' ≠ .scalar '\n' := by decide
    simp [hne, h, flush, hs]

/-- A line end, with carriage returns or without, ends an atom and adds no token. -/
theorem run_lineEnd {s : Scan} (h : s.failure = none) {returns : Text}
    (hreturns : ∀ c ∈ returns, c = .scalar '\r') :
    (s.run (returns ++ [.scalar '\n'])).Between ∧
      (s.run (returns ++ [.scalar '\n'])).tokens = s.flush.tokens := by
  induction returns generalizing s with
  | nil => exact step_lineFeed h
  | cons c rest ih =>
    obtain ⟨rfl, hrest⟩ := List.forall_mem_cons.mp hreturns
    obtain ⟨hfailure, htokens⟩ := flush_step_carriageReturn h
    rw [List.cons_append, run_cons, ← htokens]
    exact ih hfailure hrest

end Scan

/-- The end of a line adds no token. -/
theorem lex_lineEnd {line : Text} (h : (lex line).failure = none) (returns : Text)
    (hreturns : ∀ c ∈ returns, c = .scalar '\r') :
    lex (line ++ (returns ++ [.scalar '\n'])) = lex line := by
  have hrun := h
  rw [lex_failure] at hrun
  obtain ⟨hbetween, htokens⟩ := Scan.run_lineEnd hrun hreturns
  rw [← Scan.run_append] at hbetween htokens
  have hline : lex line = { tokens := (lex line).tokens, failure := none } := by rw [← h]
  rw [hline, lex, Scan.flush_of_between hbetween.mode, htokens, hbetween.failure]
  rfl

theorem lex_lineFeed {line : Text} (h : (lex line).failure = none) :
    lex (line ++ [.scalar '\n']) = lex line :=
  lex_lineEnd h [] (List.forall_mem_nil _)

open Shell (withoutReturns inputLines)

/-- A line is what is left of it without its carriage returns, and those. -/
theorem exists_eq_withoutReturns_append (line : Text) : ∃ returns : Text,
    line = withoutReturns line ++ returns ∧ ∀ c ∈ returns, c = .scalar '\r' := by
  refine ⟨(line.reverse.takeWhile (· == .scalar '\r')).reverse, ?_, ?_⟩
  · rw [withoutReturns, Text.stripEndBy, ← List.reverse_append, List.takeWhile_append_dropWhile,
      List.reverse_reverse]
  · intro c hc
    simpa using List.mem_takeWhile_imp (List.mem_reverse.mp hc)

/-- A line has the same tokens without its carriage returns. -/
theorem lex_withoutReturns {line : Text} (h : (lex line).failure = none) :
    lex (withoutReturns line) = lex line := by
  obtain ⟨returns, hline, hreturns⟩ := exists_eq_withoutReturns_append line
  have hstripped : (lex (withoutReturns line)).failure = none :=
    lex_failure_of_append (hline ▸ h)
  have hended := lex_lineEnd hstripped returns hreturns
  rw [← List.append_assoc, ← hline, lex_lineFeed h] at hended
  exact hended.symm

theorem Text.exists_dropWhile_eq_trim_append (text : Text) : ∃ blanks,
    text.dropWhile isBlank = trim text ++ blanks ∧ ∀ c ∈ blanks, isBlank c = true := by
  refine ⟨((text.dropWhile isBlank).reverse.takeWhile isBlank).reverse, ?_, ?_⟩
  · rw [trim, stripBy, ← List.reverse_append, List.takeWhile_append_dropWhile,
      List.reverse_reverse]
  · exact fun c hc => List.mem_takeWhile_imp (List.mem_reverse.mp hc)

theorem trim_withoutReturns (line : Text) : (withoutReturns line).trim = line.trim := by
  obtain ⟨returns, hline, hreturns⟩ := exists_eq_withoutReturns_append line
  have hblank : ∀ c ∈ returns, Text.isBlank c = true := by
    intro c hc
    rw [hreturns c hc]
    rfl
  have hdrop : returns.dropWhile Text.isBlank = [] := List.dropWhile_eq_nil_iff.mpr hblank
  have hdrop' : returns.reverse.dropWhile Text.isBlank = [] :=
    List.dropWhile_eq_nil_iff.mpr fun c hc => hblank c (List.mem_reverse.mp hc)
  conv => rhs; rw [hline]
  rw [Text.trim, Text.trim, Text.stripBy, Text.stripBy, List.dropWhile_append]
  split
  · rename_i hempty
    rw [hdrop, List.isEmpty_iff.mp hempty]
  · rw [List.reverse_append, List.dropWhile_append, hdrop']
    rfl

/-- The lines of an input are the input, which they end with a line feed. -/
theorem flatMap_inputLines (input : Text) :
    (inputLines input).flatMap (· ++ [.scalar '\n']) = input ∨
      (inputLines input).flatMap (· ++ [.scalar '\n']) = input ++ [.scalar '\n'] := by
  have hjoined : ∀ pieces : List Text, pieces ≠ [] →
      pieces.flatMap (· ++ [CodePoint.scalar '\n']) =
        [CodePoint.scalar '\n'].intercalate pieces ++ [.scalar '\n'] := by
    intro pieces
    induction pieces with
    | nil => simp
    | cons piece rest ih =>
      intro _
      cases rest with
      | nil => simp
      | cons next others =>
        rw [List.flatMap_cons, ih (by simp)]
        simp [List.intercalate]
  have hne : input.splitOn (.scalar '\n') ≠ [] := List.splitOnP_ne_nil _ _
  have hinput := hjoined _ hne
  rw [List.intercalate_splitOn] at hinput
  rw [inputLines]
  split
  · -- The last piece is empty, so that the input ends with a line feed.
    rename_i hlast
    obtain ⟨before, hpieces⟩ := List.getLast?_eq_some_iff.mp hlast
    rw [hpieces, List.flatMap_append] at hinput
    rw [hpieces, List.dropLast_concat]
    exact Or.inl (List.append_cancel_right hinput)
  · exact Or.inr hinput

/-- The tokens of lines, one line after the other. -/
def lineTokens (lines : List Text) : List Token :=
  lines.flatMap fun line => (lex line).tokens

theorem lineTokens_cons (line : Text) (rest : List Text) :
    lineTokens (line :: rest) = (lex line).tokens ++ lineTokens rest :=
  List.flatMap_cons

/-- A text has the tokens of its lines. -/
theorem lex_flatMap {lines : List Text}
    (h : (lex (lines.flatMap (· ++ [.scalar '\n']))).failure = none) :
    (∀ line ∈ lines, (lex line).failure = none) ∧
      (lex (lines.flatMap (· ++ [.scalar '\n']))).tokens = lineTokens lines := by
  induction lines with
  | nil => exact ⟨by simp, rfl⟩
  | cons line rest ih =>
    rw [List.flatMap_cons] at h ⊢
    have hended := lex_failure_of_append h
    have hline := lex_failure_of_append hended
    obtain ⟨htokens, hfailure⟩ :=
      lex_append (Or.inr ⟨line, rfl⟩) hended (rest.flatMap (· ++ [.scalar '\n']))
    obtain ⟨hlines, hrest⟩ := ih (hfailure.mp h)
    refine ⟨List.forall_mem_cons.mpr ⟨hline, hlines⟩, ?_⟩
    rw [htokens, hrest, lex_lineFeed hline, lineTokens_cons]

/-- An input has the tokens of its lines. -/
theorem lex_inputLines {input : Text} (h : (lex input).failure = none) :
    lex ((inputLines input).flatMap (· ++ [.scalar '\n'])) = lex input := by
  rcases flatMap_inputLines input with heq | heq
  · rw [heq]
  · rw [heq, lex_lineFeed h]

end LineEnds

end SmallLisp
