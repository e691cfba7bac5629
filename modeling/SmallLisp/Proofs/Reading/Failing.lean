import SmallLisp.Proofs.Display
import SmallLisp.Proofs.Reading.Acceptance
import SmallLisp.Proofs.Reading.Spelling
/-!
What reading a text can fail of.

Main statement: a text that is not read is not in the language, or it is nested too deep or has an
integer with too many digits.  Its tokens are those of source text, so the reader never meets a
token that it does not know.
-/

namespace SmallLisp

/-- A token of source text that is no atom: a quote mark or a bracket. -/
inductive Token.IsMark : Token → Prop
  | quote : IsMark ⟨.quote, "'"⟩
  | opener (shape : Bracket) : IsMark ⟨.opener, shape.opener⟩
  | closer (shape : Bracket) : IsMark ⟨.closer, shape.closer⟩

theorem Token.IsMark.isSource {t : Token} (h : t.IsMark) : t.IsSource := by
  cases h with
  | quote => trivial
  | opener shape => exact ⟨shape, rfl⟩
  | closer shape => exact ⟨shape, rfl⟩

namespace Scan

/-- What a scan does with a character that continues nothing. -/
theorem start_cases (s : Scan) (c : CodePoint) :
    (Text.isBlank c = true ∧ s.start c = s) ∨
      (c = .scalar ';' ∧ s.start c = { s with mode := .comment }) ∨
      (∃ t : Token, t.IsMark ∧ t.text = [c] ∧ s.start c = s.push t.kind t.text) ∨
      (c = .scalar '"' ∧
        s.start c = { s with failure := some (.fault (.unexpectedCharacter s.offset c)) }) ∨
      (isAtomChar c = true ∧ s.start c = { s with mode := .atom [c] }) := by
  rw [Scan.start]
  split_ifs with hblank hcomment hquote hopen hclose hstring
  · exact .inl ⟨hblank, rfl⟩
  · exact .inr (.inl ⟨hcomment, rfl⟩)
  · subst hquote
    exact .inr (.inr (.inl ⟨_, .quote, rfl, rfl⟩))
  · simp only [Bool.or_eq_true, decide_eq_true_eq] at hopen
    rcases hopen with rfl | rfl
    · exact .inr (.inr (.inl ⟨_, .opener .round, rfl, rfl⟩))
    · exact .inr (.inr (.inl ⟨_, .opener .square, rfl, rfl⟩))
  · simp only [Bool.or_eq_true, decide_eq_true_eq] at hclose
    rcases hclose with rfl | rfl
    · exact .inr (.inr (.inl ⟨_, .closer .round, rfl, rfl⟩))
    · exact .inr (.inr (.inl ⟨_, .closer .square, rfl, rfl⟩))
  · exact .inr (.inr (.inr (.inl ⟨hstring, rfl⟩)))
  · simp only [Bool.or_eq_true, decide_eq_true_eq, not_or] at hopen hclose
    exact .inr (.inr (.inr (.inr
      ⟨isAtomChar_of_ne hblank hcomment hquote hopen hclose hstring, rfl⟩)))

/-- A scan whose tokens are those of source text, atoms apart, and which has failed of an error of
the language if it has failed. -/
structure IsSource (s : Scan) : Prop where
  tokens : ∀ t ∈ s.tokens, t.kind ≠ .symbol → t.IsMark
  failure : ∀ e, s.failure = some e → e.IsOrdinary

variable {s : Scan}

theorem IsSource.push (h : s.IsSource) {kind : TokenKind} {text : Text}
    (htext : kind ≠ .symbol → Token.IsMark ⟨kind, text⟩) : (s.push kind text).IsSource where
  tokens t ht hkind := by
    rcases Array.mem_push.mp ht with hold | rfl
    · exact h.tokens t hold hkind
    · exact htext hkind
  failure := h.failure

theorem IsSource.flush (h : s.IsSource) : s.flush.IsSource := by
  cases hmode : s.mode with
  | atom read =>
    rw [flush_of_atom hmode]
    have hpush : (s.push .symbol read.reverse).IsSource := h.push fun hkind => absurd rfl hkind
    exact ⟨hpush.tokens, hpush.failure⟩
  | between | comment => simpa only [Scan.flush, hmode] using h

theorem IsSource.start (h : s.IsSource) (c : CodePoint) : (s.start c).IsSource := by
  rcases s.start_cases c with ⟨-, heq⟩ | ⟨-, heq⟩ | ⟨t, ht, -, heq⟩ | ⟨-, heq⟩ | ⟨-, heq⟩ <;>
    rw [heq]
  · exact h
  · exact ⟨h.tokens, h.failure⟩
  · exact h.push fun _ => ht
  · refine ⟨h.tokens, fun e he => ?_⟩
    obtain rfl := Option.some.inj he
    exact Failure.isOrdinary_fault _
  · exact ⟨h.tokens, h.failure⟩

theorem IsSource.step (h : s.IsSource) (c : CodePoint) : (s.step c).IsSource := by
  rw [Scan.step]
  split
  · exact h
  · cases hmode : s.mode with
    | between => exact ⟨(h.start c).tokens, (h.start c).failure⟩
    | atom read =>
      simp only
      split
      · exact ⟨h.tokens, h.failure⟩
      · exact ⟨(h.flush.start c).tokens, (h.flush.start c).failure⟩
    | comment =>
      simp only
      split
      · exact ⟨h.tokens, h.failure⟩
      · exact ⟨h.tokens, h.failure⟩

theorem IsSource.run (h : s.IsSource) (text : Text) : (s.run text).IsSource := by
  induction text generalizing s with
  | nil => exact h
  | cons c rest ih => exact ih (h.step c)

end Scan

theorem isSource_lex (source : Text) : ((Scan.run {} source).flush).IsSource := by
  have hempty : Scan.IsSource {} := ⟨by simp, by simp⟩
  exact (hempty.run source).flush

theorem isMark_of_mem_lex {source : Text} {t : Token} (ht : t ∈ (lex source).tokens)
    (hkind : t.kind ≠ .symbol) : t.IsMark :=
  (isSource_lex source).tokens t (Array.mem_toList_iff.mp ht) hkind

/-- The tokens of a source text. -/
theorem isSource_of_mem_lex {source : Text} {t : Token} (ht : t ∈ (lex source).tokens) :
    t.IsSource := by
  by_cases hkind : t.kind = .symbol
  · rw [Token.IsSource, hkind]
    exact (isAtom_of_mem_lex ht hkind).1
  · exact (isMark_of_mem_lex ht hkind).isSource

/-- A reader fails on a token of source text of an error of the language or at a limit. -/
theorem Reader.Refuses.isOrdinary {r : Reader} {t : Token} {e : Failure} (h : r.Refuses t e)
    (ht : t.IsSource) : e.IsOrdinary := by
  by_cases hdeep : e = .nestingTooDeep
  · exact hdeep ▸ Failure.isOrdinary_nestingTooDeep
  · by_cases hlong : t.IsTooLong
    · exact Or.inr (Or.inr (h.eq_of_isTooLong hdeep hlong))
    · obtain ⟨fault, rfl, -⟩ := h.unreadable hdeep ht hlong
      exact Failure.isOrdinary_fault fault

theorem isOrdinary_of_readAllWithin {failure : Option Failure}
    (hfailure : ∀ e, failure = some e → e.IsOrdinary) {ts : List Token}
    (hts : ∀ t ∈ ts, t.IsSource) {done : Array Value} {contexts : List Pending} {e : Failure}
    (h : TokenStream.readAllWithin failure done contexts ts = .error e) : e.IsOrdinary := by
  induction ts generalizing done contexts with
  | nil =>
    rw [TokenStream.readAllWithin] at h
    cases failure with
    | some e' =>
      cases h
      exact hfailure e rfl
    | none =>
      rcases contexts with _ | ⟨_ | _, _⟩
      · cases h
      · cases h
        exact Failure.isOrdinary_fault _
      · cases h
        exact Failure.isOrdinary_fault _
  | cons t rest ih =>
    obtain ⟨ht, hrest⟩ := List.forall_mem_cons.mp hts
    rw [TokenStream.readAllWithin] at h
    cases hprogress : consume contexts t with
    | pending contexts =>
      rw [hprogress] at h
      exact ih hrest h
    | datum v =>
      rw [hprogress] at h
      exact ih hrest h
    | failed e' consumed =>
      rw [hprogress] at h
      cases h
      have htake : Reader.take { done, contexts } t = .error e := by
        rw [Reader.take, hprogress]
        rfl
      exact (Reader.refuses_of_take htake).isOrdinary ht

/-- A text that is not read fails of an error of the language or at a limit. -/
theorem isOrdinary_of_parse {source : Text} {e : Failure} (h : parse source = .error e) :
    e.IsOrdinary :=
  isOrdinary_of_readAllWithin (isSource_lex source).failure (fun _ => isSource_of_mem_lex) h

end SmallLisp
