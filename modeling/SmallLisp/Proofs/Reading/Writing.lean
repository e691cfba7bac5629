import Mathlib.Data.List.Chain
import SmallLisp.Proofs.Reading.Failing
import SmallLisp.Proofs.Reading.Lines
/-!
The lexical grammar.

A writing sets tokens one after the other, each after a gap of white space and comments, and has one
more gap at its end.  Main statement: a text is scanned to some tokens if and only if it is a
writing of them, and the scan fails exactly at the first double quote that is in no comment.
-/

namespace SmallLisp

namespace Text

/-- White space and comments, each comment with the line feed that ends it. -/
inductive IsGap : Text → Prop
  | nil : IsGap []
  | blank {c : CodePoint} {rest : Text} (hc : isBlank c = true) (hrest : IsGap rest) :
      IsGap (c :: rest)
  | comment {words rest : Text} (hwords : .scalar '\n' ∉ words) (hrest : IsGap rest) :
      IsGap (.scalar ';' :: (words ++ .scalar '\n' :: rest))

/-- A gap at the end of a text, where the last comment may go on until the end. -/
def IsLastGap (text : Text) : Prop :=
  text.IsGap ∨ ∃ gap words : Text,
    gap.IsGap ∧ .scalar '\n' ∉ words ∧ text = gap ++ .scalar ';' :: words

/-- What a text has after its last line feed. -/
def currentLine (text : Text) : Text :=
  (text.reverse.takeWhile (· != .scalar '\n')).reverse

theorem IsGap.append {a b : Text} (ha : a.IsGap) (hb : b.IsGap) : IsGap (a ++ b) := by
  induction ha with
  | nil => exact hb
  | blank hc _ ih => exact ih.blank hc
  | comment hwords _ ih =>
    rw [List.cons_append, List.append_assoc, List.cons_append]
    exact ih.comment hwords

theorem currentLine_append_lineFeed (text : Text) :
    currentLine (text ++ [.scalar '\n']) = [] := by
  simp [currentLine]

theorem currentLine_append_of_ne (text : Text) {c : CodePoint} (hc : c ≠ .scalar '\n') :
    currentLine (text ++ [c]) = text.currentLine ++ [c] := by
  simp [currentLine, hc]

/-- A comment goes on to the end of its line. -/
theorem semicolon_mem_currentLine_concat (text : Text) (c : CodePoint) :
    .scalar ';' ∈ currentLine (text ++ [c]) ↔
      c ≠ .scalar '\n' ∧ (c = .scalar ';' ∨ .scalar ';' ∈ text.currentLine) := by
  by_cases hc : c = .scalar '\n'
  · simp [hc, currentLine_append_lineFeed]
  · rw [currentLine_append_of_ne text hc, and_iff_right hc]
    simp [or_comm, eq_comm]

end Text

/-- A token of source text: a quote mark, a bracket or an atom. -/
def Token.IsLexical (t : Token) : Prop :=
  t.IsMark ∨ (t.kind = .symbol ∧ t.text.IsAtom)

/-- Tokens, each with the gap before it, and a gap after all of them. -/
structure Writing where
  parts : List (Text × Token)
  last : Text

namespace Writing

/-- The tokens of a writing. -/
def tokens (w : Writing) : List Token :=
  w.parts.map Prod.snd

/-- The text of a writing. -/
def text (w : Writing) : Text :=
  w.parts.flatMap (fun part => part.1 ++ part.2.text) ++ w.last

/-- Whether the next token can stand after a gap: two atoms need something between them. -/
def MayFollow (part next : Text × Token) : Prop :=
  part.2.kind = .symbol → next.2.kind = .symbol → next.1 ≠ []

/-- A row of tokens of source text, each after a gap. -/
structure IsRow (parts : List (Text × Token)) : Prop where
  gap : ∀ part ∈ parts, part.1.IsGap
  token : ∀ part ∈ parts, part.2.IsLexical
  chain : parts.IsChain MayFollow

/-- A row of tokens and the gap at the end. -/
structure IsProper (w : Writing) : Prop where
  row : IsRow w.parts
  last : w.last.IsLastGap

end Writing

/-- A double quote that no semicolon comes before on its line. -/
def LooseQuote (source : Text) (offset : Nat) : Prop :=
  source[offset]? = some (.scalar '"') ∧ .scalar ';' ∉ Text.currentLine (source.take offset)

instance (source : Text) (offset : Nat) : Decidable (LooseQuote source offset) :=
  inferInstanceAs (Decidable (_ ∧ _))

section Reading

/-!
A writing is scanned to its tokens.
-/

namespace Spells

variable {text words : Text} {tokens : List Token}

theorem blank (h : Spells text tokens) {c : CodePoint} (hc : Text.isBlank c = true) :
    Spells (c :: text) tokens :=
  h.cons [] fun s hs => by
    rw [Scan.start, if_pos hc]
    exact ⟨hs, (List.append_nil _).symm⟩

end Spells

namespace Scan

/-- A scan that has not failed and is in a comment after the given tokens. -/
structure InComment (s : Scan) (tokens : Array Token) : Prop where
  mode : s.mode = .comment
  failure : s.failure = none
  tokens : s.tokens = tokens

theorem inComment_step_of_between {s : Scan} (h : s.Between) :
    (s.step (.scalar ';')).InComment s.tokens := by
  rw [step_of_between h]
  exact ⟨rfl, h.failure, rfl⟩

theorem InComment.run {s : Scan} {tokens : Array Token} (h : s.InComment tokens) {words : Text}
    (hwords : .scalar '\n' ∉ words) : (s.run words).InComment tokens := by
  induction words generalizing s with
  | nil => exact h
  | cons c rest ih =>
    rw [List.mem_cons, not_or] at hwords
    have hstep : (s.step c).InComment tokens := by
      rw [Scan.step, h.failure, h.mode]
      simp only [Option.isSome_none, Bool.false_eq_true, if_false, if_neg (Ne.symm hwords.1)]
      exact ⟨h.mode, h.failure, h.tokens⟩
    exact ih hstep hwords.2

end Scan

/-- A text before which any atom ends. -/
def EndsAtom (text : Text) : Prop :=
  ∀ c ∈ text.head?, isAtomChar c = false

theorem isAtomChar_of_isBlank {c : CodePoint} (hc : Text.isBlank c = true) :
    isAtomChar c = false := by
  simp [isAtomChar, hc]

theorem Text.IsGap.endsAtom_append {gap text : Text} (h : gap.IsGap)
    (htext : gap = [] → EndsAtom text) : EndsAtom (gap ++ text) := by
  cases h with
  | nil => exact htext rfl
  | blank hc _ =>
    rintro _ ⟨⟩
    exact isAtomChar_of_isBlank hc
  | comment _ _ =>
    rintro _ ⟨⟩
    decide

theorem Token.IsMark.endsAtom_append {t : Token} (h : t.IsMark) (text : Text) :
    EndsAtom (t.text ++ text) := by
  cases h with
  | quote =>
    rintro _ ⟨⟩
    decide
  | opener shape | closer shape =>
    cases shape <;>
    · rintro _ ⟨⟩
      decide

namespace Spells

variable {text words : Text} {ts tokens : List Token}

theorem comment (h : Spells text tokens) (hwords : .scalar '\n' ∉ words) :
    Spells (.scalar ';' :: (words ++ .scalar '\n' :: text)) tokens := by
  intro s hs
  have hin := (Scan.inComment_step_of_between hs).run hwords
  obtain ⟨hend, htokens⟩ := Scan.step_lineFeed hin.failure
  have hflush : ((s.step (.scalar ';')).run words).flush = (s.step (.scalar ';')).run words := by
    rw [Scan.flush, hin.mode]
  rw [hflush, hin.tokens] at htokens
  rw [Scan.run_cons, Scan.run_append, Scan.run_cons, ← htokens]
  exact h _ hend

theorem gap_append {gap : Text} (hgap : gap.IsGap) (h : Spells text tokens) :
    Spells (gap ++ text) tokens := by
  induction hgap with
  | nil => exact h
  | blank hc _ ih => exact ih.blank hc
  | comment hwords _ ih =>
    rw [List.cons_append, List.append_assoc, List.cons_append]
    exact ih.comment hwords

theorem mark_append {t : Token} (ht : t.IsMark) (h : Spells text tokens) :
    Spells (t.text ++ text) (t :: tokens) := by
  cases ht with
  | quote => exact h.quote
  | opener shape | closer shape =>
    cases shape <;>
      exact h.cons [_] fun _ hs => ⟨⟨hs.mode, hs.failure⟩, Array.toList_push⟩

theorem atom_append {name : Text} (hname : name.IsAtom) (hends : EndsAtom text)
    (h : Spells text tokens) : Spells (name ++ text) (⟨.symbol, name⟩ :: tokens) := by
  cases text with
  | nil =>
    obtain ⟨-, htokens⟩ := h {} ⟨rfl, rfl⟩
    obtain rfl : tokens = [] := htokens.symm
    rw [List.append_nil]
    exact atom hname
  | cons c rest => exact (atom hname).append (hends c rfl) h

end Spells

namespace Writing

theorem text_cons (part : Text × Token) (rest : List (Text × Token)) (last : Text) :
    text ⟨part :: rest, last⟩ = part.1 ++ (part.2.text ++ text ⟨rest, last⟩) := by
  simp [text]

theorem IsRow.tail {part : Text × Token} {rest : List (Text × Token)}
    (h : IsRow (part :: rest)) : IsRow rest where
  gap := (List.forall_mem_cons.mp h.gap).2
  token := (List.forall_mem_cons.mp h.token).2
  chain := h.chain.of_cons

/-- What comes after an atom ends it. -/
theorem IsRow.endsAtom {part : Text × Token} {rest : List (Text × Token)} {last : Text}
    (h : IsRow (part :: rest)) (hlast : last.IsGap) (hkind : part.2.kind = .symbol) :
    EndsAtom (text ⟨rest, last⟩) := by
  cases rest with
  | nil =>
    have hend : EndsAtom (last ++ []) := hlast.endsAtom_append fun _ => by simp [EndsAtom]
    simpa [text] using hend
  | cons next others =>
    rw [text_cons]
    refine (h.gap next (by simp)).endsAtom_append fun hgap => ?_
    rcases h.token next (by simp) with hmark | ⟨hnext, -⟩
    · exact hmark.endsAtom_append _
    · exact absurd hgap (h.chain.rel hkind hnext)

theorem IsRow.spells {parts : List (Text × Token)} {last : Text} (h : IsRow parts)
    (hlast : last.IsGap) : Spells (text ⟨parts, last⟩) (tokens ⟨parts, last⟩) := by
  induction parts with
  | nil => simpa [text, tokens] using Spells.gap_append hlast .nil
  | cons part rest ih =>
    have hrest := ih h.tail
    obtain ⟨gap, kind, name⟩ := part
    rw [text_cons]
    refine Spells.gap_append (h.gap _ (by simp)) ?_
    rcases h.token _ (List.mem_cons_self ..) with hmark | ⟨hkind, hname⟩
    · exact hrest.mark_append hmark
    · obtain rfl : kind = .symbol := hkind
      exact hrest.atom_append hname (h.endsAtom hlast rfl)

end Writing

namespace Scan

theorem between_flush {s : Scan} (hfailure : s.failure = none) (hmode : s.mode ≠ .comment) :
    s.flush.Between := by
  cases hs : s.mode with
  | between =>
    rw [flush_of_between hs]
    exact ⟨hs, hfailure⟩
  | atom read =>
    rw [flush_of_atom hs]
    exact ⟨rfl, hfailure⟩
  | comment => exact absurd hs hmode

/-- A semicolon begins a comment wherever the scan is, or goes on with one. -/
theorem inComment_run_semicolon {s : Scan} (hfailure : s.failure = none) {words : Text}
    (hwords : .scalar '\n' ∉ words) :
    (s.run (.scalar ';' :: words)).InComment s.flush.tokens := by
  by_cases hmode : s.mode = .comment
  · have hflush : s.flush.tokens = s.tokens := by rw [Scan.flush, hmode]
    refine InComment.run ⟨hmode, hfailure, hflush.symm⟩ ?_
    rw [List.mem_cons, not_or]
    exact ⟨by decide, hwords⟩
  · rw [run_cons, ← step_flush hfailure (by decide)]
    exact (inComment_step_of_between (between_flush hfailure hmode)).run hwords

end Scan

/-- A comment at the end of a text adds no token. -/
theorem lex_append_comment {text words : Text} (h : (lex text).failure = none)
    (hwords : .scalar '\n' ∉ words) : lex (text ++ .scalar ';' :: words) = lex text := by
  have hin := Scan.inComment_run_semicolon (lex_failure text ▸ h) hwords
  rw [← Scan.run_append] at hin
  have hflush : (Scan.run {} (text ++ .scalar ';' :: words)).flush =
      Scan.run {} (text ++ .scalar ';' :: words) := by
    rw [Scan.flush, hin.mode]
  have htext : lex text = { tokens := (lex text).tokens, failure := none } := by rw [← h]
  rw [htext, lex, hflush, hin.tokens, hin.failure]
  rfl

/-- A writing is scanned to its tokens. -/
theorem Writing.IsProper.lex_text {w : Writing} (h : w.IsProper) :
    lex w.text = { tokens := w.tokens, failure := none } := by
  obtain ⟨parts, last⟩ := w
  rcases h.last with hgap | ⟨gap, words, hgap, hwords, rfl⟩
  · exact (h.row.spells hgap).lex_eq
  · have hlex := (h.row.spells hgap).lex_eq
    have htext : text ⟨parts, gap ++ .scalar ';' :: words⟩ =
        text ⟨parts, gap⟩ ++ .scalar ';' :: words := by
      simp [text]
    rw [htext, lex_append_comment (congrArg Lexed.failure hlex) hwords, hlex]
    rfl

end Reading

section Writing

/-!
A text that is scanned is a writing of its tokens.
-/

open Writing (IsRow MayFollow)

namespace Writing

theorem text_append_gap (w : Writing) (more : Text) :
    text ⟨w.parts, w.last ++ more⟩ = w.text ++ more := by
  simp [text]

theorem text_append_part (w : Writing) (t : Token) :
    text ⟨w.parts ++ [(w.last, t)], []⟩ = w.text ++ t.text := by
  simp [text]

theorem tokens_append_part (w : Writing) (t : Token) (last : Text) :
    tokens ⟨w.parts ++ [(w.last, t)], last⟩ = w.tokens ++ [t] := by
  simp [tokens]

/-- A row of tokens with a gap after it. -/
structure IsOpen (w : Writing) : Prop where
  row : IsRow w.parts
  last : w.last.IsGap

/-- Whether an atom can come next. -/
def AdmitsAtom (w : Writing) : Prop :=
  ∀ part ∈ w.parts.getLast?, part.2.kind = .symbol → w.last ≠ []

theorem isOpen_empty : IsOpen ⟨[], []⟩ :=
  ⟨⟨by simp, by simp, .nil⟩, .nil⟩

theorem admitsAtom_of_last {w : Writing} (h : w.last ≠ []) : w.AdmitsAtom :=
  fun _ _ _ => h

theorem IsOpen.append_gap {w : Writing} (h : w.IsOpen) {more : Text} (hmore : more.IsGap) :
    IsOpen ⟨w.parts, w.last ++ more⟩ :=
  ⟨h.row, h.last.append hmore⟩

/-- The next token comes after the gap. -/
theorem IsOpen.append_part {w : Writing} (h : w.IsOpen) {t : Token} (ht : t.IsLexical)
    (hatom : t.kind = .symbol → w.AdmitsAtom) : IsOpen ⟨w.parts ++ [(w.last, t)], []⟩ where
  row :=
    { gap := List.forall_mem_append.mpr ⟨h.row.gap, List.forall_mem_singleton.mpr h.last⟩
      token := List.forall_mem_append.mpr ⟨h.row.token, List.forall_mem_singleton.mpr ht⟩
      chain := by
        refine List.isChain_append.mpr ⟨h.row.chain, .singleton _, ?_⟩
        rintro part hpart _ ⟨⟩ hkind ht
        exact hatom ht part hpart hkind }
  last := .nil

theorem IsOpen.append_atom {w : Writing} (h : w.IsOpen) {name : Text} (hname : name.IsAtom)
    (hatom : w.AdmitsAtom) : IsOpen ⟨w.parts ++ [(w.last, ⟨.symbol, name⟩)], []⟩ :=
  h.append_part (.inr ⟨rfl, hname⟩) fun _ => hatom

end Writing

namespace Scan

variable {s : Scan} {text : Text}

theorem toList_flush_of_atom {read : Text} (h : s.mode = .atom read) :
    s.flush.tokens.toList = s.tokens.toList ++ [⟨.symbol, read.reverse⟩] := by
  rw [flush_of_atom h]
  exact Array.toList_push

/-- A scan of a text has found the tokens of a writing, and is after its last gap, in an atom after
it or in a comment after it. -/
inductive Stands (s : Scan) : Text → Prop
  | between (w : Writing) (hopen : w.IsOpen) (hatom : w.AdmitsAtom) (hmode : s.mode = .between)
      (htokens : s.tokens.toList = w.tokens) : Stands s w.text
  | atom (w : Writing) (read : Text) (hopen : w.IsOpen) (hatom : w.AdmitsAtom)
      (hmode : s.mode = .atom read)
      (hread : Text.IsAtom read.reverse)
      (htokens : s.tokens.toList = w.tokens) : Stands s (w.text ++ read.reverse)
  | comment (w : Writing) (words : Text) (hopen : w.IsOpen) (hwords : .scalar '\n' ∉ words)
      (hmode : s.mode = .comment) (htokens : s.tokens.toList = w.tokens) :
      Stands s (w.text ++ .scalar ';' :: words)

theorem Stands.withOffset (h : s.Stands text) (offset : Nat) :
    Stands { s with offset } text := by
  cases h with
  | between w hopen hatom hmode htokens => exact .between w hopen hatom hmode htokens
  | atom w read hopen hatom hmode hread htokens =>
    exact .atom w read hopen hatom hmode hread htokens
  | comment w words hopen hwords hmode htokens =>
    exact .comment w words hopen hwords hmode htokens

/-- The next token of a text. -/
theorem Stands.push {w : Writing} (hopen : w.IsOpen) (hmode : s.mode = .between)
    (htokens : s.tokens.toList = w.tokens) {t : Token} (ht : t.IsMark) :
    (s.push t.kind t.text).Stands (w.text ++ t.text) := by
  have hkind : t.kind ≠ .symbol := by cases ht <;> simp
  rw [← w.text_append_part]
  refine .between _ (hopen.append_part (.inl ht) fun h => absurd h hkind) ?_ hmode ?_
  · intro part hpart hsymbol
    simp only [List.getLast?_concat, Option.mem_def, Option.some.injEq] at hpart
    subst hpart
    exact absurd hsymbol hkind
  · rw [Writing.tokens_append_part, ← htokens]
    exact Array.toList_push

/-- A character that continues nothing comes after a writing. -/
theorem Stands.start {w : Writing} (hopen : w.IsOpen) (hmode : s.mode = .between)
    (htokens : s.tokens.toList = w.tokens) {c : CodePoint}
    (hatom : isAtomChar c = true → w.AdmitsAtom) (hfailure : (s.start c).failure = none) :
    (s.start c).Stands (w.text ++ [c]) := by
  rcases s.start_cases c with ⟨hblank, heq⟩ | ⟨rfl, heq⟩ | ⟨t, ht, htext, heq⟩ |
    ⟨rfl, heq⟩ | ⟨hc, heq⟩
  · rw [heq, ← w.text_append_gap]
    exact .between _ (hopen.append_gap (.blank hblank .nil))
      (Writing.admitsAtom_of_last (by simp)) hmode htokens
  · rw [heq]
    exact .comment w [] hopen (by simp) rfl htokens
  · rw [heq, ← htext]
    exact .push hopen hmode htokens ht
  · rw [heq] at hfailure
    cases hfailure
  · rw [heq]
    exact .atom w [c] hopen (hatom hc) rfl ⟨by simp, by simpa using hc⟩ htokens

theorem Stands.step (h : s.Stands text) {c : CodePoint} (hfailure : (s.step c).failure = none) :
    (s.step c).Stands (text ++ [c]) := by
  have hnone := failure_of_step hfailure
  cases h with
  | between w hopen hatom hmode htokens =>
    rw [step_of_between ⟨hmode, hnone⟩] at hfailure ⊢
    exact (start hopen hmode htokens (fun _ => hatom) hfailure).withOffset _
  | atom w read hopen hatom hmode hread htokens =>
    by_cases hc : isAtomChar c = true
    · obtain ⟨hmode', -, htokens'⟩ := InAtom.step ⟨hmode, hnone, rfl⟩ hc
      have hlong : Text.IsAtom (c :: read).reverse := by
        rw [List.reverse_cons]
        exact ⟨by simp, List.forall_mem_append.mpr ⟨hread.2, List.forall_mem_singleton.mpr hc⟩⟩
      rw [List.append_assoc, ← List.reverse_cons]
      exact .atom w (c :: read) hopen hatom hmode' hlong (htokens' ▸ htokens)
    · -- The atom ends, and the character is read after it.
      have hflush := flush_of_atom hmode
      rw [← step_flush hnone (Bool.eq_false_iff.mpr hc),
        step_of_between (between_flush hnone (by simp [hmode]))] at hfailure ⊢
      have hclosed := hopen.append_atom hread hatom
      have htokens' : s.flush.tokens.toList = Writing.tokens _ :=
        (toList_flush_of_atom hmode).trans (htokens ▸ (w.tokens_append_part _ []).symm)
      have hstart := start hclosed (by rw [hflush]) htokens' (fun h => absurd h hc) hfailure
      rw [w.text_append_part] at hstart
      exact hstart.withOffset _
  | comment w words hopen hwords hmode htokens =>
    by_cases hc : c = .scalar '\n'
    · subst hc
      obtain ⟨hbetween, hflush⟩ := step_lineFeed hnone
      have hgap : Text.IsGap (.scalar ';' :: (words ++ [.scalar '\n'])) := .comment hwords .nil
      rw [List.append_assoc, List.cons_append, ← w.text_append_gap]
      refine .between _ (hopen.append_gap hgap) (Writing.admitsAtom_of_last (by simp))
        hbetween.mode ?_
      rw [hflush, Scan.flush, hmode]
      exact htokens
    · have hword : .scalar '\n' ∉ [c] := by simpa using Ne.symm hc
      have hrun := InComment.run ⟨hmode, hnone, rfl⟩ hword
      rw [List.append_assoc, List.cons_append]
      refine .comment w _ hopen ?_ hrun.mode (hrun.tokens ▸ htokens)
      simp [hwords, Ne.symm hc]

theorem stands_run (h : (Scan.run {} text).failure = none) : (Scan.run {} text).Stands text := by
  induction text using List.reverseRecOn with
  | nil => exact .between ⟨[], []⟩ Writing.isOpen_empty (by simp [Writing.AdmitsAtom]) rfl rfl
  | append_singleton before c ih =>
    rw [run_append] at h ⊢
    exact (ih (failure_of_step h)).step h

/-- What has been read is a writing of the tokens found, the one at its end included. -/
theorem Stands.exists_isProper (h : s.Stands text) :
    ∃ w : Writing, w.IsProper ∧ text = w.text ∧ s.flush.tokens.toList = w.tokens := by
  cases h with
  | between w hopen _ hmode htokens =>
    refine ⟨w, ⟨hopen.row, .inl hopen.last⟩, rfl, ?_⟩
    rw [flush_of_between hmode, htokens]
  | atom w read hopen hatom hmode hread htokens =>
    have hclosed := hopen.append_atom hread hatom
    refine ⟨_, ⟨hclosed.row, .inl hclosed.last⟩,
      (w.text_append_part ⟨.symbol, read.reverse⟩).symm, ?_⟩
    rw [toList_flush_of_atom hmode, htokens, w.tokens_append_part]
  | comment w words hopen hwords hmode htokens =>
    refine ⟨⟨w.parts, w.last ++ .scalar ';' :: words⟩,
      ⟨hopen.row, .inr ⟨w.last, words, hopen.last, hwords, rfl⟩⟩, (w.text_append_gap _).symm, ?_⟩
    rw [flush, hmode]
    exact htokens

end Scan

/-- A text that is scanned is a writing of its tokens. -/
theorem exists_writing_of_lex {source : Text} (h : (lex source).failure = none) :
    ∃ w : Writing, w.IsProper ∧ source = w.text ∧ (lex source).tokens = w.tokens :=
  (Scan.stands_run (lex_failure source ▸ h)).exists_isProper

end Writing

section Failing

/-!
A scan fails at a double quote outside comments.
-/

namespace Scan

variable {s : Scan} {c : CodePoint} {text : Text}

theorem start_mode_ne_comment (hmode : s.mode ≠ .comment) (hc : c ≠ .scalar ';') :
    (s.start c).mode ≠ .comment := by
  rw [Scan.start, if_neg hc]
  split_ifs <;> simp [push, hmode]

theorem flush_offset (s : Scan) : s.flush.offset = s.offset := by
  cases hs : s.mode with
  | atom read => rw [flush_of_atom hs, push]
  | between | comment => simp only [Scan.flush, hs]

/-- A character that is part of no atom is scanned as one that continues nothing. -/
theorem step_of_not_isAtomChar (h : s.failure = none) (hmode : s.mode ≠ .comment)
    (hc : isAtomChar c = false) : s.step c = { s.flush.start c with offset := s.offset + 1 } := by
  rw [← step_flush h hc, step_of_between (between_flush h hmode), flush_offset]

/-- A semicolon begins a comment, and a line feed ends it. -/
theorem step_mode_eq_comment_iff (h : s.failure = none) :
    (s.step c).mode = .comment ↔
      c ≠ .scalar '\n' ∧ (c = .scalar ';' ∨ s.mode = .comment) := by
  by_cases hmode : s.mode = .comment
  · rw [step, h, hmode]
    by_cases hc : c = .scalar '\n'
    · simp [hc]
    · simp [hc, hmode]
  · simp only [hmode, or_false]
    by_cases hc : c = .scalar ';'
    · subst hc
      rw [step_of_not_isAtomChar h hmode (by decide)]
      exact iff_of_true rfl ⟨by decide, rfl⟩
    · refine iff_of_false ?_ fun hboth => hc hboth.2
      rw [step, h]
      cases hs : s.mode with
      | between => exact start_mode_ne_comment hmode hc
      | atom read =>
        simp only [Option.isSome_none, Bool.false_eq_true, if_false]
        split_ifs
        · simp
        · exact start_mode_ne_comment (by simp [flush_of_atom hs]) hc
      | comment => exact absurd hs hmode

theorem mode_run_eq_comment_iff (h : (Scan.run {} text).failure = none) :
    (Scan.run {} text).mode = .comment ↔ .scalar ';' ∈ text.currentLine := by
  induction text using List.reverseRecOn with
  | nil => simp [run, Text.currentLine]
  | append_singleton before c ih =>
    rw [run_append] at h ⊢
    have hbefore := failure_of_step h
    refine (step_mode_eq_comment_iff hbefore).trans ?_
    rw [ih hbefore, Text.semicolon_mem_currentLine_concat]

/-- Outside comments a double quote starts no token. -/
theorem step_doubleQuote (h : s.failure = none) (hmode : s.mode ≠ .comment) :
    (s.step (.scalar '"')).failure =
        some (.fault (.unexpectedCharacter s.offset (.scalar '"'))) ∧
      (s.step (.scalar '"')).flush.tokens = s.flush.tokens := by
  have hbetween := between_flush h hmode
  have hstart : s.flush.start (.scalar '"') =
      { s.flush with failure := some (.fault (.unexpectedCharacter s.offset (.scalar '"'))) } :=
    flush_offset s ▸ rfl
  rw [step_of_not_isAtomChar h hmode (by decide), hstart]
  refine ⟨rfl, ?_⟩
  rw [flush_of_between (by exact hbetween.mode)]

/-- Every other character starts one, continues one or stands in a gap. -/
theorem step_failure (h : s.failure = none) (hc : c ≠ .scalar '"' ∨ s.mode = .comment) :
    (s.step c).failure = none := by
  have hstart : c ≠ .scalar '"' → ∀ s : Scan, s.failure = none → (s.start c).failure = none := by
    intro hc s hs
    rw [Scan.start]
    split_ifs <;> simp [push, hs]
  rw [step, h]
  cases hs : s.mode with
  | between =>
    have hne := hc.resolve_right (by simp [hs])
    exact hstart hne s h
  | atom read =>
    have hne := hc.resolve_right (by simp [hs])
    simp only [Option.isSome_none, Bool.false_eq_true, if_false]
    split_ifs
    · rfl
    · exact hstart hne _ ((flush_failure s).trans h)
  | comment =>
    simp only [Option.isSome_none, Bool.false_eq_true, if_false]
    split_ifs
    · rfl
    · exact h

theorem offset_run (h : (Scan.run {} text).failure = none) :
    (Scan.run {} text).offset = text.length := by
  induction text using List.reverseRecOn with
  | nil => rfl
  | append_singleton before c ih =>
    rw [run_append] at h ⊢
    have hbefore := failure_of_step h
    have hstep : ((Scan.run {} before).step c).offset = (Scan.run {} before).offset + 1 := by
      rw [step, hbefore]
      rfl
    rw [List.length_append, ← ih hbefore]
    exact hstep

/-- More text adds nothing to a scan that has failed. -/
theorem run_of_failure (h : s.failure ≠ none) (text : Text) : s.run text = s := by
  induction text with
  | nil => rfl
  | cons c rest ih => rw [run_cons, step_of_failure h, ih]

end Scan

/-- A text is its first part, a character of it and the rest. -/
theorem eq_take_append_cons {source : Text} {offset : Nat} {c : CodePoint}
    (h : source[offset]? = some c) :
    source = source.take offset ++ c :: source.drop (offset + 1) := by
  obtain ⟨hlt, rfl⟩ := List.getElem?_eq_some_iff.mp h
  rw [List.getElem_cons_drop, List.take_append_drop]

/-- A text fails at a double quote outside comments if it does not fail before. -/
theorem lex_of_looseQuote {source : Text} {offset : Nat} (h : LooseQuote source offset)
    (hbefore : (lex (source.take offset)).failure = none) :
    lex source =
      { tokens := (lex (source.take offset)).tokens
        failure := some (.fault (.unexpectedCharacter offset (.scalar '"'))) } := by
  obtain ⟨hquote, hline⟩ := h
  have hnone := lex_failure _ ▸ hbefore
  obtain ⟨hfailure, htokens⟩ :=
    Scan.step_doubleQuote hnone (mt (Scan.mode_run_eq_comment_iff hnone).mp hline)
  have hlength : (source.take offset).length = offset := by
    rw [List.length_take, min_eq_left (List.getElem?_eq_some_iff.mp hquote).1.le]
  rw [Scan.offset_run hnone, hlength] at hfailure
  have hrun : Scan.run {} source = (Scan.run {} (source.take offset)).step (.scalar '"') := by
    conv_lhs => rw [eq_take_append_cons hquote]
    rw [Scan.run_append, Scan.run_cons, Scan.run_of_failure (by rw [hfailure]; simp)]
  rw [lex, hrun, htokens, Scan.flush_failure, hfailure]
  rfl

/-- A text without double quotes outside comments does not fail. -/
theorem lex_failure_of_forall_not {source : Text} (h : ∀ offset, ¬ LooseQuote source offset) :
    (lex source).failure = none := by
  induction source using List.reverseRecOn with
  | nil => rfl
  | append_singleton before c ih =>
    have hbefore : (lex before).failure = none := by
      refine ih fun offset hquote => h offset ?_
      obtain ⟨hlt, -⟩ := List.getElem?_eq_some_iff.mp hquote.1
      rw [LooseQuote, List.getElem?_append_left hlt, List.take_append_of_le_length hlt.le]
      exact hquote
    have hlast := h before.length
    rw [LooseQuote, List.getElem?_concat_length, List.take_left'  rfl, not_and, not_not] at hlast
    have hnone := lex_failure before ▸ hbefore
    rw [lex_failure, Scan.run_append]
    refine Scan.step_failure hnone ?_
    by_cases hc : c = .scalar '"'
    · exact .inr ((Scan.mode_run_eq_comment_iff hnone).mpr (hlast (by rw [hc])))
    · exact .inl hc

/-- A text fails if and only if it has a double quote outside comments. -/
theorem lex_failure_ne_none_iff {source : Text} :
    (lex source).failure ≠ none ↔ ∃ offset, LooseQuote source offset := by
  constructor
  · intro h
    by_contra hnone
    exact h (lex_failure_of_forall_not (not_exists.mp hnone))
  · rintro ⟨offset, hquote⟩ hnone
    have htake : (lex (source.take offset)).failure = none := by
      rw [← List.take_append_drop offset source] at hnone
      exact lex_failure_of_append hnone
    rw [lex_of_looseQuote hquote htake] at hnone
    cases hnone

/-- The text before the first double quote outside comments does not fail. -/
theorem lex_failure_take {source : Text} {offset : Nat}
    (h : ∀ earlier < offset, ¬ LooseQuote source earlier) :
    (lex (source.take offset)).failure = none := by
  refine lex_failure_of_forall_not fun earlier hquote => ?_
  obtain ⟨hget, hline⟩ := hquote
  obtain ⟨hlt, -⟩ := List.getElem?_eq_some_iff.mp hget
  have hearlier : earlier < offset := hlt.trans_le (List.length_take_le ..)
  rw [List.getElem?_take_of_lt hearlier] at hget
  rw [List.take_take, min_eq_left hearlier.le] at hline
  exact h earlier hearlier ⟨hget, hline⟩

end Failing

/-- The lexical grammar is what the scan accepts.  A writing is scanned to its tokens, and whatever
is scanned to its end is a writing of the tokens found.  The scan fails if and only if some double
quote has no semicolon before it on its line; it fails at the first of them, with the tokens of the
text before it. -/
theorem lex_grammar :
    (∀ w : Writing, w.IsProper → lex w.text = { tokens := w.tokens, failure := none }) ∧
    (∀ source : Text, (lex source).failure = none →
      ∃ w : Writing, w.IsProper ∧ source = w.text ∧ (lex source).tokens = w.tokens) ∧
    (∀ source : Text, (lex source).failure ≠ none ↔ ∃ offset, LooseQuote source offset) ∧
    (∀ (source : Text) (offset : Nat), LooseQuote source offset →
      (∀ earlier < offset, ¬ LooseQuote source earlier) →
      (lex source).failure = some (.fault (.unexpectedCharacter offset (.scalar '"'))) ∧
        lex (source.take offset) = { tokens := (lex source).tokens, failure := none }) := by
  refine ⟨fun w => Writing.IsProper.lex_text, fun source => exists_writing_of_lex,
    fun source => lex_failure_ne_none_iff, fun source offset hquote hfirst => ?_⟩
  have hbefore := lex_failure_take hfirst
  rw [lex_of_looseQuote hquote hbefore]
  refine ⟨rfl, ?_⟩
  rw [← hbefore]

/-- A quoted atom, with a comment before the atom and another one at the end of the text. -/
def quotedAtom : Writing :=
  { parts := [([], ⟨.quote, "'"⟩), (" ;\"\n", ⟨.symbol, "a"⟩)], last := ";\"" }

theorem isProper_quotedAtom : quotedAtom.IsProper where
  row :=
    { gap := by
        have hcomment : Text.IsGap " ;\"\n" :=
          .blank rfl (.comment (show .scalar '\n' ∉ ("\"" : Text) by decide) .nil)
        simpa [quotedAtom] using ⟨.nil, hcomment⟩
      token := by
        have hatom : Text.IsAtom "a" := by decide
        simpa [quotedAtom] using ⟨.inl .quote, .inr ⟨rfl, hatom⟩⟩
      chain := by simp [quotedAtom, Writing.MayFollow] }
  last := .inr ⟨[], "\"", .nil, by decide, rfl⟩

theorem lex_grammar_quotedAtom :
    quotedAtom.IsProper ∧ lex "' ;\"\na;\"" = { tokens := quotedAtom.tokens, failure := none } ∧
      LooseQuote "a;\"\nb\"" 5 ∧ (∀ earlier < 5, ¬ LooseQuote "a;\"\nb\"" earlier) ∧
      (lex "a;\"\nb\"").failure = some (.fault (.unexpectedCharacter 5 (.scalar '"'))) := by
  have hquote : LooseQuote "a;\"\nb\"" 5 := by decide
  have hfirst : ∀ earlier < 5, ¬ LooseQuote "a;\"\nb\"" earlier := by decide
  obtain ⟨hwriting, -, -, hfails⟩ := lex_grammar
  exact ⟨isProper_quotedAtom, hwriting quotedAtom isProper_quotedAtom, hquote, hfirst,
    (hfails _ 5 hquote hfirst).1⟩

end SmallLisp
