import Mathlib.Data.List.Forall2
import SmallLisp.Proofs.Editor.Definitions
import SmallLisp.Proofs.Reading.Writing
import SmallLisp.Proofs.Text.Positions
/-!
Where the pieces of a text lie, and what kinds of tokens they are.

The scan leaves a character out, begins a piece with it or goes on with the last piece.  Main
statement: the pieces follow each other in the text without overlapping and leave out exactly white
space and comments, and a text that the reader can scan has its tokens as pieces, with the same
brackets.
-/

namespace SmallLisp

namespace Text

/-- A character that is white space or part of a comment: a semicolon comes before it on its line,
or it is one. -/
def InGap (text : Text) (offset : Nat) : Prop :=
  ∃ c, text[offset]? = some c ∧
    (isBlank c = true ∨ .scalar ';' ∈ currentLine (text.take (offset + 1)))

theorem inGap_append_of_lt {text : Text} {offset : Nat} (h : offset < text.length) (more : Text) :
    (text ++ more).InGap offset ↔ text.InGap offset := by
  rw [InGap, InGap, List.getElem?_append_left h, List.take_append_of_le_length h]

theorem inGap_concat (text : Text) (c : CodePoint) : InGap (text ++ [c]) text.length ↔
    isBlank c = true ∨ .scalar ';' ∈ currentLine (text ++ [c]) := by
  have hall : (text ++ [c]).take (text.length + 1) = text ++ [c] :=
    List.take_of_length_le (by simp)
  simp [InGap, hall]

theorem semicolon_not_mem_currentLine_concat {text : Text} {c : CodePoint}
    (hcomment : .scalar ';' ∉ currentLine text) (hc : c ≠ .scalar ';') :
    .scalar ';' ∉ currentLine (text ++ [c]) := by
  rw [semicolon_mem_currentLine_concat]
  exact fun h => h.2.elim hc hcomment

end Text

namespace Editor

/-- Whether a piece has the character at an offset. -/
def Piece.Covers (p : Piece) (offset : Nat) : Prop :=
  p.start ≤ offset ∧ offset < p.stop

/-- A piece that is what a text has from its start to its stop. -/
structure Piece.LiesIn (p : Piece) (text : Text) : Prop where
  start_lt : p.start < p.stop
  stop_le : p.stop ≤ text.length
  text_eq : p.text = text.extract p.start p.stop

namespace Piece.LiesIn

variable {text : Text}

theorem append {p : Piece} (h : p.LiesIn text) (more : Text) : p.LiesIn (text ++ more) where
  start_lt := h.start_lt
  stop_le := Nat.le_trans h.stop_le (by simp)
  text_eq := by
    have hstart := h.start_lt
    have hstop := h.stop_le
    rw [h.text_eq, List.extract_eq_take_drop, List.extract_eq_take_drop,
      List.drop_append_of_le_length (by omega),
      List.take_append_of_le_length (by rw [List.length_drop]; omega)]

theorem first (text : Text) (c : CodePoint) :
    LiesIn ⟨[c], text.length, text.length + 1⟩ (text ++ [c]) where
  start_lt := Nat.lt_succ_self _
  stop_le := by simp
  text_eq := by simp

theorem extend {read : Text} {start : Nat} (h : LiesIn ⟨read, start, text.length⟩ text)
    (c : CodePoint) : LiesIn ⟨read ++ [c], start, text.length + 1⟩ (text ++ [c]) where
  start_lt := Nat.lt_succ_of_lt h.start_lt
  stop_le := by simp
  text_eq := by
    have hstart : start < text.length := h.start_lt
    have hread : read = text.extract start text.length := h.text_eq
    have hdrop : (text ++ [c]).drop start = text.drop start ++ [c] :=
      List.drop_append_of_le_length (Nat.le_of_lt hstart)
    rw [hread, List.extract_eq_take_drop, List.extract_eq_take_drop, hdrop,
      List.take_of_length_le (by simp), List.take_of_length_le (by simp; omega)]

end Piece.LiesIn

/-- How the pieces of a text come about, character by character. -/
inductive Layout : Text → List Piece → Prop
  | nil : Layout [] []
  /-- White space or part of a comment. -/
  | skip {text : Text} {pieces : List Piece} {c : CodePoint} : Layout text pieces →
      Text.InGap (text ++ [c]) text.length → Layout (text ++ [c]) pieces
  /-- The first character of a piece. -/
  | add {text : Text} {pieces : List Piece} {c : CodePoint} : Layout text pieces →
      ¬ Text.InGap (text ++ [c]) text.length →
      Layout (text ++ [c]) (pieces ++ [⟨[c], text.length, text.length + 1⟩])
  /-- One more character of the last piece. -/
  | extend {text : Text} {pieces : List Piece} {read : Text} {start : Nat} {c : CodePoint} :
      Layout text (pieces ++ [⟨read, start, text.length⟩]) →
      ¬ Text.InGap (text ++ [c]) text.length →
      Layout (text ++ [c]) (pieces ++ [⟨read ++ [c], start, text.length + 1⟩])

namespace Layout

variable {text : Text} {pieces : List Piece}

theorem liesIn (h : Layout text pieces) : ∀ p ∈ pieces, p.LiesIn text := by
  induction h with
  | nil => simp
  | skip _ _ ih => exact fun p hp => (ih p hp).append _
  | @add text pieces c _ _ ih =>
    exact List.forall_mem_append.mpr ⟨fun p hp => (ih p hp).append _,
      List.forall_mem_singleton.mpr (.first text c)⟩
  | extend _ _ ih =>
    obtain ⟨hpieces, hlast⟩ := List.forall_mem_append.mp ih
    exact List.forall_mem_append.mpr ⟨fun p hp => (hpieces p hp).append _,
      List.forall_mem_singleton.mpr ((List.forall_mem_singleton.mp hlast).extend _)⟩

theorem pairwise (h : Layout text pieces) : pieces.Pairwise fun p q => p.stop ≤ q.start := by
  induction h with
  | nil => exact .nil
  | skip _ _ ih => exact ih
  | add hlayout _ ih =>
    refine List.pairwise_append.mpr ⟨ih, List.pairwise_singleton _ _, fun p hp q hq => ?_⟩
    obtain rfl := List.mem_singleton.mp hq
    exact (hlayout.liesIn p hp).stop_le
  | extend _ _ ih =>
    obtain ⟨hpieces, -, hlast⟩ := List.pairwise_append.mp ih
    refine List.pairwise_append.mpr ⟨hpieces, List.pairwise_singleton _ _, fun p hp q hq => ?_⟩
    obtain rfl := List.mem_singleton.mp hq
    have hstart := hlast p hp _ List.mem_cons_self
    exact hstart

/-- The pieces leave out white space and comments and nothing else. -/
theorem not_covers_iff (h : Layout text pieces) {offset : Nat} (hoffset : offset < text.length) :
    (∀ p ∈ pieces, ¬ p.Covers offset) ↔ text.InGap offset := by
  induction h with
  | nil => simp at hoffset
  | skip hlayout hgap ih =>
    rw [List.length_append, List.length_singleton] at hoffset
    rcases Nat.lt_succ_iff_lt_or_eq.mp hoffset with hlt | rfl
    · rw [Text.inGap_append_of_lt hlt]
      exact ih hlt
    · refine iff_of_true (fun p hp hcovers => ?_) hgap
      exact absurd hcovers.2 (Nat.not_lt.mpr (hlayout.liesIn p hp).stop_le)
  | add _ hgap ih =>
    rw [List.length_append, List.length_singleton] at hoffset
    rw [List.forall_mem_append, List.forall_mem_singleton]
    rcases Nat.lt_succ_iff_lt_or_eq.mp hoffset with hlt | rfl
    · rw [Text.inGap_append_of_lt hlt, ← ih hlt]
      exact and_iff_left fun hcovers => absurd hcovers.1 (Nat.not_le.mpr hlt)
    · refine iff_of_false (fun hnone => hnone.2 ?_) hgap
      exact ⟨Nat.le_refl _, Nat.lt_succ_self _⟩
  | extend hlayout hgap ih =>
    rw [List.length_append, List.length_singleton] at hoffset
    rw [List.forall_mem_append, List.forall_mem_singleton]
    rcases Nat.lt_succ_iff_lt_or_eq.mp hoffset with hlt | rfl
    · rw [Text.inGap_append_of_lt hlt, ← ih hlt, List.forall_mem_append, List.forall_mem_singleton]
      simp only [Piece.Covers, hlt, Nat.lt_succ_of_lt hlt, and_true]
    · refine iff_of_false (fun hnone => hnone.2 ?_) hgap
      have hstart := (hlayout.liesIn _ (List.mem_append_right _ List.mem_cons_self)).start_lt
      exact ⟨Nat.le_of_lt hstart, Nat.lt_succ_self _⟩

/-- A piece has no white space. -/
theorem isBlank_eq_false_of_mem (h : Layout text pieces) {p : Piece} (hp : p ∈ pieces)
    {c : CodePoint} (hc : c ∈ p.text) : Text.isBlank c = false := by
  obtain ⟨hstart, hstop, htext⟩ := h.liesIn p hp
  rw [htext, List.extract_eq_take_drop] at hc
  obtain ⟨i, hi⟩ := List.mem_iff_getElem?.mp hc
  rw [List.getElem?_take, List.getElem?_drop] at hi
  split_ifs at hi with hlt
  by_contra hblank
  have hgap : text.InGap (p.start + i) := ⟨c, hi, .inl (by simpa using hblank)⟩
  have hcovers : p.Covers (p.start + i) := ⟨Nat.le_add_right _ _, by omega⟩
  exact (h.not_covers_iff (by omega)).mpr hgap p hp hcovers

end Layout

namespace Scan

/-- A scan of a text so far: it knows its offset and whether it is in a comment, and the word that
it is in is the last of the pieces. -/
structure Lays (s : Scan) (text : Text) : Prop where
  offset : s.offset = text.length
  comment : s.mode = .comment ↔ .scalar ';' ∈ Text.currentLine text
  layout : Layout text s.flush.pieces.toList

variable {s : Scan} {text : Text}

/-- A character that continues nothing is left out or begins a piece. -/
theorem Lays.start (hoffset : s.offset = text.length) (hmode : s.mode = .between)
    (hcomment : .scalar ';' ∉ Text.currentLine text) (hlayout : Layout text s.pieces.toList)
    (c : CodePoint) : Lays { s.start c with offset := s.offset + 1 } (text ++ [c]) := by
  have hlength : s.offset + 1 = (text ++ [c]).length := by simp [hoffset]
  have hgap := Text.inGap_concat text c
  have hnext := @Text.semicolon_not_mem_currentLine_concat text c hcomment
  rw [Scan.start]
  split_ifs with hblank hsemicolon hword
  · have hne : c ≠ .scalar ';' := by
      rintro rfl
      exact absurd hblank (by decide)
    refine ⟨hlength, iff_of_false (by simp [hmode]) (hnext hne), ?_⟩
    simpa [flush, hmode] using hlayout.skip (hgap.mpr (.inl hblank))
  · have hmem : .scalar ';' ∈ Text.currentLine (text ++ [c]) :=
      (Text.semicolon_mem_currentLine_concat text c).mpr
        ⟨by rw [hsemicolon]; decide, .inl hsemicolon⟩
    exact ⟨hlength, iff_of_true rfl hmem, hlayout.skip (hgap.mpr (.inr hmem))⟩
  · refine ⟨hlength, iff_of_false (by simp) (hnext hsemicolon), ?_⟩
    have hadd := hlayout.add (mt hgap.mp (not_or.mpr ⟨hblank, hnext hsemicolon⟩))
    simpa [flush, hoffset] using hadd
  · refine ⟨hlength, iff_of_false (by simp [hmode]) (hnext hsemicolon), ?_⟩
    have hadd := hlayout.add (mt hgap.mp (not_or.mpr ⟨hblank, hnext hsemicolon⟩))
    simpa [flush, hmode, hoffset] using hadd

/-- A character goes on with the word that a scan is in, or the scan has it after the word. -/
theorem Lays.stepInWord (h : s.Lays text) {read : Text} {start : Nat}
    (hmode : s.mode = .word read start) (c : CodePoint) : (s.step c).Lays (text ++ [c]) := by
  obtain ⟨hoffset, hcomment, hlayout⟩ := h
  have houtside : .scalar ';' ∉ Text.currentLine text := mt hcomment.mpr (by simp [hmode])
  have hflush : s.flush =
      { s with mode := .between, pieces := s.pieces.push ⟨read.reverse, start, s.offset⟩ } := by
    rw [flush, hmode]
  rw [Scan.step, hmode]
  by_cases hword : isWordChar c = true
  · simp only [hword, if_true]
    have hblank : ¬ Text.isBlank c = true := by
      intro hblank
      simp [isWordChar, hblank] at hword
    have hsemicolon : c ≠ .scalar ';' := by
      rintro rfl
      exact absurd hword (by decide)
    have hnone := Text.semicolon_not_mem_currentLine_concat houtside hsemicolon
    have hgap := mt (Text.inGap_concat text c).mp (not_or.mpr ⟨hblank, hnone⟩)
    rw [hflush, Array.toList_push, hoffset] at hlayout
    refine ⟨by simp [hoffset], iff_of_false (by simp) hnone, ?_⟩
    simpa [flush, hoffset] using hlayout.extend hgap
  · simp only [hword]
    have hafter := Lays.start (s := s.flush) (by rw [hflush]; exact hoffset) (by rw [hflush])
      houtside hlayout c
    rwa [hflush] at hafter ⊢

theorem Lays.step (h : s.Lays text) (c : CodePoint) : (s.step c).Lays (text ++ [c]) := by
  cases hmode : s.mode with
  | between =>
    obtain ⟨hoffset, hcomment, hlayout⟩ := h
    have hflush : s.flush = s := by rw [flush, hmode]
    rw [hflush] at hlayout
    rw [Scan.step, hmode]
    exact Lays.start hoffset hmode (mt hcomment.mpr (by simp [hmode])) hlayout c
  | word read start => exact h.stepInWord hmode c
  | comment =>
    obtain ⟨hoffset, hcomment, hlayout⟩ := h
    have hflush : s.flush = s := by rw [flush, hmode]
    rw [hflush] at hlayout
    rw [Scan.step, hmode]
    have hlength : s.offset + 1 = (text ++ [c]).length := by simp [hoffset]
    by_cases hc : c = .scalar '\n'
    · subst hc
      have hgap := (Text.inGap_concat text (.scalar '\n')).mpr (.inl (by decide))
      refine ⟨hlength, iff_of_false (by simp) ?_, hlayout.skip hgap⟩
      simp [Text.currentLine_append_lineFeed]
    · have hmem : .scalar ';' ∈ Text.currentLine (text ++ [c]) :=
        (Text.semicolon_mem_currentLine_concat text c).mpr ⟨hc, .inr (hcomment.mp hmode)⟩
      simp only [if_neg hc]
      refine ⟨hlength, iff_of_true hmode hmem, ?_⟩
      simpa [flush, hmode] using hlayout.skip ((Text.inGap_concat text c).mpr (.inr hmem))

theorem lays_run (text : Text) : Lays (text.foldl Scan.step {}) text := by
  induction text using List.reverseRecOn with
  | nil => exact ⟨rfl, by simp [Text.currentLine], .nil⟩
  | append_singleton before c ih =>
    rw [List.foldl_append]
    exact ih.step c

end Scan

theorem layout_scan (text : Text) : Layout text (scan text) :=
  (Scan.lays_run text).layout

/-- The pieces of a text are in the order of their positions. -/
theorem pairwise_positions (text : Text) :
    ((scan text).map fun p => Text.positionOf text p.start).Pairwise Text.Position.Precedes := by
  have hlayout := layout_scan text
  refine List.pairwise_map.mpr (hlayout.pairwise.imp_of_mem fun hp hq hle => ?_)
  obtain ⟨hp, hpstop, -⟩ := hlayout.liesIn _ hp
  obtain ⟨hq, hqstop, -⟩ := hlayout.liesIn _ hq
  exact (Text.positionOf_precedes_iff (by omega) (by omega)).mpr (by omega)

/-- No two pieces of a text are reported at the same position. -/
theorem nodup_positions (text : Text) :
    ((scan text).map fun p => Text.positionOf text p.start).Nodup :=
  (pairwise_positions text).imp Text.Position.Precedes.ne

section Kinds

/-- A piece with the text of a token, and with its kind. -/
structure Piece.Shows (p : Piece) (t : Token) : Prop where
  text : p.text = t.text
  opener : p.isOpener = true ↔ t.kind = .opener
  closer : p.isCloser = true ↔ t.kind = .closer
  word : p.isWord = true ↔ t.kind = .symbol

variable {text : Text} {pieces : List Piece} {ts : List Token}

/-- The kind of a token shows in a piece with its text. -/
theorem shows_of_mem_lex {p : Piece} {t : Token} (ht : t ∈ (lex text).tokens)
    (hpiece : p.text = t.text) : p.Shows t := by
  by_cases hkind : t.kind = .symbol
  · have hword : p.isWord = true := isWord_of_isAtom (hpiece ▸ isAtom_of_mem_lex ht hkind)
    have hneither := hword
    simp only [Piece.isWord, Bool.not_eq_true', Bool.or_eq_false_iff] at hneither
    exact ⟨hpiece, by simp [hkind, hneither], by simp [hkind, hneither], by simp [hkind, hword]⟩
  · have hkinds : (p.isOpener = true ↔ t.kind = .opener) ∧
        (p.isCloser = true ↔ t.kind = .closer) ∧ (p.isWord = true ↔ t.kind = .symbol) := by
      simp only [Piece.isWord, Piece.isOpener, Piece.isCloser, hpiece]
      cases isMark_of_mem_lex ht hkind with
      | quote => decide
      | opener shape | closer shape => cases shape <;> decide
    exact ⟨hpiece, hkinds.1, hkinds.2.1, hkinds.2.2⟩

/-- Of a text that the reader can scan the pieces show the tokens. -/
theorem shows_scan (h : (lex text).failure = none) :
    List.Forall₂ Piece.Shows (scan text) (lex text).tokens := by
  have htexts : List.Forall₂ (fun p t => Piece.text p = Token.text t) (scan text)
      (lex text).tokens := by
    have hsame := scan_eq_lex h
    rwa [← List.forall₂_eq_eq_eq, List.forall₂_map_left_iff, List.forall₂_map_right_iff] at hsame
  obtain ⟨hlength, hzip⟩ := List.forall₂_iff_zip.mp htexts
  refine List.forall₂_iff_zip.mpr ⟨hlength, fun hmem => ?_⟩
  exact shows_of_mem_lex (List.of_mem_zip hmem).2 (hzip hmem)

theorem balanceOf_append (ps qs : List Piece) :
    balanceOf (ps ++ qs) = balanceOf ps + balanceOf qs := by
  simp only [balanceOf, List.countP_append]
  push_cast
  omega

/-- Pieces have as many brackets open as the tokens that they show. -/
theorem balanceOf_eq_bracketDepth (h : List.Forall₂ Piece.Shows pieces ts) :
    balanceOf pieces = bracketDepth ts := by
  induction h with
  | nil => rfl
  | @cons p t rest others hshows _ ih =>
    have hsingle : balanceOf [p] = t.weight := by
      simp only [balanceOf, List.countP_singleton, hshows.opener, hshows.closer, Token.weight]
      cases t.kind <;> rfl
    rw [← List.singleton_append, balanceOf_append, bracketDepth_cons, ih, hsingle]

end Kinds

/-- The pieces of a text lie in it one after the other, each with the text of its place, and
outside of them there are exactly white space and comments.  Of a text that the reader can scan they
are the tokens, and more brackets are opened than closed if and only if the text waits for more
input. -/
theorem scan_covers (text : Text) :
    (scan text).Pairwise (fun p q => p.stop ≤ q.start) ∧
    (∀ p ∈ scan text, p.LiesIn text) ∧
    (∀ offset < text.length, (∀ p ∈ scan text, ¬ p.Covers offset) ↔ text.InGap offset) ∧
    ((lex text).failure = none →
      (scan text).map Piece.text = (lex text).tokens.map Token.text ∧
        ∀ index, Index.ofText text = .ok index → (0 < index.balance ↔ needsMore text = true)) := by
  have hlayout := layout_scan text
  refine ⟨hlayout.pairwise, hlayout.liesIn, fun offset => hlayout.not_covers_iff, ?_⟩
  intro hscanned
  have htexts := scan_eq_lex hscanned
  refine ⟨htexts, fun index hindex => ?_⟩
  rw [balance_of_ofText hindex, balanceOf_eq_bracketDepth (shows_scan hscanned), needsMore,
    hscanned]
  simp

/-- An open bracket, and one in a comment. -/
theorem scan_covers_comment :
    (∀ p ∈ scan "[a ;(", ¬ p.Covers 4) ∧
      ∃ index, Index.ofText "[a ;(" = .ok index ∧ 0 < index.balance := by
  obtain ⟨-, -, hgaps, hscanned⟩ := scan_covers "[a ;("
  obtain ⟨-, hbalance⟩ := hscanned (by decide)
  refine ⟨(hgaps 4 (by decide)).mpr ⟨.scalar '(', by decide, .inr (by decide)⟩, ?_⟩
  cases hindex : Index.ofText "[a ;(" with
  | error e =>
    have hok : (Index.ofText "[a ;(").isOk = true := by decide +kernel
    simp [hindex, Except.isOk, Except.toBool] at hok
  | ok index => exact ⟨index, rfl, (hbalance index hindex).mpr (by decide)⟩

end Editor

end SmallLisp
