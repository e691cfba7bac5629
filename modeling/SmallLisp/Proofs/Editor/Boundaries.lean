import SmallLisp.Proofs.Editor.Places
/-!
What stands next to the pieces of a text.

A word is cut where a character follows that is no part of one, so two words never touch.  Main
statements: a word has only characters of words and none after it, and what stands directly before
a word that follows another one is white space.
-/

namespace SmallLisp.Editor

theorem isBlank_eq_false_of_isWordChar {c : CodePoint} (h : isWordChar c = true) :
    Text.isBlank c = false := by
  rw [isWordChar, Bool.not_eq_true', Bool.or_eq_false_iff] at h
  exact h.1

theorem isBlank_or_mem_wordEnds {c : CodePoint} (h : isWordChar c = false) :
    Text.isBlank c = true ∨ c ∈ wordEnds := by
  rwa [isWordChar, Bool.not_eq_false', Bool.or_eq_true, List.contains_eq_mem,
    decide_eq_true_eq] at h

/-- A character that is no part of a word, white space or the start of a comment is no word. -/
theorem isWord_singleton {c : CodePoint} (hblank : Text.isBlank c = false)
    (hcomment : c ≠ .scalar ';') (hword : isWordChar c = false) (start stop : Nat) :
    Piece.isWord ⟨[c], start, stop⟩ = false := by
  have hends := (isBlank_or_mem_wordEnds hword).resolve_left (Bool.eq_false_iff.mp hblank)
  have hmarks : ∀ c ∈ wordEnds, c ≠ .scalar ';' → ∀ start stop,
      Piece.isWord ⟨[c], start, stop⟩ = false := by
    simp [wordEnds, Text.ofString, Piece.isWord, Piece.isOpener, Piece.isCloser]
  exact hmarks c hends hcomment start stop

/-- Pieces whose words have only characters of words, with another character after them. -/
def CutsWords (pieces : List Piece) (text : Text) : Prop :=
  ∀ p ∈ pieces, p.isWord = true → (∀ c ∈ p.text, isWordChar c = true) ∧
    ∃ c, text[p.stop]? = some c ∧ isWordChar c = false

theorem CutsWords.append {pieces : List Piece} {text : Text} (h : CutsWords pieces text)
    (more : Text) : CutsWords pieces (text ++ more) := by
  intro p hp hword
  obtain ⟨hchars, c, hc, hend⟩ := h p hp hword
  obtain ⟨hlt, -⟩ := List.getElem?_eq_some_iff.mp hc
  exact ⟨hchars, c, by rwa [List.getElem?_append_left hlt], hend⟩

theorem CutsWords.concat {pieces : List Piece} {text : Text} (h : CutsWords pieces text)
    {p : Piece} (hp : p.isWord = true → (∀ c ∈ p.text, isWordChar c = true) ∧
      ∃ c, text[p.stop]? = some c ∧ isWordChar c = false) : CutsWords (pieces ++ [p]) text := by
  intro q hq
  rcases List.mem_append.mp hq with hold | hnew
  · exact h q hold
  · obtain rfl := List.mem_singleton.mp hnew
    exact hp

namespace Scan

/-- A scan that has cut all words but the one that it is in. -/
structure Cuts (s : Scan) (text : Text) : Prop where
  offset : s.offset = text.length
  read : ∀ read start, s.mode = .word read start → ∀ c ∈ read, isWordChar c = true
  pieces : CutsWords s.pieces.toList text

variable {s : Scan} {text : Text}

theorem Cuts.start (hoffset : s.offset = text.length) (hmode : s.mode = .between) {c : CodePoint}
    (hpieces : CutsWords s.pieces.toList (text ++ [c])) :
    Cuts { s.start c with offset := s.offset + 1 } (text ++ [c]) := by
  have hlength : s.offset + 1 = (text ++ [c]).length := by simp [hoffset]
  rw [Scan.start]
  split_ifs with hblank hsemicolon hword
  · exact ⟨hlength, by simp [hmode], hpieces⟩
  · exact ⟨hlength, by simp, hpieces⟩
  · refine ⟨hlength, ?_, hpieces⟩
    rintro read start heq d hd
    obtain ⟨rfl, -⟩ := ScanMode.word.inj heq
    rwa [List.mem_singleton.mp hd]
  · refine ⟨hlength, by simp [hmode], ?_⟩
    rw [Array.toList_push]
    refine hpieces.concat fun hisWord => ?_
    rw [isWord_singleton (by simpa using hblank) hsemicolon (by simpa using hword)] at hisWord
    exact absurd hisWord Bool.false_ne_true

theorem Cuts.step (h : s.Cuts text) (c : CodePoint) : (s.step c).Cuts (text ++ [c]) := by
  obtain ⟨hoffset, hread, hpieces⟩ := h
  have hlength : s.offset + 1 = (text ++ [c]).length := by simp [hoffset]
  rw [Scan.step]
  cases hmode : s.mode with
  | between => exact Cuts.start hoffset hmode (hpieces.append [c])
  | word read start =>
    have hchars := hread read start hmode
    by_cases hword : isWordChar c = true
    · simp only [hword, if_true]
      refine ⟨hlength, ?_, hpieces.append [c]⟩
      rintro read' start' heq d hd
      obtain ⟨rfl, -⟩ := ScanMode.word.inj heq
      rcases List.mem_cons.mp hd with rfl | hold
      · exact hword
      · exact hchars d hold
    · simp only [hword]
      have hflush : s.flush = { s with
          mode := .between, pieces := s.pieces.push ⟨read.reverse, start, s.offset⟩ } := by
        rw [flush, hmode]
      have hcut : CutsWords s.flush.pieces.toList (text ++ [c]) := by
        rw [hflush, Array.toList_push]
        refine (hpieces.append [c]).concat fun _ => ⟨by simpa using hchars, c, ?_, ?_⟩
        · simp [hoffset]
        · simpa using hword
      have hnext := Cuts.start (s := s.flush) (by rw [hflush]; exact hoffset) (by rw [hflush]) hcut
      rwa [hflush] at hnext ⊢
  | comment =>
    by_cases hc : c = .scalar '\n'
    · simp only [if_pos hc]
      exact ⟨hlength, by simp, hpieces.append [c]⟩
    · simp only [if_neg hc]
      exact ⟨hlength, by simp [hmode], hpieces.append [c]⟩

theorem cuts_run (text : Text) : Cuts (text.foldl Scan.step {}) text := by
  induction text using List.reverseRecOn with
  | nil => exact ⟨rfl, by simp, by simp [CutsWords]⟩
  | append_singleton before c ih =>
    rw [List.foldl_append]
    exact ih.step c

end Scan

/-- A word has only characters of words, and none comes after it. -/
theorem isWordChar_of_isWord {text : Text} {p : Piece} (hp : p ∈ scan text)
    (hword : p.isWord = true) : (∀ c ∈ p.text, isWordChar c = true) ∧
      ∀ c, text[p.stop]? = some c → isWordChar c = false := by
  obtain ⟨hoffset, hread, hpieces⟩ := Scan.cuts_run text
  have hcut : p ∈ (text.foldl Scan.step {}).pieces.toList →
      (∀ c ∈ p.text, isWordChar c = true) ∧
        ∀ c, text[p.stop]? = some c → isWordChar c = false := by
    intro hold
    obtain ⟨hchars, c, hc, hend⟩ := hpieces p hold hword
    refine ⟨hchars, fun d hd => ?_⟩
    obtain rfl := Option.some.inj (hc.symm.trans hd)
    exact hend
  rw [scan, Scan.flush] at hp
  split at hp
  · rename_i read start hmode
    rw [Array.toList_push, List.mem_append, List.mem_singleton] at hp
    rcases hp with hold | rfl
    · exact hcut hold
    · refine ⟨by simpa using hread read start hmode, fun c hc => ?_⟩
      simp [hoffset] at hc
  · exact hcut hp

theorem Piece.LiesIn.exists_first {text : Text} {p : Piece} (h : p.LiesIn text) :
    ∃ c ∈ p.text, text[p.start]? = some c := by
  obtain ⟨hstart, hstop, htext⟩ := h
  have hlt : p.start < text.length := by omega
  refine ⟨text[p.start], ?_, List.getElem?_eq_getElem hlt⟩
  rw [htext, List.extract_eq_take_drop, List.mem_iff_getElem?]
  refine ⟨0, ?_⟩
  rw [List.getElem?_take_of_lt (by omega), List.getElem?_drop, Nat.add_zero,
    List.getElem?_eq_getElem hlt]

/-- From its start on a text has the piece and then what comes after its stop. -/
theorem Piece.LiesIn.drop_start {text : Text} {p : Piece} (h : p.LiesIn text) :
    text.drop p.start = p.text ++ text.drop p.stop := by
  have hstart := h.start_lt
  rw [h.text_eq, List.extract_eq_take_drop]
  conv_lhs => rw [← List.take_append_drop (p.stop - p.start) (text.drop p.start)]
  rw [List.drop_drop]
  congr 2
  omega

theorem Piece.LiesIn.stop_eq {text : Text} {p : Piece} (h : p.LiesIn text) :
    p.stop = p.start + p.text.length := by
  have hstart := h.start_lt
  have hstop := h.stop_le
  rw [h.text_eq, List.extract_eq_take_drop, List.length_take, List.length_drop]
  omega

theorem Piece.LiesIn.mem_of_covers {text : Text} {p : Piece} (h : p.LiesIn text) {offset : Nat}
    (hcovers : p.Covers offset) {c : CodePoint} (hc : text[offset]? = some c) : c ∈ p.text := by
  obtain ⟨hstart, hstop⟩ := hcovers
  obtain ⟨i, rfl⟩ := Nat.exists_eq_add_of_le hstart
  have hlt : i < p.text.length := by
    have hlength := h.stop_eq
    omega
  rw [← List.getElem?_drop, h.drop_start, List.getElem?_append_left hlt] at hc
  exact List.mem_of_getElem? hc

section Gaps

variable {text : Text} {outer inner : List Piece} {p q : Piece}

/-- Between two pieces that follow each other there are only white space and comments. -/
theorem inGap_between (h : scan text = outer ++ p :: q :: inner) {i : Nat} (hstop : p.stop ≤ i)
    (hstart : i < q.start) : text.InGap i := by
  have hlayout := layout_scan text
  rw [h] at hlayout
  have hq := hlayout.liesIn q (by simp)
  have hqstart := hq.start_lt
  have hqstop := hq.stop_le
  have hpstart := (hlayout.liesIn p (by simp)).start_lt
  obtain ⟨-, hrest, houter⟩ := List.pairwise_append.mp hlayout.pairwise
  obtain ⟨-, hinner⟩ := List.pairwise_cons.mp hrest
  obtain ⟨hafter, -⟩ := List.pairwise_cons.mp hinner
  refine (hlayout.not_covers_iff (by omega)).mp fun r hr hcovers => ?_
  obtain ⟨hrstart, hrstop⟩ := hcovers
  rcases List.mem_append.mp hr with hbefore | hcons
  · have hle := houter r hbefore p (by simp)
    omega
  · rcases List.mem_cons.mp hcons with rfl | hcons
    · omega
    rcases List.mem_cons.mp hcons with rfl | hlater
    · omega
    · have hle := hafter r hlater
      omega

theorem stop_le_start (h : scan text = outer ++ p :: q :: inner) : p.stop ≤ q.start := by
  have hpairwise := (layout_scan text).pairwise
  rw [h] at hpairwise
  obtain ⟨-, hrest, -⟩ := List.pairwise_append.mp hpairwise
  exact (List.pairwise_cons.mp hrest).1 q List.mem_cons_self

theorem not_inGap_start (hq : q ∈ scan text) : ¬ text.InGap q.start := by
  have hlayout := layout_scan text
  have hlies := hlayout.liesIn q hq
  have hstart := hlies.start_lt
  have hstop := hlies.stop_le
  rw [← hlayout.not_covers_iff (by omega)]
  exact fun hnone => hnone q hq ⟨Nat.le_refl _, hstart⟩

/-- What is left out before a piece on the line of the piece is white space. -/
theorem isBlank_of_inGap {i j : Nat} (hi : text.InGap i) (hij : i ≤ j) (hj : ¬ text.InGap j)
    (hlt : j < text.length) (hfeed : .scalar '\n' ∉ (text.drop (i + 1)).take (j - i)) :
    ∃ c, text[i]? = some c ∧ Text.isBlank c = true := by
  obtain ⟨c, hc, hblank | hcomment⟩ := hi
  · exact ⟨c, hc, hblank⟩
  · -- A comment would go on up to the piece.
    have hsplit : text.take (j + 1) =
        text.take (i + 1) ++ (text.drop (i + 1)).take (j - i) := by
      rw [← List.take_add]
      congr 1
      omega
    have hmem : .scalar ';' ∈ Text.currentLine (text.take (j + 1)) := by
      rw [hsplit, Text.currentLine_append _ hfeed]
      exact List.mem_append_left _ hcomment
    exact absurd ⟨_, List.getElem?_eq_getElem hlt, .inr hmem⟩ hj

/-- Two words do not touch, and the second one has white space before it. -/
theorem exists_blank_before (h : scan text = outer ++ p :: q :: inner) (hp : p.isWord = true)
    (hq : q.isWord = true) : p.stop < q.start ∧
      ∃ c, text[q.start - 1]? = some c ∧ Text.isBlank c = true := by
  have hlayout := layout_scan text
  have hpmem : p ∈ scan text := by simp [h]
  have hqmem : q ∈ scan text := by simp [h]
  have hlies := hlayout.liesIn q hqmem
  obtain ⟨first, hfirst, hget⟩ := hlies.exists_first
  have hword := (isWordChar_of_isWord hqmem hq).1 first hfirst
  have hle := stop_le_start h
  have hne : p.stop ≠ q.start := by
    intro heq
    have hend := (isWordChar_of_isWord hpmem hp).2 first (heq ▸ hget)
    exact Bool.false_ne_true (hend.symm.trans hword)
  have hlt : p.stop < q.start := by omega
  have hstart := hlies.start_lt
  have hstop := hlies.stop_le
  refine ⟨hlt, isBlank_of_inGap (inGap_between h (i := q.start - 1) (by omega) (by omega))
    (Nat.sub_le _ 1) (not_inGap_start hqmem) (by omega) fun hfeed => ?_⟩
  have hone : (text.drop (q.start - 1 + 1)).take (q.start - (q.start - 1)) = [first] := by
    have hnext : q.start - 1 + 1 = q.start := by omega
    have hcount : q.start - (q.start - 1) = 1 := by omega
    rw [hnext, hcount, List.take_one, List.head?_drop, hget]
    rfl
  rw [hone, List.mem_singleton] at hfeed
  exact absurd hword (by rw [← hfeed]; decide)

end Gaps

end SmallLisp.Editor
