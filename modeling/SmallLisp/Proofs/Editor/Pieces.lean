import SmallLisp.Editor.Scan
import SmallLisp.Proofs.Reading.Lines
/-!
The pieces that an editor sees and the tokens that the reader sees.

The two scans differ only at a double quote, on which the reader's scan fails.  Main statement: a
text that the reader can scan has the same texts as pieces and as tokens.
-/

namespace SmallLisp.Editor

/-- A word ends where an atom ends, or at a double quote. -/
theorem isWordChar_of_isAtomChar {c : CodePoint} (h : isAtomChar c = true) :
    isWordChar c = true := by
  have hends : ∀ c ∈ wordEnds, c ∈ atomEnds := by decide
  obtain ⟨hblank, hatom⟩ := isAtomChar_iff.mp h
  have hword : c ∉ wordEnds := fun hc => hatom (hends c hc)
  simp [isWordChar, hblank, hword]

theorem isAtomChar_of_isWordChar {c : CodePoint} (h : isWordChar c = true)
    (hc : c ≠ .scalar '"') : isAtomChar c = true := by
  have hends : ∀ c ∈ atomEnds, c ∈ wordEnds ∨ c = .scalar '"' := by decide
  simp only [isWordChar, Bool.not_eq_true', Bool.or_eq_false_iff, List.contains_eq_mem,
    decide_eq_false_iff_not] at h
  refine isAtomChar_iff.mpr ⟨h.1, fun hatom => ?_⟩
  rcases hends c hatom with hword | hquote
  · exact h.2 hword
  · exact hc hquote

/-- The editor's scan and the reader's scan of the same text so far. -/
structure Scan.Agrees (e : Scan) (s : SmallLisp.Scan) : Prop where
  mode : match s.mode with
    | .between => e.mode = .between
    | .atom read => ∃ start, e.mode = .word read start
    | .comment => e.mode = .comment
  pieces : e.pieces.toList.map Piece.text = s.tokens.toList.map Token.text

namespace Scan.Agrees

variable {e : Scan} {s : SmallLisp.Scan}

theorem flush (h : Agrees e s) : Agrees e.flush s.flush := by
  have hmode := h.mode
  cases hs : s.mode with
  | atom read =>
    rw [hs] at hmode
    obtain ⟨start, he⟩ := hmode
    rw [SmallLisp.Scan.flush_of_atom hs]
    refine ⟨?_, ?_⟩
    · simp [Scan.flush, he]
    · simp [Scan.flush, he, SmallLisp.Scan.push, h.pieces]
  | between | comment =>
    rw [hs] at hmode
    simpa only [Scan.flush, SmallLisp.Scan.flush, hs, hmode] using h

/-- Any character but a double quote starts the same on both sides. -/
theorem start (h : Agrees e s) (hbetween : s.mode = .between) {c : CodePoint}
    (hc : c ≠ .scalar '"') : Agrees (e.start c) (s.start c) := by
  have hmode := h.mode
  rw [hbetween] at hmode
  have hpiece : ∀ kind, Agrees
      { e with pieces := e.pieces.push { text := [c], start := e.offset, stop := e.offset + 1 } }
      (s.push kind [c]) := by
    intro kind
    refine ⟨?_, by simp [SmallLisp.Scan.push, h.pieces]⟩
    simp only [SmallLisp.Scan.push, hbetween, hmode]
  by_cases hatom : isAtomChar c = true
  · have hword := isWordChar_of_isAtomChar hatom
    have hblank := (isAtomChar_iff.mp hatom).1
    have hcomment : c ≠ .scalar ';' := by
      rintro rfl
      exact absurd hatom (by decide)
    rw [SmallLisp.Scan.start_of_isAtomChar s hatom, Scan.start, hblank, if_neg (by simp),
      if_neg hcomment, if_pos hword]
    exact ⟨⟨e.offset, rfl⟩, h.pieces⟩
  by_cases hblank : Text.isBlank c = true
  · rw [Scan.start, if_pos hblank, SmallLisp.Scan.start, if_pos hblank]
    exact h
  have hends : c ∈ atomEnds := by
    rw [isAtomChar_iff, not_and_not_right] at hatom
    exact hatom (Bool.eq_false_iff.mpr hblank)
  rcases mem_atomEnds_iff.mp hends with rfl | rfl | rfl | rfl | rfl | rfl | rfl
  · exact hpiece .opener
  · exact hpiece .closer
  · exact hpiece .opener
  · exact hpiece .closer
  · exact hpiece .quote
  · exact ⟨rfl, h.pieces⟩
  · exact absurd rfl hc

/-- Where the reader's scan does not fail, the editor's scan goes on in the same way. -/
theorem step (h : Agrees e s) {c : CodePoint} (hstep : (s.step c).failure = none) :
    Agrees (e.step c) (s.step c) := by
  have hfailure := SmallLisp.Scan.failure_of_step hstep
  have hmode := h.mode
  have hoffset : ∀ {e : Scan} {s : SmallLisp.Scan} (i j : Nat), Agrees e s →
      Agrees { e with offset := i } { s with offset := j } := fun _ _ h => ⟨h.mode, h.pieces⟩
  have hquote : ∀ s : SmallLisp.Scan, (s.start c).failure = none → c ≠ .scalar '"' := by
    rintro s hs rfl
    have hfails : (s.start (.scalar '"')).failure ≠ none := by
      simp [SmallLisp.Scan.start, Text.isBlank, CodePoint.toNat]
    exact hfails hs
  rw [SmallLisp.Scan.step, hfailure] at hstep ⊢
  rw [Scan.step]
  cases hs : s.mode with
  | between =>
    rw [hs] at hmode
    simp only [hs, Option.isSome_none, Bool.false_eq_true, if_false] at hstep
    simp only [hmode]
    exact hoffset _ _ (h.start hs (hquote s hstep))
  | atom read =>
    rw [hs] at hmode
    obtain ⟨start, he⟩ := hmode
    simp only [hs, Option.isSome_none, Bool.false_eq_true, if_false] at hstep
    simp only [he]
    by_cases hatom : isAtomChar c = true
    · simp only [hatom, isWordChar_of_isAtomChar hatom, if_true]
      exact ⟨⟨start, rfl⟩, h.pieces⟩
    · simp only [hatom, Bool.false_eq_true, if_false] at hstep ⊢
      have hc := hquote _ hstep
      have hword : isWordChar c = false :=
        Bool.eq_false_iff.mpr fun hword => hatom (isAtomChar_of_isWordChar hword hc)
      simp only [hword, Bool.false_eq_true, if_false]
      refine hoffset _ _ (h.flush.start ?_ hc)
      rw [SmallLisp.Scan.flush_of_atom hs]
  | comment =>
    rw [hs] at hmode
    simp only [hmode]
    split
    · exact ⟨rfl, h.pieces⟩
    · exact hoffset _ _ h

theorem run (h : Agrees e s) {text : Text} (hrun : (s.run text).failure = none) :
    Agrees (text.foldl Scan.step e) (s.run text) := by
  induction text generalizing e s with
  | nil => exact h
  | cons c rest ih => exact ih (h.step (SmallLisp.Scan.failure_of_run hrun)) hrun

end Scan.Agrees

/-- The pieces of a text that the reader can scan have the texts of its tokens. -/
theorem scan_eq_lex {text : Text} (h : (lex text).failure = none) :
    (scan text).map Piece.text = (lex text).tokens.map Token.text := by
  have hagrees : Scan.Agrees {} {} := ⟨rfl, rfl⟩
  rw [lex_failure] at h
  exact (hagrees.run h).flush.pieces

end SmallLisp.Editor
