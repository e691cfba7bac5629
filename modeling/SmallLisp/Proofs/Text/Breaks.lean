import SmallLisp.Proofs.Text.Positions
/-!
Lines that end at line feeds, and lines that end at any line break.

Positions count line feeds, and the lines of a document end at other breaks too.  Main statement:
as long as there are no other breaks before an offset, its line by either count is the same, and the
line has at the column what the text has at the offset.
-/

namespace SmallLisp.Text

open CodePoint (scalar)

/-- Whether every line break of a text is a line feed, or a carriage return with a line feed after
it. -/
def breaksAtLineFeeds : Text → Bool
  | [] => true
  | .scalar '\r' :: .scalar '\n' :: rest => breaksAtLineFeeds rest
  | c :: rest => (c == scalar '\n' || !isLineBreak c) && breaksAtLineFeeds rest

/-- The first line of a text, with its line break. -/
def firstLine (text : Text) : Text :=
  (lines text).headD []

theorem lines_cons_of_not_isLineBreak {c : CodePoint} (h : isLineBreak c = false) (rest : Text) :
    lines (c :: rest) = (c :: firstLine rest) :: (lines rest).tail := by
  have hc : c ≠ scalar '\r' := by
    rintro rfl
    exact absurd h (by decide)
  rw [lines.eq_3 _ _ (by simp_all), if_neg (by simp [h]), firstLine]
  cases lines rest <;> rfl

theorem lines_lineFeed (rest : Text) :
    lines (scalar '\n' :: rest) = [scalar '\n'] :: lines rest := by
  rw [lines.eq_3 _ _ (by simp), if_pos (by decide)]

theorem firstLine_cons_of_not_isLineBreak {c : CodePoint} (h : isLineBreak c = false)
    (rest : Text) : firstLine (c :: rest) = c :: firstLine rest := by
  rw [firstLine, lines_cons_of_not_isLineBreak h]
  rfl

/-- What has no line break in it lies on the first line. -/
theorem firstLine_append {word : Text} (h : ∀ c ∈ word, isLineBreak c = false) (rest : Text) :
    firstLine (word ++ rest) = word ++ firstLine rest := by
  induction word with
  | nil => rfl
  | cons c word ih =>
    rw [List.forall_mem_cons] at h
    rw [List.cons_append, firstLine_cons_of_not_isLineBreak h.1, ih h.2, List.cons_append]

/-- A line has no line feed but at its end. -/
theorem lineFeed_not_mem_dropLast {text line : Text} (h : line ∈ lines text) :
    scalar '\n' ∉ line.dropLast := by
  fun_induction lines text generalizing line with
  | case1 => cases h
  | case2 rest ih =>
    rcases List.mem_cons.mp h with rfl | hrest
    · decide
    · exact ih hrest
  | case3 c rest _ _ ih =>
    rcases List.mem_cons.mp h with rfl | hrest
    · simp
    · exact ih hrest
  | case4 c rest _ _ hlines ih =>
    obtain rfl := List.mem_singleton.mp h
    simp
  | case5 c rest _ hbreak first others hlines ih =>
    rcases List.mem_cons.mp h with rfl | hothers
    · have hc : scalar '\n' ≠ c := by
        rintro rfl
        exact hbreak (by decide)
      have hfirst := ih (hlines ▸ List.mem_cons_self)
      cases first with
      | nil => simp
      | cons d first =>
        rw [List.dropLast_cons_of_ne_nil (List.cons_ne_nil d first), List.mem_cons, not_or]
        exact ⟨hc, hfirst⟩
    · exact ih (hlines ▸ List.mem_cons_of_mem _ hothers)

theorem lines_ne_nil {text : Text} (h : text ≠ []) : lines text ≠ [] := by
  rintro hlines
  have hflatten := flatten_lines text
  rw [hlines] at hflatten
  exact h hflatten.symm

theorem head?_firstLine (text : Text) : (firstLine text).head? = text.head? := by
  rw [firstLine]
  fun_cases lines text with
  | case1 => rfl
  | case2 rest => rfl
  | case3 c rest => rfl
  | case4 c rest => rfl
  | case5 c rest => rfl

theorem currentLine_append_lineFeed_cons (before after : Text) :
    currentLine (before ++ scalar '\n' :: after) = currentLine after := by
  induction after using List.reverseRecOn with
  | nil => exact currentLine_append_lineFeed before
  | append_singleton after c ih =>
    rw [← List.cons_append, ← List.append_assoc]
    by_cases hc : c = scalar '\n'
    · rw [hc, currentLine_append_lineFeed, currentLine_append_lineFeed]
    · rw [currentLine_append_of_ne _ hc, currentLine_append_of_ne _ hc, ih]

theorem currentLine_of_not_mem {text : Text} (h : scalar '\n' ∉ text) : currentLine text = text :=
  currentLine_append [] h

theorem currentLine_cons_of_mem {text : Text} (h : scalar '\n' ∈ text) (c : CodePoint) :
    currentLine (c :: text) = currentLine text := by
  obtain ⟨before, after, rfl⟩ := List.append_of_mem h
  rw [← List.cons_append, currentLine_append_lineFeed_cons, currentLine_append_lineFeed_cons]

/-- A character that breaks no line, before lines that are found by counting line feeds. -/
theorem getElem?_lines_cons {c : CodePoint} (hc : isLineBreak c = false) {before after : Text}
    (h : (lines (before ++ after))[before.count (scalar '\n')]? =
      some (currentLine before ++ firstLine after)) :
    (lines (c :: before ++ after))[(c :: before).count (scalar '\n')]? =
      some (currentLine (c :: before) ++ firstLine after) := by
  have hne : c ≠ scalar '\n' := by
    rintro rfl
    exact absurd hc (by decide)
  rw [List.count_cons_of_ne hne, List.cons_append, lines_cons_of_not_isLineBreak hc]
  by_cases hfeed : scalar '\n' ∈ before
  · obtain ⟨k, hk⟩ := Nat.exists_eq_succ_of_ne_zero
      (Nat.pos_iff_ne_zero.mp (List.count_pos_iff.mpr hfeed))
    rw [hk] at h ⊢
    rw [currentLine_cons_of_mem hfeed, List.getElem?_cons_succ, List.getElem?_tail, h]
  · have hzero := List.count_eq_zero.mpr hfeed
    have hcons : scalar '\n' ∉ c :: before := by simp [hfeed, hne.symm]
    rw [hzero, ← List.head?_eq_getElem?, currentLine_of_not_mem hfeed] at h
    rw [hzero, List.getElem?_cons_zero, currentLine_of_not_mem hcons, firstLine,
      List.headD_eq_head?_getD, h]
    rfl

/-- While lines are broken at line feeds alone, the line that a text goes on with is found by
counting them: it has what comes after the last one and the first line of the rest. -/
theorem getElem?_lines_append {before : Text} (h : breaksAtLineFeeds before = true) {after : Text}
    (hafter : after ≠ []) : (lines (before ++ after))[before.count (scalar '\n')]? =
      some (currentLine before ++ firstLine after) := by
  fun_induction breaksAtLineFeeds before with
  | case1 =>
    rw [List.nil_append, List.count_nil, ← List.head?_eq_getElem?, firstLine,
      List.headD_eq_head?_getD]
    cases hlines : lines after with
    | nil => exact absurd hlines (lines_ne_nil hafter)
    | cons first others => rfl
  | case2 rest ih =>
    have hcount : (scalar '\r' :: scalar '\n' :: rest).count (scalar '\n') =
        rest.count (scalar '\n') + 1 := by simp
    have hlines : lines (scalar '\r' :: scalar '\n' :: (rest ++ after)) =
        [scalar '\r', scalar '\n'] :: lines (rest ++ after) := by rw [lines]
    have hcurrent : currentLine (scalar '\r' :: scalar '\n' :: rest) = currentLine rest :=
      currentLine_append_lineFeed_cons [scalar '\r'] rest
    rw [hcount, hcurrent, List.cons_append, List.cons_append, hlines, List.getElem?_cons_succ]
    exact ih h
  | case3 c rest _ ih =>
    rw [Bool.and_eq_true, Bool.or_eq_true, Bool.not_eq_true', beq_iff_eq] at h
    obtain ⟨hc, hrest⟩ := h
    rcases hc with rfl | hc
    · have hcurrent : currentLine (scalar '\n' :: rest) = currentLine rest :=
        currentLine_append_lineFeed_cons [] rest
      rw [hcurrent, List.count_cons_self, List.cons_append, lines_lineFeed,
        List.getElem?_cons_succ]
      exact ih hrest
    · exact getElem?_lines_cons hc (ih hrest)

/-- The line of a position, if lines are broken at line feeds alone up to there. -/
theorem getElem?_lines_positionOf {text : Text} {offset : Nat}
    (h : breaksAtLineFeeds (text.take offset) = true) (hoffset : offset < text.length) :
    (lines text)[(positionOf text offset).line]? =
        some (currentLine (text.take offset) ++ firstLine (text.drop offset)) ∧
      (positionOf text offset).column = (currentLine (text.take offset)).length := by
  have hrest : text.drop offset ≠ [] := by
    rw [ne_eq, List.drop_eq_nil_iff]
    omega
  have hline := getElem?_lines_append h hrest
  rw [List.take_append_drop] at hline
  rw [positionOf_eq (Nat.le_of_lt hoffset)]
  exact ⟨hline, rfl⟩

end SmallLisp.Text
