import SmallLisp.Proofs.Reading.Writing
import SmallLisp.Text.Lines
/-!
The positions of a text and its lines.

A position counts the line feeds before an offset and the characters after the last of them.  Main
statements: the position of an offset is the only one at which the lines before it and the column
add up to the offset, positions are in the order of their offsets, and what a text has at an offset,
the line of its position has at the column.
-/

namespace SmallLisp.Text

open CodePoint (scalar)

theorem positionOf_length (text : Text) :
    positionOf text text.length = ⟨text.count (scalar '\n'), text.currentLine.length⟩ := by
  induction text using List.reverseRecOn with
  | nil => rfl
  | append_singleton before c ih =>
    have hlast := positionFrom_append ⟨0, 0⟩ before [c] 1
    rw [positionOf] at ih
    rw [positionOf, List.length_append, List.length_singleton, hlast, ih]
    simp only [positionFrom, Position.advance]
    by_cases hc : c = scalar '\n'
    · subst hc
      simp [currentLine_append_lineFeed]
    · simp [hc, currentLine_append_of_ne]

/-- The position of an offset is made by what comes before it. -/
theorem positionOf_append (before after : Text) :
    positionOf (before ++ after) before.length =
      ⟨before.count (scalar '\n'), before.currentLine.length⟩ := by
  have hparts := positionFrom_append ⟨0, 0⟩ before after 0
  rw [Nat.add_zero, positionFrom] at hparts
  rw [← positionOf_length]
  exact hparts

theorem currentLine_append (before : Text) {words : Text} (h : scalar '\n' ∉ words) :
    currentLine (before ++ words) = before.currentLine ++ words := by
  induction words using List.reverseRecOn with
  | nil => rw [List.append_nil, List.append_nil]
  | append_singleton words c ih =>
    simp only [List.mem_append, List.mem_singleton, not_or] at h
    rw [← List.append_assoc, currentLine_append_of_ne _ (Ne.symm h.2), ih h.1, List.append_assoc]

theorem positionOf_eq {text : Text} {offset : Nat} (h : offset ≤ text.length) :
    positionOf text offset =
      ⟨(text.take offset).count (scalar '\n'), (currentLine (text.take offset)).length⟩ := by
  have hparts := positionOf_append (text.take offset) (text.drop offset)
  rwa [List.take_append_drop, List.length_take_of_le h] at hparts

section Lines

theorem length_splitOn (text : Text) :
    (text.splitOn (scalar '\n')).length = text.count (scalar '\n') + 1 := by
  induction text with
  | nil => rfl
  | cons c rest ih =>
    rw [List.splitOn_cons_eq_if_modifyHead]
    split <;> simp_all

/-- A text begins with its first line. -/
theorem getElem?_splitOn_zero (text : Text) :
    (text.splitOn (scalar '\n'))[0]? = some (text.takeWhile (· != scalar '\n')) := by
  induction text with
  | nil => rfl
  | cons c rest ih =>
    rw [List.splitOn_cons_eq_if_modifyHead]
    split <;> simp_all

/-- The line of an offset: what the text has of it before the offset, and the rest of it. -/
theorem getElem?_splitOn (before after : Text) :
    ((before ++ after).splitOn (scalar '\n'))[before.count (scalar '\n')]? =
      some (before.currentLine ++ after.takeWhile (· != scalar '\n')) := by
  induction before using List.reverseRecOn generalizing after with
  | nil => exact getElem?_splitOn_zero after
  | append_singleton before c ih =>
    rw [List.append_assoc, List.singleton_append]
    by_cases hc : c = scalar '\n'
    · subst hc
      rw [List.splitOn_append_cons_self, currentLine_append_lineFeed, List.count_append,
        List.count_singleton_self, ← length_splitOn, List.getElem?_append_right (Nat.le_refl _),
        Nat.sub_self, getElem?_splitOn_zero, List.nil_append]
    · have hcount : (before ++ [c]).count (scalar '\n') = before.count (scalar '\n') := by
        simp [hc]
      rw [hcount, ih, currentLine_append_of_ne _ hc, List.append_assoc,
        List.takeWhile_cons_of_pos (by simpa using hc)]
      rfl

/-- Where a text has a word, the line of its position has the word from the column on. -/
theorem exists_line_of_word {text word : Text} {offset : Nat} (hword : word <+: text.drop offset)
    (hoffset : offset ≤ text.length) (hfeed : scalar '\n' ∉ word) :
    ∃ line, (text.splitOn (scalar '\n'))[(positionOf text offset).line]? = some line ∧
      word <+: line.drop (positionOf text offset).column := by
  obtain ⟨after, hafter⟩ := hword
  have hline := getElem?_splitOn (text.take offset) (text.drop offset)
  rw [List.take_append_drop] at hline
  rw [positionOf_eq hoffset]
  refine ⟨_, hline, ?_⟩
  rw [List.drop_left' rfl, ← hafter, List.takeWhile_append_of_pos]
  · exact List.prefix_append ..
  · intro c hc
    have hne : c ≠ scalar '\n' := fun heq => hfeed (heq ▸ hc)
    simpa using hne

end Lines

/-- The order of positions: by their lines, and on one line by their columns. -/
def Position.Precedes (p q : Position) : Prop :=
  p.line < q.line ∨ p.line = q.line ∧ p.column < q.column

/-- How many characters a text has before a line: the lines before it, each with its line feed. -/
def lengthBefore (text : Text) (line : Nat) : Nat :=
  (((text.splitOn (scalar '\n')).take line).flatMap fun words => words ++ [scalar '\n']).length

/-- A position that a text has at an offset: there are as many line feeds, the column lies on the
line or at its end, and the lines before it and the column make up the offset. -/
structure Position.IsAt (p : Position) (text : Text) (offset : Nat) : Prop where
  feeds : p.line ≤ text.count (scalar '\n')
  column : ∃ line, (text.splitOn (scalar '\n'))[p.line]? = some line ∧ p.column ≤ line.length
  distance : text.lengthBefore p.line + p.column = offset

section Offsets

variable {text : Text} {p q : Position} {i j : Nat}

theorem Position.precedes_trichotomy (p q : Position) : p.Precedes q ∨ p = q ∨ q.Precedes p := by
  obtain ⟨line, column⟩ := p
  obtain ⟨line', column'⟩ := q
  simp only [Precedes, Position.mk.injEq]
  omega

theorem Position.Precedes.ne (h : p.Precedes q) : p ≠ q := by
  rintro rfl
  simp [Precedes] at h

/-- One more line, with its line feed. -/
theorem lengthBefore_succ {number : Nat} {line : Text}
    (h : (text.splitOn (scalar '\n'))[number]? = some line) :
    text.lengthBefore (number + 1) = text.lengthBefore number + (line.length + 1) := by
  simp [lengthBefore, List.take_add_one, h]

theorem lengthBefore_mono {number number' : Nat} (h : number ≤ number') :
    text.lengthBefore number ≤ text.lengthBefore number' := by
  obtain ⟨k, rfl⟩ := Nat.exists_eq_add_of_le h
  simp [lengthBefore, List.take_add]

/-- A position that comes before another is at a smaller offset. -/
theorem Position.IsAt.lt_of_precedes (hp : p.IsAt text i) (hq : q.IsAt text j)
    (h : p.Precedes q) : i < j := by
  obtain ⟨line, hline, hcolumn⟩ := hp.column
  have hi := hp.distance
  have hj := hq.distance
  rcases h with hlines | ⟨hlines, hcolumns⟩
  · -- The line of the first position and its line feed come before the line of the second.
    have hnext := lengthBefore_succ hline
    have hmono : text.lengthBefore (p.line + 1) ≤ text.lengthBefore q.line :=
      lengthBefore_mono hlines
    omega
  · rw [hlines] at hi
    omega

/-- The lines before an offset and what comes before it on its own line are all that comes before
it. -/
theorem lengthBefore_count (before after : Text) :
    (before ++ after).lengthBefore (before.count (scalar '\n')) + before.currentLine.length =
      before.length := by
  induction before using List.reverseRecOn generalizing after with
  | nil => rfl
  | append_singleton before c ih =>
    rw [List.append_assoc, List.singleton_append, List.length_append, List.length_singleton,
      List.count_append]
    by_cases hc : c = scalar '\n'
    · subst hc
      have hline := getElem?_splitOn before (scalar '\n' :: after)
      rw [List.takeWhile_cons_of_neg (by simp), List.append_nil] at hline
      rw [List.count_singleton_self, lengthBefore_succ hline, currentLine_append_lineFeed,
        List.length_nil, Nat.add_zero, ← Nat.add_assoc, ih]
    · have hnone : List.count (scalar '\n') [c] = 0 := by simp [hc]
      rw [hnone, Nat.add_zero, currentLine_append_of_ne _ hc, List.length_append,
        List.length_singleton, ← Nat.add_assoc, ih]

/-- A text has the position of an offset at this offset. -/
theorem isAt_positionOf (h : i ≤ text.length) : (positionOf text i).IsAt text i := by
  have hparts : text.take i ++ text.drop i = text := List.take_append_drop i text
  have hline := getElem?_splitOn (text.take i) (text.drop i)
  have hdistance := lengthBefore_count (text.take i) (text.drop i)
  rw [hparts] at hline hdistance
  rw [List.length_take_of_le h] at hdistance
  rw [positionOf_eq h]
  refine ⟨?_, ⟨_, hline, ?_⟩, hdistance⟩
  · exact (List.take_sublist i text).count_le _
  · rw [List.length_append]
    exact Nat.le_add_right _ _

/-- The position of an offset is the only one that the text has there. -/
theorem positionOf_eq_iff (h : i ≤ text.length) : positionOf text i = p ↔ p.IsAt text i := by
  constructor
  · rintro rfl
    exact isAt_positionOf h
  · intro hp
    have hi := isAt_positionOf h
    rcases Position.precedes_trichotomy (positionOf text i) p with hlt | heq | hlt
    · exact absurd (hi.lt_of_precedes hp hlt) (Nat.lt_irrefl i)
    · exact heq
    · exact absurd (hp.lt_of_precedes hi hlt) (Nat.lt_irrefl i)

/-- No two offsets of a text have the same position. -/
theorem positionOf_injective (hi : i ≤ text.length) (hj : j ≤ text.length)
    (h : positionOf text i = positionOf text j) : i = j := by
  have hdistance := (isAt_positionOf hi).distance
  rw [h] at hdistance
  exact hdistance.symm.trans (isAt_positionOf hj).distance

/-- Positions are in the order of their offsets. -/
theorem positionOf_precedes_iff (hi : i ≤ text.length) (hj : j ≤ text.length) :
    (positionOf text i).Precedes (positionOf text j) ↔ i < j := by
  have hat := isAt_positionOf hi
  have hat' := isAt_positionOf hj
  constructor
  · exact hat.lt_of_precedes hat'
  · intro hlt
    rcases Position.precedes_trichotomy (positionOf text i) (positionOf text j) with h | heq | h
    · exact h
    · exact absurd (positionOf_injective hi hj heq) (Nat.ne_of_lt hlt)
    · exact absurd (hat'.lt_of_precedes hat h) (Nat.lt_asymm hlt)

end Offsets

end SmallLisp.Text
