import Mathlib.Data.List.TakeWhile
import SmallLisp.Editor.Workspace
/-!
The word at a position of a document.

From a column of a line one looks to both sides for a character that ends a word.  Main statement:
up to the end of the line what is found is the longest run of other characters around the column,
and where it starts; beyond the end the search fails, although the text before the same position
is found there.
-/

namespace SmallLisp.Editor

section Runs

/-- A run of characters that end no word: those of a line from one column up to another. -/
structure IsRun (characters : Text) (start stop : Nat) : Prop where
  start_le : start ≤ stop
  stop_le : stop ≤ characters.length
  inside : ∀ i c, start ≤ i → i < stop → characters[i]? = some c → isDelimiter c = false

/-- The longest run of characters that end no word of those that have a column in them or at one of
their ends. -/
structure IsLongestRun (characters : Text) (column start stop : Nat) : Prop where
  run : IsRun characters start stop
  start_le : start ≤ column
  le_stop : column ≤ stop
  longest : ∀ first last, IsRun characters first last → first ≤ column → column ≤ last →
    start ≤ first ∧ last ≤ stop

theorem IsLongestRun.unique {characters : Text} {column start stop first last : Nat}
    (h : IsLongestRun characters column start stop)
    (h' : IsLongestRun characters column first last) : start = first ∧ stop = last := by
  obtain ⟨hstart, hstop⟩ := h.longest first last h'.run h'.start_le h'.le_stop
  obtain ⟨hfirst, hlast⟩ := h'.longest start stop h.run h.start_le h.le_stop
  exact ⟨Nat.le_antisymm hstart hfirst, Nat.le_antisymm hlast hstop⟩

/-- The parts of a line: a word between characters that end it, as far as there are any. -/
structure IsWordBetween (before word after : Text) : Prop where
  before : ∀ c ∈ before.getLast?, isDelimiter c = true
  word : ∀ c ∈ word, isDelimiter c = false
  after : ∀ c ∈ after.head?, isDelimiter c = true

namespace IsWordBetween

variable {before word after : Text} {first last column : Nat}

theorem isRun (h : IsWordBetween before word after) :
    IsRun (before ++ (word ++ after)) before.length (before.length + word.length) where
  start_le := Nat.le_add_right _ _
  stop_le := by simp
  inside := by
    intro i c hle hlt hc
    rw [List.getElem?_append_right hle, List.getElem?_append_left (by omega)] at hc
    exact h.word c (List.mem_of_getElem? hc)

/-- A run that starts before the word stops there too. -/
theorem length_le_of_isRun (h : IsWordBetween before word after)
    (hrun : IsRun (before ++ (word ++ after)) first last) (hlast : before.length ≤ last) :
    before.length ≤ first := by
  rcases List.eq_nil_or_concat before with rfl | ⟨init, c, rfl⟩
  · exact Nat.zero_le _
  · rw [List.concat_eq_append] at h hrun hlast ⊢
    simp only [List.length_append, List.length_singleton] at hlast ⊢
    have hdelimiter : isDelimiter c = true := h.before c (by simp)
    by_contra hlt
    have hnone := hrun.inside init.length c (by omega) (by omega) (by simp)
    exact Bool.false_ne_true (hnone.symm.trans hdelimiter)

/-- A run that stops after the word starts there too. -/
theorem le_length_of_isRun (h : IsWordBetween before word after)
    (hrun : IsRun (before ++ (word ++ after)) first last)
    (hfirst : first ≤ before.length + word.length) : last ≤ before.length + word.length := by
  cases after with
  | nil => simpa using hrun.stop_le
  | cons c rest =>
    have hdelimiter : isDelimiter c = true := h.after c rfl
    by_contra hlt
    have hnone := hrun.inside (before.length + word.length) c hfirst (by omega) (by simp)
    exact Bool.false_ne_true (hnone.symm.trans hdelimiter)

theorem isLongestRun (h : IsWordBetween before word after) (hstart : before.length ≤ column)
    (hstop : column ≤ before.length + word.length) :
    IsLongestRun (before ++ (word ++ after)) column before.length
      (before.length + word.length) := by
  refine ⟨h.isRun, hstart, hstop, fun first last hrun hfirst hlast => ⟨?_, ?_⟩⟩
  · exact h.length_le_of_isRun hrun (Nat.le_trans hstart hlast)
  · exact h.le_length_of_isRun hrun (Nat.le_trans hfirst hstop)

end IsWordBetween

theorem wordIn_append (front back : Text) : wordIn (front ++ back) front.length =
    .ok (wordOf? ((front.reverse.takeWhile (!isDelimiter ·)).reverse ++
      back.takeWhile (!isDelimiter ·)),
      (front.length - (front.reverse.takeWhile (!isDelimiter ·)).reverse.length : Nat)) := by
  have hcolumn : (front.length : Int) = .ofNat front.length := rfl
  rw [hcolumn, wordIn]
  simp

/-- The part of a word that begins a text, and the rest of the text. -/
theorem exists_word_append (back : Text) : ∃ right after, back = right ++ after ∧
    back.takeWhile (!isDelimiter ·) = right ∧ (∀ c ∈ right, isDelimiter c = false) ∧
    ∀ c ∈ after.head?, isDelimiter c = true := by
  refine ⟨_, _, List.takeWhile_append_dropWhile.symm, rfl, ?_, ?_⟩
  · intro c hc
    simpa using List.mem_takeWhile_imp hc
  · intro c hc
    have hnot := List.head?_dropWhile_not (!isDelimiter ·) back
    rw [hc] at hnot
    simpa using hnot

/-- The part of a word that ends a text, and the text before it. -/
theorem exists_append_word (front : Text) : ∃ before left, front = before ++ left ∧
    (front.reverse.takeWhile (!isDelimiter ·)).reverse = left ∧
    (∀ c ∈ left, isDelimiter c = false) ∧ ∀ c ∈ before.getLast?, isDelimiter c = true := by
  obtain ⟨right, after, hsplit, htake, hright, hafter⟩ := exists_word_append front.reverse
  refine ⟨after.reverse, right.reverse, ?_, by rw [htake], ?_, ?_⟩
  · rw [← List.reverse_append, ← hsplit, List.reverse_reverse]
  · simpa using hright
  · simpa using hafter

/-- A line has a word around each of its columns, maybe an empty one, and this word is found. -/
theorem exists_isWordBetween {characters : Text} {column : Nat} (h : column ≤ characters.length) :
    ∃ before word after, characters = before ++ (word ++ after) ∧
      IsWordBetween before word after ∧ before.length ≤ column ∧
      column ≤ before.length + word.length ∧
      wordIn characters column = .ok (wordOf? word, before.length) := by
  obtain ⟨front, back, rfl, rfl⟩ : ∃ front back, characters = front ++ back ∧
      column = front.length :=
    ⟨characters.take column, characters.drop column, (List.take_append_drop _ _).symm,
      (List.length_take_of_le h).symm⟩
  have hfound := wordIn_append front back
  obtain ⟨right, after, rfl, hright, hrightWord, hafter⟩ := exists_word_append back
  obtain ⟨before, left, rfl, hleft, hleftWord, hbefore⟩ := exists_append_word front
  rw [hleft, hright, List.length_append, Nat.add_sub_cancel] at hfound
  refine ⟨before, left ++ right, after, by simp, ⟨hbefore, ?_, hafter⟩, by simp, ?_, ?_⟩
  · exact List.forall_mem_append.mpr ⟨hleftWord, hrightWord⟩
  · rw [List.length_append, List.length_append]
    omega
  · rw [List.length_append]
    exact hfound

/-- What is found at a column of a line is the longest run around it, from where this starts. -/
theorem exists_isLongestRun {characters : Text} {column : Nat} (h : column ≤ characters.length) :
    ∃ start stop, IsLongestRun characters column start stop ∧
      wordIn characters column = .ok (wordOf? (characters.extract start stop), start) := by
  obtain ⟨before, word, after, rfl, hbetween, hstart, hstop, hfound⟩ := exists_isWordBetween h
  refine ⟨_, _, hbetween.isLongestRun hstart hstop, ?_⟩
  rw [hfound]
  simp [List.extract_eq_take_drop]

theorem wordOf?_eq_some_iff {word name : Text} :
    wordOf? word = some name ↔ name ≠ [] ∧ word = name := by
  cases word with
  | nil => simp [wordOf?, eq_comm]
  | cons c word => simp +contextual [wordOf?, eq_comm]

/-- A word is found at a column where a line has it between characters that end it. -/
theorem wordIn_eq_iff {characters name : Text} {column : Nat} (hname : name ≠ []) :
    wordIn characters column = .ok (some name, column) ↔ ∃ before after,
      characters = before ++ (name ++ after) ∧ before.length = column ∧
        IsWordBetween before name after := by
  constructor
  · intro hfound
    by_cases hcolumn : column ≤ characters.length
    · obtain ⟨before, word, after, hsplit, hbetween, -, -, hword⟩ := exists_isWordBetween hcolumn
      rw [hword] at hfound
      obtain ⟨hsome, hstart⟩ := Prod.mk.inj (Except.ok.inj hfound)
      obtain ⟨-, rfl⟩ := wordOf?_eq_some_iff.mp hsome
      exact ⟨before, after, hsplit, Int.ofNat.inj hstart, hbetween⟩
    · have hcast : (column : Int) = .ofNat column := rfl
      rw [hcast, wordIn, if_pos (Nat.lt_of_not_le hcolumn)] at hfound
      cases hfound
  · rintro ⟨before, after, rfl, rfl, hbetween⟩
    have hcolumn : before.length ≤ (before ++ (name ++ after)).length := by simp
    obtain ⟨start, stop, hlongest, hfound⟩ := exists_isLongestRun hcolumn
    obtain ⟨rfl, rfl⟩ := hlongest.unique
      (hbetween.isLongestRun (Nat.le_refl _) (Nat.le_add_right _ _))
    have hextract : (before ++ (name ++ after)).extract before.length
        (before.length + name.length) = name := by
      simp [List.extract_eq_take_drop]
    rw [hfound, hextract, wordOf?_eq_some_iff.mpr ⟨hname, rfl⟩]

theorem wordIn_of_length_lt {characters : Text} {column : Nat} (h : characters.length < column) :
    wordIn characters column = .error .outsideText := by
  have hcolumn : (column : Int) = .ofNat column := rfl
  rw [hcolumn, wordIn, if_pos h]

end Runs

section Positions

variable {text : Text} {line column : Nat}

theorem wordAt_of_line {characters : Text} (h : (Text.lines text)[line]? = some characters) :
    wordAt text line column = wordIn characters column := by
  have hline : lineAt text line = .ok (Text.lines text)[line]? := rfl
  rw [wordAt, hline, h]
  rfl

theorem wordAt_of_no_line (h : (Text.lines text)[line]? = none) :
    wordAt text line column = .ok (none, column) := by
  have hline : lineAt text line = .ok (Text.lines text)[line]? := rfl
  rw [wordAt, hline, h]
  rfl

theorem linePrefix_of_line {characters : Text} (h : (Text.lines text)[line]? = some characters) :
    linePrefix text line column = .ok (characters.take column) := by
  have hline : lineAt text line = .ok (Text.lines text)[line]? := rfl
  rw [linePrefix, hline, h]
  rfl

/-- A position beyond the end of a line that the text has. -/
def IsBeyond (text : Text) (line column : Nat) : Prop :=
  ∃ characters, (Text.lines text)[line]? = some characters ∧ characters.length < column

theorem wordAt_eq_error_iff {e : Failure} :
    wordAt text line column = .error e ↔ e = .outsideText ∧ IsBeyond text line column := by
  cases hline : (Text.lines text)[line]? with
  | none => simp [wordAt_of_no_line hline, IsBeyond, hline]
  | some characters =>
    rw [wordAt_of_line hline]
    by_cases hbeyond : characters.length < column
    · simp [wordIn_of_length_lt hbeyond, IsBeyond, hline, hbeyond, eq_comm]
    · obtain ⟨start, stop, -, hfound⟩ := exists_isLongestRun (Nat.le_of_not_lt hbeyond)
      simp [hfound, IsBeyond, hline, hbeyond]

theorem hover_eq {w : Workspace} {name : Text} {document : Document}
    (h : w.get? name = some document) : w.hover name line column =
      (wordAt document.text line column).map
        fun found => found.1.bind (Workspace.describe? document) := by
  rw [Workspace.hover.eq_def, h]
  rfl

/-- A hover fails at a position beyond the end of a line of its document, and nowhere else. -/
theorem hover_eq_error_iff {w : Workspace} {name : Text} {e : Failure} :
    w.hover name line column = .error e ↔ e = .outsideText ∧
      ∃ document, w.get? name = some document ∧ IsBeyond document.text line column := by
  cases hdocument : w.get? name with
  | none => simp [Workspace.hover, hdocument]
  | some document =>
    have hfails : w.hover name line column = .error e ↔
        wordAt document.text line column = .error e := by
      rw [hover_eq hdocument]
      cases wordAt document.text line column <;> simp [Except.map]
    rw [hfails, wordAt_eq_error_iff]
    simp

/-- Where a text has no line, no word is found.  Up to the end of a line the longest run around the
column is found, with the column where it starts, or no word if that run is empty.  Beyond the end
the search fails, although the text before the same position is the whole line there.  A hover fails
in the last case and in no other. -/
theorem wordAt_longestRun (text : Text) (line column : Nat) :
    ((Text.lines text)[line]? = none → wordAt text line column = .ok (none, column)) ∧
    (∀ characters, (Text.lines text)[line]? = some characters → column ≤ characters.length →
      ∃ start stop, IsLongestRun characters column start stop ∧
        wordAt text line column = .ok (wordOf? (characters.extract start stop), start)) ∧
    (∀ characters, (Text.lines text)[line]? = some characters → characters.length < column →
      wordAt text line column = .error .outsideText ∧
        linePrefix text line column = .ok characters) ∧
    ∀ (w : Workspace) (name : Text) (e : Failure), w.hover name line column = .error e ↔
      e = .outsideText ∧
        ∃ document, w.get? name = some document ∧ IsBeyond document.text line column := by
  refine ⟨wordAt_of_no_line, ?_, ?_, fun w name e => hover_eq_error_iff⟩
  · intro characters hline hcolumn
    rw [wordAt_of_line hline]
    exact exists_isLongestRun hcolumn
  · intro characters hline hcolumn
    rw [wordAt_of_line hline, linePrefix_of_line hline,
      List.take_of_length_le (Nat.le_of_lt hcolumn)]
    exact ⟨wordIn_of_length_lt hcolumn, rfl⟩

/-- Beyond the end of the only line, and in the word that it is. -/
theorem wordAt_longestRun_shortLine :
    wordAt "ab" 0 5 = .error .outsideText ∧ linePrefix "ab" 0 5 = .ok "ab" ∧
      ∃ start stop, IsLongestRun "ab" 1 start stop ∧
        wordAt "ab" 0 1 = .ok (wordOf? (("ab" : Text).extract start stop), start) := by
  have hline : (Text.lines "ab")[0]? = some ("ab" : Text) := by decide
  obtain ⟨-, -, hbeyond, -⟩ := wordAt_longestRun "ab" 0 5
  obtain ⟨-, hwithin, -, -⟩ := wordAt_longestRun "ab" 0 1
  obtain ⟨hfails, hwhole⟩ := hbeyond _ hline (by decide)
  exact ⟨hfails, hwhole, hwithin _ hline (by decide)⟩

end Positions

end SmallLisp.Editor
