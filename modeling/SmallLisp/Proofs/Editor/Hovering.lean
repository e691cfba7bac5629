import SmallLisp.Proofs.Editor.Boundaries
import SmallLisp.Proofs.Editor.DefineForms
import SmallLisp.Proofs.Editor.Words
import SmallLisp.Proofs.Text.Breaks
/-!
Hovering at the definitions of an index.

The index counts lines by line feeds and ends names as the scan does; the search for a word takes
other line breaks for ends of lines as well, and goes on over semicolons and rarer white space.
Main statement: while lines are broken at line feeds alone, the name of a definition is found at its
position if and only if it stands between characters at which the search ends; in a text with common
white space only, this is so unless a comment touches the name.
-/

namespace SmallLisp

open Text (positionOf)

namespace Table

variable {α β : Type} [BEq α] [LawfulBEq α]

theorem eq_or_mem_of_mem_insert {key : α} {v : β} {table : Table α β} {entry : α × β}
    (h : entry ∈ insert key v table) : entry = (key, v) ∨ entry ∈ table := by
  induction table with
  | nil => exact Or.inl (List.mem_singleton.mp h)
  | cons first rest ih =>
    obtain ⟨other, old⟩ := first
    rw [insert] at h
    split_ifs at h with hkey
    · obtain rfl := eq_of_beq hkey
      exact (List.mem_cons.mp h).imp_right (List.mem_cons_of_mem _)
    · rcases List.mem_cons.mp h with rfl | hrest
      · exact Or.inr List.mem_cons_self
      · exact (ih hrest).imp_right (List.mem_cons_of_mem _)

/-- Insertions one after the other leave nothing in a new table but what was inserted. -/
theorem mem_of_mem_foldl_insert {entries : List (α × β)} {entry : α × β}
    (h : entry ∈ entries.foldl (fun table entry => insert entry.1 entry.2 table) []) :
    entry ∈ entries := by
  induction entries using List.reverseRecOn with
  | nil => exact h
  | append_singleton before last ih =>
    rw [List.foldl_append, List.foldl_cons, List.foldl_nil] at h
    rw [List.mem_append, List.mem_singleton]
    exact (eq_or_mem_of_mem_insert h).symm.imp_left ih

theorem nodup_keys_foldl_insert (entries : List (α × β)) :
    (keys (entries.foldl (fun table entry => insert entry.1 entry.2 table) [])).Nodup := by
  refine List.foldlRecOn (motive := fun table => (keys table).Nodup) entries _ List.nodup_nil ?_
  intro table h entry _
  exact nodup_keys_insert entry.1 entry.2 h

theorem lookup_of_mem {table : Table α β} (hnodup : (keys table).Nodup) {key : α} {v : β}
    (h : (key, v) ∈ table) : table.lookup key = some v := by
  obtain ⟨before, after, rfl⟩ := List.append_of_mem h
  rw [keys, List.map_append, List.map_cons, List.nodup_append] at hnodup
  have hnone : before.lookup key = none := by
    refine List.lookup_eq_none_iff.mpr fun entry hentry => ?_
    have hne := hnodup.2.2 entry.1 (List.mem_map_of_mem hentry) key List.mem_cons_self
    simpa using hne.symm
  rw [List.lookup_append, hnone, Option.none_or, List.lookup_cons, beq_self_eq_true]

end Table

namespace Editor

section Names

theorem exists_of_defined? {rest : List Piece} {shown : Piece × DefinitionKind}
    (h : defined? rest = some shown) : ∃ head inner,
    rest = head :: shown.1 :: inner ∧ head.text = "define" ∧ shown.1.isWord = true := by
  match rest with
  | [] => cases h
  | [head] => cases h
  | head :: name :: inner =>
    rw [defined?] at h
    split_ifs at h with hdefine
    obtain rfl := Option.some.inj h
    rw [Bool.and_eq_true, beq_iff_eq] at hdefine
    exact ⟨head, inner, rfl, hdefine.1, hdefine.2⟩

/-- Pieces that show a definition: its name comes after `define`. -/
theorem exists_of_mem_shownDefinitions {pieces : List Piece} {shown : Piece × DefinitionKind}
    (h : shown ∈ shownDefinitions pieces) : ∃ outer head inner,
    pieces = outer ++ head :: shown.1 :: inner ∧ head.text = "define" ∧
      shown.1.isWord = true := by
  induction pieces with
  | nil => cases h
  | cons p rest ih =>
    rw [shownDefinitions, List.mem_append, Option.mem_toList] at h
    rcases h with hfirst | hlater
    · split_ifs at hfirst
      obtain ⟨head, inner, rfl, hhead, hword⟩ := exists_of_defined? hfirst
      exact ⟨[p], head, inner, rfl, hhead, hword⟩
    · obtain ⟨outer, head, inner, rfl, hhead, hword⟩ := ih hlater
      exact ⟨p :: outer, head, inner, rfl, hhead, hword⟩

variable {text name : Text} {index : Index} {d : Definition}

/-- A definition in an index has the position of a word that follows the word `define`. -/
theorem exists_piece_of_mem (hindex : Index.ofText text = .ok index)
    (hd : (name, d) ∈ index.definitions) : ∃ outer head piece inner,
    scan text = outer ++ head :: piece :: inner ∧ head.isWord = true ∧ piece.isWord = true ∧
      piece.text = name ∧ d.position = positionOf text piece.start := by
  rw [definitions_of_ofText hindex, addDefinitions_eq] at hd
  obtain ⟨shown, hshown, hentry⟩ := List.mem_map.mp (Table.mem_of_mem_foldl_insert hd)
  obtain ⟨hname, hdefinition⟩ := Prod.mk.inj hentry
  obtain ⟨outer, head, inner, hscan, hhead, hword⟩ := exists_of_mem_shownDefinitions hshown
  have hheadWord : head.isWord = true := by
    simp only [Piece.isWord, Piece.isOpener, Piece.isCloser, hhead]
    decide
  exact ⟨outer, head, shown.1, inner, hscan, hheadWord, hword, hname, by rw [← hdefinition]⟩

/-- An index has every name once. -/
theorem nodup_keys_definitions (hindex : Index.ofText text = .ok index) :
    (Table.keys index.definitions).Nodup := by
  rw [definitions_of_ofText hindex, addDefinitions_eq]
  exact Table.nodup_keys_foldl_insert _

theorem lookup_of_mem_definitions (hindex : Index.ofText text = .ok index)
    (hd : (name, d) ∈ index.definitions) : index.definitions.lookup name = some d :=
  Table.lookup_of_mem (nodup_keys_definitions hindex) hd

end Names

section Neighbours

/-- A piece of a text with characters before and after it, as far as there are any, at which the
search for a word ends. -/
structure Piece.StandsAlone (p : Piece) (text : Text) : Prop where
  before : ∀ c ∈ (text.take p.start).getLast?, isDelimiter c = true
  after : ∀ c ∈ text[p.stop]?, isDelimiter c = true

theorem isDelimiter_eq_false_of_isWordChar {c : CodePoint} (h : isWordChar c = true) :
    isDelimiter c = false := by
  have hends : ∀ c ∈ (" \t()[]'\n\r" : Text), isWordChar c = false := by decide
  rw [isDelimiter, List.contains_eq_mem, decide_eq_false_iff_not]
  intro hc
  exact Bool.false_ne_true ((hends c hc).symm.trans h)

theorem isLineBreak_eq_false_of_isWordChar {c : CodePoint} (h : isWordChar c = true) :
    Text.isLineBreak c = false := by
  by_contra hbreak
  have hblank : Text.isBlank c = true := by
    simp only [Text.isLineBreak, Text.isBlank, Bool.not_eq_false, Bool.or_eq_true, Bool.and_eq_true,
      decide_eq_true_eq, beq_iff_eq] at hbreak ⊢
    omega
  exact Bool.false_ne_true ((isBlank_eq_false_of_isWordChar h).symm.trans hblank)

/-- What ends a word in the scan and is neither white space nor a semicolon ends the search. -/
theorem isDelimiter_of_not_isWordChar {c : CodePoint} (h : isWordChar c = false)
    (hblank : Text.isBlank c = true → isDelimiter c = true) (hc : c ≠ .scalar ';') :
    isDelimiter c = true := by
  have hends : ∀ c ∈ wordEnds, c ≠ .scalar ';' → isDelimiter c = true := by decide
  exact (isBlank_or_mem_wordEnds h).elim hblank fun hend => hends c hend hc

theorem getLast?_currentLine (text : Text) :
    (Text.currentLine text).getLast? = text.getLast?.filter (· != .scalar '\n') := by
  rw [Text.currentLine, List.getLast?_reverse, List.head?_takeWhile, List.head?_reverse]

variable {text : Text} {p : Piece}

/-- A word stands alone in its text if it does so on its line. -/
theorem standsAlone_iff (hp : p ∈ scan text) (hword : p.isWord = true) :
    p.StandsAlone text ↔ IsWordBetween (Text.currentLine (text.take p.start)) p.text
      (Text.firstLine (text.drop p.stop)) := by
  have hnext : (Text.firstLine (text.drop p.stop)).head? = text[p.stop]? := by
    rw [Text.head?_firstLine, List.head?_drop]
  have hinside : ∀ c ∈ p.text, isDelimiter c = false := fun c hc =>
    isDelimiter_eq_false_of_isWordChar ((isWordChar_of_isWord hp hword).1 c hc)
  constructor
  · rintro ⟨hbefore, hafter⟩
    refine ⟨fun c hc => ?_, hinside, fun c hc => hafter c (hnext ▸ hc)⟩
    rw [getLast?_currentLine] at hc
    exact hbefore c (Option.mem_filter_iff.mp hc).1
  · rintro ⟨hbefore, -, hafter⟩
    refine ⟨fun c hc => ?_, fun c hc => hafter c (hnext ▸ hc)⟩
    by_cases hfeed : c = .scalar '\n'
    · rw [hfeed]
      decide
    · refine hbefore c ?_
      rw [getLast?_currentLine, Option.mem_filter_iff]
      exact ⟨hc, by simpa using hfeed⟩

/-- On the line of a position that is found by counting line feeds, the word stands there. -/
theorem exists_line_of_isWord (hp : p ∈ scan text) (hword : p.isWord = true)
    (hbreaks : Text.breaksAtLineFeeds (text.take p.start) = true) :
    (Text.lines text)[(positionOf text p.start).line]? =
        some (Text.currentLine (text.take p.start) ++
          (p.text ++ Text.firstLine (text.drop p.stop))) ∧
      (positionOf text p.start).column = (Text.currentLine (text.take p.start)).length := by
  have hlies := (layout_scan text).liesIn p hp
  have hlt := hlies.start_lt
  have hle := hlies.stop_le
  have hinside : ∀ c ∈ p.text, Text.isLineBreak c = false := fun c hc =>
    isLineBreak_eq_false_of_isWordChar ((isWordChar_of_isWord hp hword).1 c hc)
  have hline := Text.getElem?_lines_positionOf hbreaks (by omega)
  rwa [hlies.drop_start, Text.firstLine_append hinside] at hline

end Neighbours

/-- Whether the word at the position of a definition is its name, from its first character on. -/
def Definition.IsFound (d : Definition) (text name : Text) : Prop :=
  wordAt text d.position.line d.position.column = .ok (some name, d.position.column)

/-- What is shown for a name with a definition: the special form of this name, or else the
definition. -/
def Definition.shown (d : Definition) (name : Text) : Text :=
  match specialSignatures.lookup name with
  | some signature => signature ++ " (special form)"
  | none =>
      let place := s!"{d.position.line + 1}:{d.position.column + 1}"
      name ++ " - " ++ d.kind.word ++ " (defined at " ++ place ++ ")"

section Found

variable {text name : Text} {index : Index} {d : Definition}

theorem isFound_iff (hname : name ≠ []) : d.IsFound text name ↔ ∃ before after,
    (Text.lines text)[d.position.line]? = some (before ++ (name ++ after)) ∧
      before.length = d.position.column ∧ IsWordBetween before name after := by
  rw [Definition.IsFound]
  cases hline : (Text.lines text)[d.position.line]? with
  | none => simp [wordAt_of_no_line hline]
  | some characters =>
    rw [wordAt_of_line hline, wordIn_eq_iff hname]
    simp

/-- A word that is defined stands alone if what comes after it ends the search. -/
theorem isFound_iff_standsAlone {p : Piece} (hp : p ∈ scan text) (hword : p.isWord = true)
    (hposition : d.position = positionOf text p.start)
    (hbreaks : Text.breaksAtLineFeeds (text.take p.start) = true) :
    d.IsFound text p.text ↔ p.StandsAlone text := by
  have hlies := (layout_scan text).liesIn p hp
  obtain ⟨c, hc, -⟩ := hlies.exists_first
  obtain ⟨hline, hcolumn⟩ := exists_line_of_isWord hp hword hbreaks
  rw [isFound_iff (List.ne_nil_of_mem hc), standsAlone_iff hp hword, hposition, hline, hcolumn]
  constructor
  · rintro ⟨before, after, hsplit, hlength, hbetween⟩
    obtain ⟨rfl, hrest⟩ := List.append_inj (Option.some.inj hsplit) hlength.symm
    rwa [List.append_cancel_left hrest]
  · exact fun hbetween => ⟨_, _, rfl, rfl, hbetween⟩

/-- After a word and common white space, a word stands alone unless a comment touches it. -/
theorem standsAlone_iff_ne_semicolon {outer inner : List Piece} {head p : Piece}
    (hscan : scan text = outer ++ head :: p :: inner) (hhead : head.isWord = true)
    (hword : p.isWord = true)
    (hcommon : ∀ c ∈ text, Text.isBlank c = true → isDelimiter c = true) :
    p.StandsAlone text ↔ text[p.stop]? ≠ some (.scalar ';') := by
  have hp : p ∈ scan text := by simp [hscan]
  have hlies := (layout_scan text).liesIn p hp
  have hlt := hlies.start_lt
  have hle := hlies.stop_le
  obtain ⟨hapart, c, hc, hblank⟩ := exists_blank_before hscan hhead hword
  have hlast : (text.take p.start).getLast? = some c := by
    rw [List.getLast?_take, if_neg (by omega), hc]
    rfl
  constructor
  · rintro ⟨-, hafter⟩ hsemicolon
    exact absurd (hafter _ hsemicolon) (by decide)
  · intro hnone
    refine ⟨fun b hb => ?_, fun a ha => ?_⟩
    · obtain rfl := Option.some.inj (hlast.symm.trans hb)
      exact hcommon c (List.mem_of_getElem? hc) hblank
    · refine isDelimiter_of_not_isWordChar ((isWordChar_of_isWord hp hword).2 a ha)
        (hcommon a (List.mem_of_getElem? ha)) ?_
      rintro rfl
      exact hnone ha

theorem hover_eq_shown (hindex : Index.ofText text = .ok index)
    (hd : (name, d) ∈ index.definitions) (hfound : d.IsFound text name) {w : Workspace}
    {file : Text} (hw : w.get? file = some { text, index }) :
    w.hover file d.position.line d.position.column = .ok (some (d.shown name)) := by
  have hdescribe : Workspace.describe? { text, index } name = some (d.shown name) := by
    rw [Workspace.describe?, Definition.shown, lookup_of_mem_definitions hindex hd]
    cases specialSignatures.lookup name <;> rfl
  rw [hover_eq hw, hfound]
  exact congrArg Except.ok hdescribe

/-- A definition has the position of a word of the text.  Its name is found there if and only if the
line of this number has the name at this column, between characters at which the search ends.  While
lines are broken at line feeds alone up to the word, this is so if and only if the word stands alone
in the text; and with common white space only, unless a comment touches the word.  Where the name is
found, a hover shows the definition or the special form of the name. -/
theorem definition_found_iff (hindex : Index.ofText text = .ok index)
    (hd : (name, d) ∈ index.definitions) : ∃ piece ∈ scan text,
      piece.isWord = true ∧ piece.text = name ∧ d.position = positionOf text piece.start ∧
      (d.IsFound text name ↔ ∃ before after,
        (Text.lines text)[d.position.line]? = some (before ++ (name ++ after)) ∧
          before.length = d.position.column ∧ IsWordBetween before name after) ∧
      (Text.breaksAtLineFeeds (text.take piece.start) = true →
        (d.IsFound text name ↔ piece.StandsAlone text) ∧
        ((∀ c ∈ text, Text.isBlank c = true → isDelimiter c = true) →
          (d.IsFound text name ↔ text[piece.stop]? ≠ some (.scalar ';')))) ∧
      (d.IsFound text name → ∀ (w : Workspace) (file : Text),
        w.get? file = some { text, index } →
          w.hover file d.position.line d.position.column = .ok (some (d.shown name))) := by
  obtain ⟨outer, head, piece, inner, hscan, hhead, hword, rfl, hposition⟩ :=
    exists_piece_of_mem hindex hd
  have hpiece : piece ∈ scan text := by simp [hscan]
  obtain ⟨c, hc, -⟩ := ((layout_scan text).liesIn piece hpiece).exists_first
  refine ⟨piece, hpiece, hword, rfl, hposition, isFound_iff (List.ne_nil_of_mem hc),
    fun hbreaks => ?_, fun hfound w file hw => hover_eq_shown hindex hd hfound hw⟩
  have halone := isFound_iff_standsAlone hpiece hword hposition hbreaks
  refine ⟨halone, fun hcommon => ?_⟩
  rw [halone, standsAlone_iff_ne_semicolon hscan hhead hword hcommon]

/-- A definition whose name a comment touches, and one on its own. -/
def touchedName : Text :=
  "(define x;c\n 1)\n(define y 2)"

/-- The name that a comment touches is not found, and the other one is. -/
theorem definition_found_iff_touched : ∃ index, Index.ofText touchedName = .ok index ∧
    index.definitions = [⟨"x", .variable, ⟨0, 8⟩⟩, ⟨"y", .variable, ⟨2, 8⟩⟩] ∧
    ¬ Definition.IsFound ⟨.variable, ⟨0, 8⟩⟩ touchedName "x" ∧
    Definition.IsFound ⟨.variable, ⟨2, 8⟩⟩ touchedName "y" := by
  have hdefinitions : (Index.ofText touchedName).toOption.map Index.definitions =
      some [⟨"x", .variable, ⟨0, 8⟩⟩, ⟨"y", .variable, ⟨2, 8⟩⟩] := by decide +kernel
  have hcommon : ∀ c ∈ touchedName, Text.isBlank c = true → isDelimiter c = true := by decide
  have hplaces : ∀ p ∈ scan touchedName,
      Text.breaksAtLineFeeds (touchedName.take p.start) = true ∧
      (p.text = "x" → touchedName[p.stop]? = some (.scalar ';')) ∧
      (p.text = "y" → touchedName[p.stop]? = some (.scalar ' ')) := by decide +kernel
  cases hindex : Index.ofText touchedName with
  | error e =>
    rw [hindex] at hdefinitions
    cases hdefinitions
  | ok index =>
    rw [hindex] at hdefinitions
    have heq := Option.some.inj hdefinitions
    have hx : (Text.ofString "x", Definition.mk .variable ⟨0, 8⟩) ∈ index.definitions := by
      simp [heq]
    have hy : (Text.ofString "y", Definition.mk .variable ⟨2, 8⟩) ∈ index.definitions := by
      simp [heq]
    obtain ⟨p, hp, -, hpx, -, -, hpfound, -⟩ := definition_found_iff hindex hx
    obtain ⟨q, hq, -, hqy, -, -, hqfound, -⟩ := definition_found_iff hindex hy
    obtain ⟨hpbreaks, hsemicolon, -⟩ := hplaces p hp
    obtain ⟨hqbreaks, -, hspace⟩ := hplaces q hq
    refine ⟨index, rfl, heq, fun hfound => ?_, ((hqfound hqbreaks).2 hcommon).mpr ?_⟩
    · exact ((hpfound hpbreaks).2 hcommon).mp hfound (hsemicolon hpx)
    · rw [hspace hqy]
      decide

end Found

end Editor

end SmallLisp
