import SmallLisp.Proofs.Editor.Boundaries
import SmallLisp.Proofs.Editor.Brackets
import SmallLisp.Proofs.Editor.Words
import SmallLisp.Proofs.Text.Breaks
/-!
The callee that signature help names.

Signature help goes back to the last opening bracket before the cursor, whether this is still open
or not, and reads a name after it.  Main statement: the bracket is the innermost unclosed one, whose
first word is named unless a quote mark or a comment touches the word; or else it comes later, in a
comment or as the bracket of a call that is finished, and then the name after it is given instead.
-/

namespace SmallLisp.Editor

section Names

/-- A name that a text begins with after white space: it goes on up to white space or a bracket. -/
def IsNameOf (tail name : Text) : Prop :=
  name ≠ [] ∧ (∀ c ∈ name, endsCallee c = false) ∧
    ∃ blanks rest, tail = blanks ++ (name ++ rest) ∧ (∀ c ∈ blanks, Text.isBlank c = true) ∧
      ∀ c ∈ rest.head?, endsCallee c = true

theorem endsCallee_of_isBlank {c : CodePoint} (h : Text.isBlank c = true) :
    endsCallee c = true := by
  rw [endsCallee, h, Bool.true_or]

theorem takeWhile_eq_nil_iff {rest : Text} : rest.takeWhile (!endsCallee ·) = [] ↔
    ∀ c ∈ rest.head?, endsCallee c = true := by
  cases rest with
  | nil => simp
  | cons c rest => simp [List.takeWhile_cons]

/-- White space at the end of a text takes nothing from the name that it begins with. -/
theorem takeWhile_trim (tail : Text) : (Text.trim tail).takeWhile (!endsCallee ·) =
    (tail.dropWhile Text.isBlank).takeWhile (!endsCallee ·) := by
  obtain ⟨blanks, hsplit, hblanks⟩ := Text.exists_dropWhile_eq_trim_append tail
  have hnone : blanks.takeWhile (!endsCallee ·) = [] := takeWhile_eq_nil_iff.mpr fun c hc =>
    endsCallee_of_isBlank (hblanks c (List.mem_of_head? hc))
  rw [hsplit, List.takeWhile_append, hnone, List.append_nil]
  split_ifs with hall
  · exact (List.takeWhile_prefix _).eq_of_length hall
  · rfl

/-- What is read after white space: a name and what goes on with it. -/
theorem takeWhile_dropWhile_append {blanks name rest : Text}
    (hblanks : ∀ c ∈ blanks, Text.isBlank c = true) (hname : name ≠ [])
    (hinside : ∀ c ∈ name, endsCallee c = false) :
    ((blanks ++ (name ++ rest)).dropWhile Text.isBlank).takeWhile (!endsCallee ·) =
      name ++ rest.takeWhile (!endsCallee ·) := by
  have hdrop : (name ++ rest).dropWhile Text.isBlank = name ++ rest := by
    obtain ⟨c, others, rfl⟩ := List.exists_cons_of_ne_nil hname
    refine List.dropWhile_cons_of_neg fun hblank => ?_
    have hends := hinside c List.mem_cons_self
    exact Bool.false_ne_true (hends.symm.trans (endsCallee_of_isBlank hblank))
  rw [List.dropWhile_append_of_pos hblanks, hdrop,
    List.takeWhile_append_of_pos (by simpa using hinside)]

theorem isNameOf_iff {tail name : Text} : IsNameOf tail name ↔
    name ≠ [] ∧ (tail.dropWhile Text.isBlank).takeWhile (!endsCallee ·) = name := by
  refine and_congr_right fun hname => ?_
  constructor
  · rintro ⟨hinside, blanks, rest, rfl, hblanks, hrest⟩
    rw [takeWhile_dropWhile_append hblanks hname hinside, takeWhile_eq_nil_iff.mpr hrest,
      List.append_nil]
  · rintro rfl
    refine ⟨fun c hc => by simpa using List.mem_takeWhile_imp hc, tail.takeWhile Text.isBlank,
      (tail.dropWhile Text.isBlank).dropWhile (!endsCallee ·), ?_,
      fun c hc => List.mem_takeWhile_imp hc, fun c hc => ?_⟩
    · rw [List.takeWhile_append_dropWhile, List.takeWhile_append_dropWhile]
    · have hnot := List.head?_dropWhile_not (!endsCallee ·) (tail.dropWhile Text.isBlank)
      rw [hc] at hnot
      simpa using hnot

/-- A word after white space is the name there unless other characters of a name follow it. -/
theorem isNameOf_append_iff {blanks name rest : Text}
    (hblanks : ∀ c ∈ blanks, Text.isBlank c = true) (hname : name ≠ [])
    (hinside : ∀ c ∈ name, endsCallee c = false) :
    IsNameOf (blanks ++ (name ++ rest)) name ↔ ∀ c ∈ rest.head?, endsCallee c = true := by
  rw [isNameOf_iff, takeWhile_dropWhile_append hblanks hname hinside, List.append_right_eq_self,
    takeWhile_eq_nil_iff]
  exact and_iff_right hname

/-- The callee is the name after the last opening bracket. -/
theorem calleeName?_eq_some_iff {before tail name : Text} {bracket : CodePoint}
    (hbracket : isOpeningBracket bracket = true)
    (htail : ∀ c ∈ tail, isOpeningBracket c = false) :
    calleeName? (before ++ bracket :: tail) = some name ↔ IsNameOf tail name := by
  have hlast : ((before ++ bracket :: tail).reverse.takeWhile (!isOpeningBracket ·)).reverse =
      tail := by
    rw [List.reverse_append, List.reverse_cons, List.append_assoc,
      List.takeWhile_append_of_pos (by simpa using htail), List.singleton_append,
      List.takeWhile_cons_of_neg (by simp [hbracket]), List.append_nil, List.reverse_reverse]
  have hany : (before ++ bracket :: tail).any isOpeningBracket = true := by simp [hbracket]
  have hread : calleeName? (before ++ bracket :: tail) =
      wordOf? ((Text.trim tail).takeWhile (!endsCallee ·)) := by
    rw [calleeName?, if_pos hany, hlast]
    rfl
  rw [hread, takeWhile_trim, isNameOf_iff, wordOf?_eq_some_iff]

end Names

section Prefixes

variable {document text : Text} {line column : Int}

theorem mem_lines_of_lineAt {characters : Text} (h : lineAt document line = .ok (some characters)) :
    characters ∈ Text.lines document := by
  cases line with
  | ofNat n => exact List.mem_of_getElem? (Except.ok.inj h)
  | negSucc n =>
    rw [lineAt] at h
    split_ifs at h
    exact List.mem_of_getElem? (Except.ok.inj h)

/-- The text before a cursor has no line feed but at its end. -/
theorem lineFeed_not_mem_dropLast_of_linePrefix (h : linePrefix document line column = .ok text) :
    .scalar '\n' ∉ text.dropLast := by
  cases hline : lineAt document line with
  | error e =>
    rw [linePrefix, hline] at h
    cases h
  | ok found =>
    have htext : text = (found.getD []).take
        (Text.itemsBefore (found.getD []).length column) := by
      rw [linePrefix, hline] at h
      exact (Except.ok.inj h).symm
    rw [htext]
    cases found with
    | none => simp
    | some characters =>
      have hnone := Text.lineFeed_not_mem_dropLast (mem_lines_of_lineAt hline)
      rw [Option.getD_some]
      generalize Text.itemsBefore characters.length column = before
      rcases Nat.lt_or_ge before characters.length with hlt | hge
      · rw [List.dropLast_take hlt]
        rw [List.dropLast_eq_take] at hnone
        exact fun hmem => hnone (List.take_subset_take_left characters (by omega) hmem)
      · rwa [List.take_of_length_le hge]

/-- On one line there is only white space between two pieces that follow each other. -/
theorem exists_blanks_between {p q : Piece} {outer inner : List Piece}
    (hfeed : .scalar '\n' ∉ text.dropLast) (h : scan text = outer ++ p :: q :: inner) :
    ∃ blanks, text.drop p.stop = blanks ++ (q.text ++ text.drop q.stop) ∧
      ∀ c ∈ blanks, Text.isBlank c = true := by
  have hqmem : q ∈ scan text := by simp [h]
  have hlies := (layout_scan text).liesIn q hqmem
  have hstart := hlies.start_lt
  have hstop := hlies.stop_le
  have hle := stop_le_start h
  have hgap := not_inGap_start hqmem
  refine ⟨(text.drop p.stop).take (q.start - p.stop), ?_, fun c hc => ?_⟩
  · rw [← hlies.drop_start]
    conv_lhs => rw [← List.take_append_drop (q.start - p.stop) (text.drop p.stop)]
    rw [List.drop_drop]
    congr 2
    omega
  · obtain ⟨i, hi⟩ := List.mem_iff_getElem?.mp hc
    rw [List.getElem?_take, List.getElem?_drop] at hi
    split_ifs at hi with hlt
    have hnone : .scalar '\n' ∉
        (text.drop (p.stop + i + 1)).take (q.start - (p.stop + i)) := by
      intro hmem
      obtain ⟨k, hk⟩ := List.mem_iff_getElem?.mp hmem
      rw [List.getElem?_take, List.getElem?_drop] at hk
      split_ifs at hk with hbefore
      -- A line feed ends the text, so that it would stand where the second piece starts.
      have hlast : ¬ p.stop + i + 1 + k < text.length - 1 := by
        intro hinner
        refine hfeed (List.mem_of_getElem? (i := p.stop + i + 1 + k) ?_)
        rw [List.getElem?_dropLast, if_pos hinner, hk]
      have heq : p.stop + i + 1 + k = q.start := by omega
      exact hgap ⟨_, heq ▸ hk, .inl (by decide)⟩
    obtain ⟨d, hd, hblank⟩ := isBlank_of_inGap (inGap_between h (i := p.stop + i) (by omega)
      (by omega)) (by omega) hgap (by omega) hnone
    obtain rfl := Option.some.inj (hi.symm.trans hd)
    exact hblank

end Prefixes

section Brackets

variable {text : Text} {p : Piece}

theorem isOpener_iff : p.isOpener = true ↔
    ∃ bracket, p.text = [bracket] ∧ isOpeningBracket bracket = true := by
  rw [Piece.isOpener, Bool.or_eq_true, beq_iff_eq, beq_iff_eq]
  constructor
  · rintro (h | h)
    · exact ⟨.scalar '(', h, rfl⟩
    · exact ⟨.scalar '[', h, rfl⟩
  · rintro ⟨bracket, h, hbracket⟩
    rw [isOpeningBracket, Bool.or_eq_true, beq_iff_eq, beq_iff_eq] at hbracket
    rcases hbracket with rfl | rfl
    · exact .inl h
    · exact .inr h

theorem exists_text_eq_of_isWord_eq_false (h : p.isWord = false) : ∃ c, p.text = [c] := by
  simp only [Piece.isWord, Piece.isOpener, Piece.isCloser, Bool.not_eq_false', Bool.or_eq_true,
    beq_iff_eq] at h
  rcases h with ((h | h) | h | h) | h
  all_goals exact ⟨_, h⟩

/-- An opening bracket of a text is part of a comment or a piece. -/
theorem exists_isOpener_of_isOpeningBracket {before tail : Text} {bracket : CodePoint}
    (hbracket : isOpeningBracket bracket = true) : .scalar ';' ∈ Text.currentLine before ∨
      ∃ p ∈ scan (before ++ bracket :: tail), p.start = before.length ∧ p.isOpener = true := by
  have hoffset : (before ++ bracket :: tail)[before.length]? = some bracket := by simp
  have hmark : isWordChar bracket = false ∧ Text.isBlank bracket = false ∧
      bracket ≠ .scalar ';' := by
    rw [isOpeningBracket, Bool.or_eq_true, beq_iff_eq, beq_iff_eq] at hbracket
    rcases hbracket with rfl | rfl <;> decide
  obtain ⟨hword, hblank, hsemicolon⟩ := hmark
  by_cases hgap : Text.InGap (before ++ bracket :: tail) before.length
  · obtain ⟨c, hc, hspace | hcomment⟩ := hgap
    · obtain rfl := Option.some.inj (hoffset.symm.trans hc)
      exact absurd (hblank.symm.trans hspace) Bool.false_ne_true
    · have htake : (before ++ bracket :: tail).take (before.length + 1) = before ++ [bracket] :=
        List.take_length_add_append 1
      rw [htake, Text.semicolon_mem_currentLine_concat] at hcomment
      exact .inl (hcomment.2.resolve_left hsemicolon)
  · have hlayout := layout_scan (before ++ bracket :: tail)
    rw [← hlayout.not_covers_iff (by simp)] at hgap
    push Not at hgap
    obtain ⟨p, hp, hcovers⟩ := hgap
    have hlies := hlayout.liesIn p hp
    have hmem := hlies.mem_of_covers hcovers hoffset
    -- A word has no bracket in it, so the piece is the bracket alone.
    have hnoWord : p.isWord = false := by
      by_contra hisWord
      have hchar := (isWordChar_of_isWord hp (by simpa using hisWord)).1 bracket hmem
      exact Bool.false_ne_true (hword.symm.trans hchar)
    obtain ⟨c, hc⟩ := exists_text_eq_of_isWord_eq_false hnoWord
    rw [hc, List.mem_singleton] at hmem
    have hstop := hlies.stop_eq
    rw [hc, List.length_singleton] at hstop
    obtain ⟨hstart, hbefore⟩ := hcovers
    exact .inr ⟨p, hp, by omega, isOpener_iff.mpr ⟨c, hc, hmem ▸ hbracket⟩⟩

/-- The offsets of the opening brackets of a text that are unclosed, the innermost one first. -/
def unclosedOf (text : Text) : List Nat :=
  ((scan text).foldl Loose.step {}).openers

theorem exists_unclosed (text : Text) : ∃ unclosed : List Piece,
    unclosed.Sublist (scan text) ∧ (∀ p ∈ unclosed, p.isOpener = true) ∧
      unclosedOf text = (unclosed.map Piece.start).reverse := by
  obtain ⟨kept, stray, unclosed, hpairing, -, hopeners⟩ := Loose.pairs_run (scan text)
  refine ⟨unclosed, ?_, hpairing.isOpener_of_mem, hopeners⟩
  exact ((List.sublist_append_right stray unclosed).trans hpairing.sublist).trans
    List.filter_sublist

/-- The innermost unclosed bracket is an opening one. -/
theorem isOpener_of_unclosed (hp : p ∈ scan text)
    (h : (unclosedOf text).head? = some p.start) : p.isOpener = true := by
  obtain ⟨unclosed, hsublist, hopeners, heq⟩ := exists_unclosed text
  have hmem := List.mem_of_head? h
  rw [heq, List.mem_reverse, List.mem_map] at hmem
  obtain ⟨q, hq, hstart⟩ := hmem
  have hsame := List.inj_on_of_nodup_map (nodup_positions text) (hsublist.subset hq) hp
    (congrArg (Text.positionOf text) hstart)
  exact hsame ▸ hopeners q hq

/-- No unclosed bracket comes after the innermost one. -/
theorem le_of_mem_unclosedOf {innermost offset : Nat}
    (h : (unclosedOf text).head? = some innermost) (hoffset : offset ∈ unclosedOf text) :
    offset ≤ innermost := by
  obtain ⟨unclosed, hsublist, -, heq⟩ := exists_unclosed text
  have hlayout := layout_scan text
  have hordered : (unclosedOf text).Pairwise fun first second => second ≤ first := by
    rw [heq, List.pairwise_reverse, List.pairwise_map]
    refine (hlayout.pairwise.sublist hsublist).imp_of_mem fun hp _ hle => ?_
    exact Nat.le_trans (Nat.le_of_lt (hlayout.liesIn _ (hsublist.subset hp)).start_lt) hle
  obtain ⟨others, hcons⟩ := List.head?_eq_some_iff.mp h
  rw [hcons] at hoffset hordered
  rcases List.mem_cons.mp hoffset with rfl | hothers
  · exact Nat.le_refl _
  · exact (List.pairwise_cons.mp hordered).1 offset hothers

end Brackets

section Callees

theorem exists_last_of_mem {α : Type} {select : α → Bool} {items : List α} {item : α}
    (hitem : item ∈ items) (hselect : select item = true) : ∃ before last after,
      items = before ++ last :: after ∧ select last = true ∧
        ∀ other ∈ after, select other = false := by
  induction items using List.reverseRecOn with
  | nil => cases hitem
  | append_singleton items last ih =>
    by_cases hlast : select last = true
    · exact ⟨items, last, [], rfl, hlast, by simp⟩
    · have hne : item ≠ last := by
        rintro rfl
        exact hlast hselect
      have hmem : item ∈ items := by simpa [hne] using hitem
      obtain ⟨before, found, after, rfl, hfound, hafter⟩ := ih hmem
      refine ⟨before, found, after ++ [last], by simp, hfound, ?_⟩
      exact List.forall_mem_append.mpr ⟨hafter, by simpa using hlast⟩

/-- What is selected does not come after the last one that is. -/
theorem le_length_of_last {α : Type} {select : α → Bool} {before after : List α} {last item : α}
    (hafter : ∀ other ∈ after, select other = false) {i : Nat}
    (hitem : (before ++ last :: after)[i]? = some item) (hselect : select item = true) :
    i ≤ before.length := by
  by_contra hlt
  obtain ⟨k, rfl⟩ := Nat.exists_eq_add_of_lt (Nat.lt_of_not_le hlt)
  rw [List.getElem?_append_right (by omega), Nat.add_assoc, Nat.add_sub_cancel_left,
    List.getElem?_cons_succ] at hitem
  have hnone := hafter item (List.mem_of_getElem? hitem)
  exact Bool.false_ne_true (hnone.symm.trans hselect)

theorem endsCallee_eq_false_of_isWordChar {c : CodePoint} (h : isWordChar c = true) :
    endsCallee c = false := by
  have hends : ∀ c ∈ ("()[]" : Text), isWordChar c = false := by decide
  rw [endsCallee, isBlank_eq_false_of_isWordChar h, Bool.false_or, List.contains_eq_mem,
    decide_eq_false_iff_not]
  exact fun hc => Bool.false_ne_true ((hends c hc).symm.trans h)

/-- What comes after a word ends a name unless it is a quote mark or begins a comment. -/
theorem endsCallee_iff_of_isWordChar_eq_false {c : CodePoint} (h : isWordChar c = false) :
    endsCallee c = true ↔ c ∉ ("';" : Text) := by
  have hmarks : ∀ c ∈ ("';" : Text), endsCallee c = false := by decide
  have hends : ∀ c ∈ wordEnds, c ∉ ("';" : Text) → endsCallee c = true := by decide
  constructor
  · exact fun hends hc => Bool.false_ne_true ((hmarks c hc).symm.trans hends)
  · exact fun hc => (isBlank_or_mem_wordEnds h).elim endsCallee_of_isBlank
      fun hend => hends c hend hc

variable {document text : Text} {line column : Int} {outer inner : List Piece}
  {opener head : Piece}

theorem exists_drop_eq_of_isOpener (hopener : opener ∈ scan text) (h : opener.isOpener = true) :
    ∃ bracket, isOpeningBracket bracket = true ∧
      text.drop opener.start = bracket :: text.drop opener.stop := by
  obtain ⟨bracket, htext, hbracket⟩ := isOpener_iff.mp h
  refine ⟨bracket, hbracket, ?_⟩
  rw [((layout_scan text).liesIn opener hopener).drop_start, htext, List.singleton_append]

/-- The first word after a bracket is the name there unless a quote mark or a comment touches it. -/
theorem isNameOf_head_iff (hfeed : .scalar '\n' ∉ text.dropLast)
    (hscan : scan text = outer ++ opener :: head :: inner) (hword : head.isWord = true) :
    IsNameOf (text.drop opener.stop) head.text ↔ ∀ c ∈ text[head.stop]?, c ∉ ("';" : Text) := by
  have hhead : head ∈ scan text := by simp [hscan]
  obtain ⟨hchars, hafter⟩ := isWordChar_of_isWord hhead hword
  obtain ⟨first, hfirst, -⟩ := ((layout_scan text).liesIn head hhead).exists_first
  obtain ⟨blanks, htail, hblanks⟩ := exists_blanks_between hfeed hscan
  rw [htail, isNameOf_append_iff hblanks (List.ne_nil_of_mem hfirst)
    fun c hc => endsCallee_eq_false_of_isWordChar (hchars c hc), List.head?_drop]
  exact forall₂_congr fun c hc => endsCallee_iff_of_isWordChar_eq_false (hafter c hc)

theorem signature_eq {w : Workspace} {file : Text} {d : Document} (hd : w.get? file = some d)
    (hcursor : linePrefix d.text line column = .ok text) :
    w.signature file line column = .ok ((calleeName? text).bind Workspace.signatureOf?) := by
  rw [Workspace.signature, hd]
  simp only [hcursor]
  rfl

/-- Before a cursor, the callee is what can be read as a name after the last opening bracket.  If
the innermost unclosed bracket has a word after it, either it is the last one, and the callee is the
word unless a quote mark or a comment touches it; or the last bracket comes later, in a comment or
as one that is closed again, and the callee does not depend on the unclosed one.  Signature help
shows the signature of the callee. -/
theorem callee_of_last_bracket (hcursor : linePrefix document line column = .ok text)
    (hscan : scan text = outer ++ opener :: head :: inner)
    (hunclosed : (unclosedOf text).head? = some opener.start) (hword : head.isWord = true) :
    ∃ before bracket tail, text = before ++ bracket :: tail ∧
      isOpeningBracket bracket = true ∧ (∀ c ∈ tail, isOpeningBracket c = false) ∧
      (∀ name, calleeName? text = some name ↔ IsNameOf tail name) ∧
      (before.length = opener.start ∧
          (calleeName? text = some head.text ↔ ∀ c ∈ text[head.stop]?, c ∉ ("';" : Text)) ∨
        opener.start < before.length ∧ (.scalar ';' ∈ Text.currentLine before ∨
          before.length ∉ unclosedOf text ∧
            ∃ p ∈ scan text, p.start = before.length ∧ p.isOpener = true)) ∧
      ∀ (w : Workspace) (file : Text) (d : Document), w.get? file = some d → d.text = document →
        w.signature file line column = .ok ((calleeName? text).bind Workspace.signatureOf?) := by
  have hmem : opener ∈ scan text := by simp [hscan]
  obtain ⟨mark, hmark, hdrop⟩ :=
    exists_drop_eq_of_isOpener hmem (isOpener_of_unclosed hmem hunclosed)
  have hmarkMem : mark ∈ text := List.mem_of_mem_drop (hdrop ▸ List.mem_cons_self)
  obtain ⟨before, bracket, tail, rfl, hbracket, htail⟩ := exists_last_of_mem hmarkMem hmark
  have hname : ∀ name, calleeName? (before ++ bracket :: tail) = some name ↔ IsNameOf tail name :=
    fun name => calleeName?_eq_some_iff hbracket htail
  have hopener : (before ++ bracket :: tail)[opener.start]? = some mark := by
    rw [← List.head?_drop, hdrop]
    rfl
  refine ⟨before, bracket, tail, rfl, hbracket, htail, hname, ?_, ?_⟩
  · -- The unclosed bracket is an opening one, so the last of these does not come before it.
    rcases Nat.eq_or_lt_of_le (le_length_of_last htail hopener hmark) with heq | hlt
    · have hfeed := lineFeed_not_mem_dropLast_of_linePrefix hcursor
      have hhead := isNameOf_head_iff hfeed hscan hword
      rw [heq, List.drop_left] at hdrop
      rw [← (List.cons.inj hdrop).2, ← hname] at hhead
      exact .inl ⟨heq.symm, hhead⟩
    · refine .inr ⟨hlt, (exists_isOpener_of_isOpeningBracket hbracket).imp_right
        fun hpiece => ⟨fun hmem => ?_, hpiece⟩⟩
      exact absurd (le_of_mem_unclosedOf hunclosed hmem) (Nat.not_le.mpr hlt)
  · rintro w file d hd rfl
    exact signature_eq hd hcursor

/-- A call that is finished before the cursor, in another one. -/
def finishedCall : Text :=
  "(if (car x) "

/-- The callee is that of the finished call. -/
theorem callee_of_last_bracket_finished : (unclosedOf finishedCall).head? = some 0 ∧
    calleeName? finishedCall = some "car" ∧
    ∃ p ∈ scan finishedCall, 0 < p.start ∧ p.isOpener = true ∧
      p.start ∉ unclosedOf finishedCall := by
  have hcursor : linePrefix finishedCall 0 12 = .ok finishedCall := by decide
  have hscan : scan finishedCall = [] ++ ⟨"(", 0, 1⟩ :: ⟨"if", 1, 3⟩ ::
      [⟨"(", 4, 5⟩, ⟨"car", 5, 8⟩, ⟨"x", 9, 10⟩, ⟨")", 10, 11⟩] := by decide +kernel
  have hunclosed : (unclosedOf finishedCall).head? = some 0 := by decide +kernel
  have hcallee : calleeName? finishedCall = some "car" := by decide +kernel
  obtain ⟨before, bracket, tail, hsplit, -, -, -, ⟨-, hnamed⟩ | ⟨hlt, hlast⟩, -⟩ :=
    callee_of_last_bracket hcursor hscan hunclosed (by decide)
  · have hother : calleeName? finishedCall = some "if" := hnamed.mpr (by decide)
    rw [hcallee] at hother
    exact absurd hother (by decide)
  · rcases hlast with hcomment | ⟨hclosed, p, hp, hstart, hopener⟩
    · have hsemicolon : .scalar ';' ∈ finishedCall := by
        have hbefore := (List.takeWhile_sublist _).subset (List.mem_reverse.mp hcomment)
        rw [hsplit]
        exact List.mem_append_left _ (List.mem_reverse.mp hbefore)
      exact absurd hsemicolon (by decide)
    · exact ⟨hunclosed, hcallee, p, hp, hstart ▸ hlt, hopener, hstart ▸ hclosed⟩

end Callees

end SmallLisp.Editor
