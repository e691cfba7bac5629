import Mathlib.Data.List.Induction
import SmallLisp.Proofs.Editor.Diagnostics
import SmallLisp.Proofs.Reading.Parts
/-!
The definitions in the index of a text, and the `define` forms in what the text is read as.

The index looks for an opening bracket, the word `define` and one more word among the pieces; the
reader makes trees of them.  Each piece shows its token, and an expression after the others shows
what forms are in it.  Main statement: the index of a text that is read has the names of its forms
in the order in which they first occur, each with the kind and the place of its last one.
-/

namespace SmallLisp

open Text (positionOf)
open SmallLisp.Derivation

namespace Table

variable {α β : Type} [BEq α] [LawfulBEq α]

/-- Insertions one after the other make the keys of a table, in the order of their first ones. -/
theorem keys_foldl_insert (entries : List (α × β)) :
    keys (entries.foldl (fun table entry => insert entry.1 entry.2 table) []) =
      (entries.map Prod.fst).eraseDups := by
  induction entries using List.reverseRecOn with
  | nil => rfl
  | append_singleton before entry ih =>
    rw [List.foldl_append, List.foldl_cons, List.foldl_nil, List.map_append, List.eraseDups_append]
    have hkeys : entry.1 ∈ (before.map Prod.fst).eraseDups ↔ entry.1 ∈ before.map Prod.fst :=
      List.mem_eraseDups
    rw [← ih] at hkeys
    by_cases h : entry.1 ∈ before.map Prod.fst
    · rw [keys_insert_of_mem _ (hkeys.mpr h), ih]
      simp [List.removeAll, h]
    · rw [keys_insert_of_not_mem _ (mt hkeys.mp h), ih]
      simp [List.removeAll, h, List.eraseDups_cons]

/-- The last one of some insertions under a key is seen. -/
theorem lookup_foldl_insert (before : List (α × β)) {after : List (α × β)} {key : α} (v : β)
    (h : key ∉ after.map Prod.fst) (table : Table α β) :
    ((before ++ (key, v) :: after).foldl (fun table entry => insert entry.1 entry.2 table)
      table).lookup key = some v := by
  rw [List.foldl_append, List.foldl_cons]
  induction after using List.reverseRecOn with
  | nil => exact lookup_insert_self key v _
  | append_singleton others entry ih =>
    rw [List.map_append, List.mem_append, not_or] at h
    have hne : key ≠ entry.1 := by simpa using h.2
    rw [List.foldl_append, List.foldl_cons, List.foldl_nil, lookup_insert_of_ne hne]
    exact ih h.1

end Table

/-- A row of expressions in brackets that begins with the atom `define` and one more atom. -/
structure DefineForm where
  /-- The number of tokens before the name. -/
  place : Nat
  /-- The text of the second atom. -/
  name : Text
  /-- The expressions after the name. -/
  rest : List Derivation

namespace DefineForm

/-- The form that an expression is, after some tokens. -/
def ofPart? : Nat × Derivation → Option DefineForm
  | (place, .bracketed _ (.atom head _ _ :: .atom name _ _ :: rest)) =>
      if head = "define" then some { place := place + 2, name, rest } else none
  | _ => none

theorem place_of_ofPart? {part : Nat × Derivation} {form : DefineForm}
    (h : ofPart? part = some form) : form.place = part.1 + 2 := by
  unfold ofPart? at h
  split at h
  · split_ifs at h
    rw [← Option.some.inj h]
  · cases h

theorem ofPart?_eq_none_of_ne {place : Nat} {shape : Bracket} {head : Text} {v : Value}
    {accepted : readAtom head = .ok v} (hhead : head ≠ "define") (row : List Derivation) :
    ofPart? (place, .bracketed shape (.atom head v accepted :: row)) = none := by
  unfold ofPart?
  split
  · rename_i heq
    cases heq
    exact if_neg hhead
  · rfl

theorem ofPart?_eq_none_of_head {place : Nat} {shape : Bracket} {row : List Derivation}
    (hrow : ∀ head v accepted rest, row ≠ .atom head v accepted :: rest) :
    ofPart? (place, .bracketed shape row) = none := by
  unfold ofPart?
  split
  · rename_i heq
    cases heq
    exact absurd rfl (hrow _ _ _ _)
  · rfl

theorem ofPart?_eq_none_of_name {place : Nat} {shape : Bracket} {head : Text} {v : Value}
    {accepted : readAtom head = .ok v} {row : List Derivation}
    (hrow : ∀ name v accepted rest, row ≠ .atom name v accepted :: rest) :
    ofPart? (place, .bracketed shape (.atom head v accepted :: row)) = none := by
  unfold ofPart?
  split
  · rename_i heq
    cases heq
    exact absurd rfl (hrow _ _ _ _)
  · rfl

/-- A form whose name has a row of expressions in brackets after it that begins with the atom
`lambda`. -/
def IsFunction (form : DefineForm) : Prop :=
  ∃ shape v accepted items others,
    form.rest = .bracketed shape (.atom "lambda" v accepted :: items) :: others

end DefineForm

/-- The `define` forms anywhere in a program, in the order in which they begin. -/
def defineForms (program : List Derivation) : List DefineForm :=
  (partsOfRow 0 program).filterMap DefineForm.ofPart?

theorem pairwise_defineForms (program : List Derivation) :
    (defineForms program).Pairwise fun first second => first.place < second.place := by
  refine List.pairwise_filterMap.mpr ((pairwise_partsOfRow 0 program).imp ?_)
  intro part part' hlt form hform form' hform'
  rw [DefineForm.place_of_ofPart? hform, DefineForm.place_of_ofPart? hform']
  exact Nat.add_lt_add_right hlt 2

namespace Editor

section Rows

variable {pieces closing : List Piece}

theorem exists_of_shows_append {ts us : List Token}
    (h : List.Forall₂ Piece.Shows pieces (ts ++ us)) : ∃ first last,
    pieces = first ++ last ∧ List.Forall₂ Piece.Shows first ts ∧
      List.Forall₂ Piece.Shows last us :=
  ⟨_, _, (List.take_append_drop ts.length pieces).symm, List.forall₂_take_append _ _ _ h,
    List.forall₂_drop_append _ _ _ h⟩

/-- The pieces of a row of expressions in brackets. -/
theorem exists_of_shows_bracketed {shape : Bracket} {items : List Derivation}
    (h : List.Forall₂ Piece.Shows pieces (tokens (.bracketed shape items))) :
    ∃ opener inner closer, pieces = opener :: (inner ++ [closer]) ∧ opener.isOpener = true ∧
      opener.isWord = false ∧ List.Forall₂ Piece.Shows inner (items.flatMap tokens) ∧
      closer.isOpener = false ∧ closer.isWord = false := by
  rw [tokens_bracketed] at h
  obtain ⟨opener, rest, hopener, hrest, rfl⟩ := List.forall₂_cons_right_iff.mp h
  obtain ⟨inner, last, rfl, hinner, hlast⟩ := exists_of_shows_append hrest
  obtain ⟨closer, none, hcloser, hnone, rfl⟩ := List.forall₂_cons_right_iff.mp hlast
  obtain rfl := List.forall₂_nil_right_iff.mp hnone
  refine ⟨opener, inner, closer, rfl, hopener.opener.mpr rfl, ?_, hinner, ?_, ?_⟩
  · simpa using hopener.word
  · simpa using hcloser.opener
  · simpa using hcloser.word

/-- How the pieces of a row of expressions begin when others come after them: with the word of an
atom, or with a piece that is no word. -/
inductive RowStart (closing : List Piece) : List Derivation → List Piece → Prop
  | atom {p : Piece} {v : Value} {accepted : readAtom p.text = .ok v} {rest : List Derivation}
      {others : List Piece} (hword : p.isWord = true)
      (hrest : List.Forall₂ Piece.Shows others (rest.flatMap tokens)) :
      RowStart closing (.atom p.text v accepted :: rest) (p :: (others ++ closing))
  | other {p : Piece} {row : List Derivation} {others : List Piece} (hword : p.isWord = false)
      (hrow : ∀ name v accepted rest, row ≠ .atom name v accepted :: rest) :
      RowStart closing row (p :: others)

theorem rowStart_of_shows {row : List Derivation} {closer : Piece}
    (h : List.Forall₂ Piece.Shows pieces (row.flatMap tokens)) (hcloser : closer.isWord = false)
    (after : List Piece) :
    RowStart (closer :: after) row (pieces ++ closer :: after) := by
  cases row with
  | nil =>
    obtain rfl := List.forall₂_nil_right_iff.mp h
    exact .other hcloser (by simp)
  | cons d rest =>
    rw [List.flatMap_cons] at h
    obtain ⟨first, others, rfl, hfirst, hothers⟩ := exists_of_shows_append h
    cases d with
    | atom text v accepted =>
      rw [tokens] at hfirst
      obtain ⟨p, none, hp, hnone, rfl⟩ := List.forall₂_cons_right_iff.mp hfirst
      obtain rfl := List.forall₂_nil_right_iff.mp hnone
      obtain rfl : p.text = text := hp.text
      rw [List.append_assoc]
      exact .atom (hp.word.mpr rfl) hothers
    | quoted mark datum =>
      rw [tokens] at hfirst
      obtain ⟨p, inner, hp, -, rfl⟩ := List.forall₂_cons_right_iff.mp hfirst
      exact .other (by simpa using hp.word) (by simp)
    | bracketed shape items =>
      obtain ⟨opener, inner, last, rfl, -, hword, -⟩ := exists_of_shows_bracketed hfirst
      exact .other hword (by simp)

theorem text_ne_of_not_isWord {p : Piece} {word : Text} (h : p.isWord = false)
    (hword : Piece.isWord ⟨word, 0, 0⟩ = true) : p.text ≠ word := by
  rintro rfl
  exact Bool.false_ne_true (h.symm.trans hword)

theorem kindOf_of_not_isOpener {p : Piece} (h : p.isOpener = false) (rest : List Piece) :
    kindOf (p :: rest) = .variable := by
  cases rest with
  | nil => rfl
  | cons head rest => rw [kindOf, h, Bool.false_and, if_neg Bool.false_ne_true]

theorem kindOf_of_isOpener {p : Piece} (h : p.isOpener = true) (head : Piece)
    (rest : List Piece) : kindOf (p :: head :: rest) = .function ↔ head.text = "lambda" := by
  simp [kindOf, h]

/-- The kind of a definition is a matter of the expressions after its name. -/
theorem kindOf_eq_function_iff {row : List Derivation} {closer : Piece} {after : List Piece}
    (h : List.Forall₂ Piece.Shows pieces (row.flatMap tokens)) (hcloser : closer.isOpener = false) :
    kindOf (pieces ++ closer :: after) = .function ↔
      ∃ shape v accepted items others,
        row = .bracketed shape (.atom "lambda" v accepted :: items) :: others := by
  cases row with
  | nil =>
    obtain rfl := List.forall₂_nil_right_iff.mp h
    simp [kindOf_of_not_isOpener hcloser]
  | cons d rest =>
    rw [List.flatMap_cons] at h
    obtain ⟨first, last, rfl, hfirst, -⟩ := exists_of_shows_append h
    cases d with
    | atom | quoted =>
      rw [tokens] at hfirst
      obtain ⟨p, inner, hp, -, rfl⟩ := List.forall₂_cons_right_iff.mp hfirst
      have hopener : p.isOpener = false := by simpa using hp.opener
      simp [kindOf_of_not_isOpener hopener]
    | bracketed shape items =>
      obtain ⟨opener, inner, closer', rfl, hopener, -, hinner, -, hword⟩ :=
        exists_of_shows_bracketed hfirst
      have hstart := rowStart_of_shows hinner hword (last ++ closer :: after)
      simp only [List.cons_append, List.append_assoc, List.nil_append]
      generalize inner ++ closer' :: (last ++ closer :: after) = all at hstart ⊢
      cases hstart with
      | @atom head v accepted others more hword hrest =>
        rw [kindOf_of_isOpener hopener]
        constructor
        · intro hhead
          obtain ⟨text, start, stop⟩ := head
          obtain rfl : text = "lambda" := hhead
          exact ⟨shape, v, accepted, others, rest, rfl⟩
        · rintro ⟨_, _, _, _, _, heq⟩
          simp only [List.cons.injEq, bracketed.injEq, atom.injEq] at heq
          exact heq.1.2.1.1
      | @other head items more hword hrow =>
        rw [kindOf_of_isOpener hopener]
        refine iff_of_false (text_ne_of_not_isWord hword (by decide)) ?_
        rintro ⟨_, _, _, _, _, heq⟩
        simp only [List.cons.injEq, bracketed.injEq] at heq
        exact hrow _ _ _ _ heq.1.2

end Rows

/-- The definitions that pieces show, in order. -/
def shownDefinitions : List Piece → List (Piece × DefinitionKind)
  | [] => []
  | p :: rest => (if p.isOpener then defined? rest else none).toList ++ shownDefinitions rest

theorem shownDefinitions_cons_of_not_isOpener {p : Piece} (h : p.isOpener = false)
    (rest : List Piece) : shownDefinitions (p :: rest) = shownDefinitions rest := by
  rw [shownDefinitions, h]
  rfl

theorem shownDefinitions_cons_of_isOpener {p : Piece} (h : p.isOpener = true)
    (rest : List Piece) :
    shownDefinitions (p :: rest) = (defined? rest).toList ++ shownDefinitions rest := by
  rw [shownDefinitions, h]
  rfl

/-- The entry of a definition in the index of a text. -/
def entryOf (text : Text) (shown : Piece × DefinitionKind) : Text × Definition :=
  (shown.1.text, { kind := shown.2, position := positionOf text shown.1.start })

theorem addDefinitions_eq (text : Text) (pieces : List Piece) (table : Table Text Definition) :
    addDefinitions text pieces table =
      ((shownDefinitions pieces).map (entryOf text)).foldl
        (fun table entry => table.insert entry.1 entry.2) table := by
  induction pieces generalizing table with
  | nil => rfl
  | cons p rest ih =>
    rw [addDefinitions, shownDefinitions]
    cases if p.isOpener then defined? rest else none with
    | none => exact ih table
    | some shown => exact ih _

/-- A definition that pieces show is a form: its name is where the form has it, and it is a function
if the form is one. -/
structure Describes (pieces : List Piece) (shown : Piece × DefinitionKind) (form : DefineForm) :
    Prop where
  piece : pieces[form.place]? = some shown.1
  name : shown.1.text = form.name
  kind : shown.2 = .function ↔ form.IsFunction

theorem defined?_eq_none_of_head {p : Piece} (h : p.text ≠ "define") (rest : List Piece) :
    defined? (p :: rest) = none := by
  cases rest with
  | nil => rfl
  | cons name rest => simp [defined?, h]

theorem defined?_eq_none_of_name {name : Piece} (h : name.isWord = false) (p : Piece)
    (rest : List Piece) : defined? (p :: name :: rest) = none := by
  simp [defined?, h]

theorem defined?_of_define {p name : Piece} (hp : p.text = "define") (hname : name.isWord = true)
    (rest : List Piece) : defined? (p :: name :: rest) = some (name, kindOf rest) := by
  simp [defined?, hp, hname]

/-- Pieces after an opening bracket show a definition if the row in the brackets is a form. -/
theorem defined?_of_row (front after : List Piece) (opener : Piece) {closer : Piece}
    {pieces : List Piece} (shape : Bracket) {row : List Derivation}
    (h : List.Forall₂ Piece.Shows pieces (row.flatMap tokens)) (hopener : closer.isOpener = false)
    (hword : closer.isWord = false) :
    List.Forall₂ (Describes (front ++ opener :: (pieces ++ closer :: after)))
      (defined? (pieces ++ closer :: after)).toList
      (DefineForm.ofPart? (front.length, .bracketed shape row)).toList := by
  have hstart := rowStart_of_shows h hword after
  generalize pieces ++ closer :: after = all at hstart ⊢
  cases hstart with
  | @other p row others hp hrow =>
    have hhead : p.text ≠ "define" := text_ne_of_not_isWord hp (by decide)
    rw [DefineForm.ofPart?_eq_none_of_head hrow, defined?_eq_none_of_head hhead]
    exact .nil
  | @atom p v accepted rest others hp hrest =>
    have hnext := rowStart_of_shows hrest hword after
    by_cases hhead : p.text = "define"
    · generalize others ++ closer :: after = all at hnext ⊢
      cases hnext with
      | @other name _ others hname hrow =>
        rw [DefineForm.ofPart?_eq_none_of_name hrow, defined?_eq_none_of_name hname]
        exact .nil
      | @atom name v' accepted' others more hname hothers =>
        rw [defined?_of_define hhead hname, DefineForm.ofPart?, if_pos hhead]
        refine .cons ⟨?_, rfl, ?_⟩ .nil
        · simp
        · exact kindOf_eq_function_iff hothers hopener
    · rw [DefineForm.ofPart?_eq_none_of_ne hhead, defined?_eq_none_of_head hhead]
      exact .nil

mutual

/-- The pieces of an expression show the forms in it.  The pieces before them are there for the
places of the names, and those after them because the index looks ahead. -/
theorem exists_shown : ∀ (d : Derivation) (front after : List Piece) {pieces : List Piece},
    List.Forall₂ Piece.Shows pieces d.tokens →
    ∃ shown, shownDefinitions (pieces ++ after) = shown ++ shownDefinitions after ∧
      List.Forall₂ (Describes (front ++ (pieces ++ after))) shown
        ((parts front.length d).filterMap DefineForm.ofPart?)
  | .atom text v accepted, front, after, pieces, h => by
      rw [tokens] at h
      obtain ⟨p, none, hp, hnone, rfl⟩ := List.forall₂_cons_right_iff.mp h
      obtain rfl := List.forall₂_nil_right_iff.mp hnone
      refine ⟨[], shownDefinitions_cons_of_not_isOpener ?_ _, ?_⟩
      · simpa using hp.opener
      · rw [parts]
        exact .nil
  | .quoted mark datum, front, after, pieces, h => by
      rw [tokens] at h
      obtain ⟨p, inner, hp, hinner, rfl⟩ := List.forall₂_cons_right_iff.mp h
      have hopener : p.isOpener = false := by simpa using hp.opener
      obtain ⟨shown, hshown, hforms⟩ := exists_shown datum (front ++ [p]) after hinner
      refine ⟨shown, ?_, ?_⟩
      · rw [List.cons_append, shownDefinitions_cons_of_not_isOpener hopener, hshown]
      · rw [parts, List.filterMap_cons_none rfl]
        simpa using hforms
  | .bracketed shape items, front, after, pieces, h => by
      obtain ⟨opener, inner, closer, rfl, hopener, -, hinner, hcloser, hword⟩ :=
        exists_of_shows_bracketed h
      obtain ⟨shown, hshown, hforms⟩ := exists_shown_of_row items (front ++ [opener])
        (closer :: after) hinner
      have hform := defined?_of_row front after opener shape hinner hcloser hword
      refine ⟨(defined? (inner ++ closer :: after)).toList ++ shown, ?_, ?_⟩
      · rw [List.cons_append, List.append_assoc, List.singleton_append,
          shownDefinitions_cons_of_isOpener hopener, hshown,
          shownDefinitions_cons_of_not_isOpener hcloser, List.append_assoc]
      · rw [parts, List.filterMap_eq_flatMap_toList, List.flatMap_cons,
          ← List.filterMap_eq_flatMap_toList]
        simp only [List.length_append, List.length_singleton, List.append_assoc, List.cons_append,
          List.nil_append] at hforms ⊢
        exact List.rel_append hform hforms

/-- The pieces of a row of expressions show the forms in them. -/
theorem exists_shown_of_row : ∀ (ds : List Derivation) (front after : List Piece)
    {pieces : List Piece}, List.Forall₂ Piece.Shows pieces (ds.flatMap tokens) →
    ∃ shown, shownDefinitions (pieces ++ after) = shown ++ shownDefinitions after ∧
      List.Forall₂ (Describes (front ++ (pieces ++ after))) shown
        ((partsOfRow front.length ds).filterMap DefineForm.ofPart?)
  | [], front, after, pieces, h => by
      obtain rfl := List.forall₂_nil_right_iff.mp h
      exact ⟨[], rfl, .nil⟩
  | d :: ds, front, after, pieces, h => by
      rw [List.flatMap_cons] at h
      obtain ⟨first, last, rfl, hfirst, hlast⟩ := exists_of_shows_append h
      obtain ⟨shown, hshown, hforms⟩ := exists_shown d front (last ++ after) hfirst
      obtain ⟨others, hothers, hrest⟩ := exists_shown_of_row ds (front ++ first) after hlast
      refine ⟨shown ++ others, ?_, ?_⟩
      · rw [List.append_assoc, hshown, hothers, List.append_assoc]
      · rw [partsOfRow, List.filterMap_append, ← hfirst.length_eq, ← List.length_append]
        rw [List.append_assoc] at hrest ⊢
        exact List.rel_append hforms hrest

end

/-- The definitions that the pieces of a program show are its forms. -/
theorem describes_of_shows {program : List Derivation} {pieces : List Piece}
    (h : List.Forall₂ Piece.Shows pieces (program.flatMap tokens)) :
    List.Forall₂ (Describes pieces) (shownDefinitions pieces) (defineForms program) := by
  obtain ⟨shown, hshown, hforms⟩ := exists_shown_of_row program [] [] h
  rw [List.append_nil, List.nil_append] at hforms
  rw [List.append_nil, shownDefinitions, List.append_nil] at hshown
  rwa [hshown]

section Entries

variable {pieces : List Piece}

theorem names_eq {shown : List (Piece × DefinitionKind)} {forms : List DefineForm}
    (h : List.Forall₂ (Describes pieces) shown forms) (text : Text) :
    (shown.map (entryOf text)).map Prod.fst = forms.map DefineForm.name := by
  induction h with
  | nil => rfl
  | cons hform _ ih =>
    rw [List.map_cons, List.map_cons, List.map_cons, ih, ← hform.name]
    rfl

/-- The table has the names of the forms in the order in which they first occur. -/
theorem keys_addDefinitions {forms : List DefineForm}
    (h : List.Forall₂ (Describes pieces) (shownDefinitions pieces) forms) (text : Text) :
    Table.keys (addDefinitions text pieces []) = (forms.map DefineForm.name).eraseDups := by
  rw [addDefinitions_eq, Table.keys_foldl_insert, names_eq h]

/-- Of the forms with a name the last one makes the entry of the name. -/
theorem exists_entry_of_last {before after : List DefineForm} {form : DefineForm}
    (h : List.Forall₂ (Describes pieces) (shownDefinitions pieces) (before ++ form :: after))
    (hlast : form.name ∉ after.map DefineForm.name) (text : Text)
    (table : Table Text Definition) : ∃ name kind, Describes pieces (name, kind) form ∧
      (addDefinitions text pieces table).lookup form.name =
        some { kind, position := positionOf text name.start } := by
  rw [addDefinitions_eq, ← List.take_append_drop before.length (shownDefinitions pieces)]
  obtain ⟨⟨name, kind⟩, others, hform, hothers, hdrop⟩ :=
    List.forall₂_cons_right_iff.mp (List.forall₂_drop_append _ _ _ h)
  refine ⟨name, kind, hform, ?_⟩
  rw [← names_eq hothers text, ← hform.name] at hlast
  rw [hdrop, List.map_append, List.map_cons, ← hform.name]
  exact Table.lookup_foldl_insert _ _ hlast table

/-- Where a text has a piece, the line of its position has the text of the piece from the column
on. -/
theorem exists_line_of_piece {text : Text} {p : Piece} (hp : p ∈ scan text) : ∃ line,
    (text.splitOn (.scalar '\n'))[(positionOf text p.start).line]? = some line ∧
      p.text <+: line.drop (positionOf text p.start).column := by
  have hlayout := layout_scan text
  obtain ⟨hstart, hstop, htext⟩ := hlayout.liesIn p hp
  refine Text.exists_line_of_word ?_ (by omega) fun hfeed => ?_
  · rw [htext, List.extract_eq_take_drop]
    exact List.take_prefix _ _
  · exact absurd (hlayout.isBlank_eq_false_of_mem hp hfeed) (by decide)

end Entries

/-- The index of a text that is read, and the forms in its only derivation.  The index has the names
of the forms in the order in which they first occur, and what it says of a name is true of the last
form with this name: its kind, and the line and the column at which the text has the name. -/
theorem definitions_describe_forms {text : Text} {vs : List Value} (h : parse text = .ok vs) :
    ∃ (program : List Derivation) (index : Index),
      (∀ other : List Derivation,
        other.flatMap tokens = (lex text).tokens ↔ other = program) ∧
      program.map value = vs ∧
      (scan text).map Piece.text = (lex text).tokens.map Token.text ∧
      (defineForms program).Pairwise (fun first second => first.place < second.place) ∧
      Index.ofText text = .ok index ∧
      Table.keys index.definitions = ((defineForms program).map DefineForm.name).eraseDups ∧
      ∀ before form after, defineForms program = before ++ form :: after →
        form.name ∉ after.map DefineForm.name →
        ∃ piece definition line,
          (scan text)[form.place]? = some piece ∧
          piece.text = form.name ∧
          index.definitions.lookup form.name = some definition ∧
          (definition.kind = .function ↔ form.IsFunction) ∧
          definition.position = positionOf text piece.start ∧
          (text.splitOn (.scalar '\n'))[definition.position.line]? = some line ∧
          form.name <+: line.drop definition.position.column := by
  obtain ⟨hfailure, done, hrun, rfl⟩ := parse_eq_ok_iff.mp h
  obtain ⟨program, htokens, hvalues⟩ := exists_program_of_run hrun
  have hreading : readingErrorOf text = .ok none := by rw [readingErrorOf, h]
  have hindex := ofText_of_readingErrorOf hreading
  have hshows : List.Forall₂ Piece.Shows (scan text) (program.flatMap tokens) :=
    htokens ▸ shows_scan hfailure
  have hforms := describes_of_shows hshows
  refine ⟨program, _, fun other => ?_, hvalues, scan_eq_lex hfailure, pairwise_defineForms program,
    hindex, ?_, ?_⟩
  · constructor
    · exact fun heq => program_unique (heq.trans htokens.symm)
    · rintro rfl
      exact htokens
  · exact keys_addDefinitions hforms text
  · intro before form after hsplit hlast
    rw [hsplit] at hforms
    obtain ⟨piece, kind, ⟨hpiece, hname, hkind⟩, hentry⟩ :=
      exists_entry_of_last hforms hlast text []
    obtain ⟨line, hline, hcolumn⟩ := exists_line_of_piece (List.mem_of_getElem? hpiece)
    rw [hname] at hcolumn
    exact ⟨piece, _, line, hpiece, hname, hentry, hkind, rfl, hline, hcolumn⟩

/-- A definition in another one that is quoted, and one of the same name before them. -/
def nestedForms : Text :=
  "(define f 1)\n'(define g [define f [lambda (x) x]])"

/-- The name that is defined twice keeps its place, and its entry is of the inner definition. -/
theorem definitions_describe_forms_nested : ∃ vs program index,
    parse nestedForms = .ok vs ∧
      program.map value = vs ∧
      ((defineForms program).map DefineForm.name).eraseDups = ["f", "g"] ∧
      Index.ofText nestedForms = .ok index ∧
      index.definitions = [⟨"f", .function, ⟨1, 19⟩⟩, ⟨"g", .variable, ⟨1, 9⟩⟩] := by
  have hparse : (parse nestedForms).isOk = true := by decide +kernel
  have hdefinitions : (Index.ofText nestedForms).toOption.map Index.definitions =
      some [⟨"f", .function, ⟨1, 19⟩⟩, ⟨"g", .variable, ⟨1, 9⟩⟩] := by decide +kernel
  cases h : parse nestedForms with
  | error e => simp [h, Except.isOk, Except.toBool] at hparse
  | ok vs =>
    obtain ⟨program, index, -, hvalues, -, -, hindex, hkeys, -⟩ := definitions_describe_forms h
    rw [hindex] at hdefinitions
    have heq := Option.some.inj hdefinitions
    refine ⟨vs, program, index, rfl, hvalues, ?_, hindex, heq⟩
    rw [← hkeys, heq]
    rfl

end Editor

end SmallLisp
