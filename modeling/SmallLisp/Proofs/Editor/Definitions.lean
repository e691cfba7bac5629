import SmallLisp.Editor.Index
import SmallLisp.Proofs.Editor.Pieces
import SmallLisp.Proofs.Reading.Acceptance
import SmallLisp.Proofs.Session
/-!
What the index of a text shows and what a run of the text defines.

The index is made from the pieces of a text alone, whether they can be read or not.  A run defines
names in the global frame by the `define` forms of the text that are evaluated in it.  Main
statement: every name that a run adds or changes in the global frame is in the index.
-/

namespace SmallLisp

/-- Tokens among which a definition of a name begins. -/
def ShowsDefinition (name : Text) (ts : List Token) : Prop :=
  ∃ shape : Bracket,
    [⟨.opener, shape.opener⟩, ⟨.symbol, "define"⟩, ⟨.symbol, name⟩] <:+: ts

theorem ShowsDefinition.mono {name : Text} {ts us : List Token} (h : ShowsDefinition name ts)
    (hpart : ts <:+: us) : ShowsDefinition name us := by
  obtain ⟨shape, hshape⟩ := h
  exact ⟨shape, hshape.trans hpart⟩

/-- A list as an expression defines what its elements define, and its own target. -/
theorem Value.mem_definedNames_list {name : Text} {items : List Value} {identity : Option Nat}
    (h : name ∈ (Value.list items identity).definedNames) :
    (∃ rest, items = .symbol "define" :: .symbol name :: rest) ∨
      name ∈ Value.definedNamesIn items := by
  cases items with
  | nil => simp [Value.definedNames] at h
  | cons head parts =>
    rw [Value.definedNames] at h
    split at h
    · rename_i form hform
      obtain rfl := SpecialForm.specialHead?_eq_some_iff.mp hform
      have hparts : ∀ {name}, name ∈ Value.definedNamesIn parts →
          name ∈ Value.definedNamesIn (.symbol form.name :: parts) := by
        intro name hname
        rw [Value.definedNamesIn]
        exact List.mem_append_right _ hname
      revert h
      fun_cases form.definedNames parts with
      | case1 target e rest =>
        intro h
        rcases List.mem_cons.mp h with rfl | he
        · exact Or.inl ⟨_, rfl⟩
        · refine Or.inr (hparts ?_)
          simp [Value.definedNamesIn, he]
      | case2 parts => exact fun h => Or.inr (hparts h)
      | case3 form parts => exact fun h => absurd h List.not_mem_nil
    · exact Or.inr (by rwa [Value.definedNamesIn])

/-- An atom is read as an integer, as a boolean or as the symbol that it names. -/
theorem readAtom_eq_ok {text : Text} {v : Value} (h : readAtom text = .ok v) :
    (∃ n, v = .integer n) ∨ (∃ b, v = .boolean b) ∨ v = .symbol text := by
  rw [readAtom] at h
  split_ifs at h
  · cases hn : text.integerOf? with
    | none => simp [hn] at h
    | some n =>
      rw [hn] at h
      exact Or.inl ⟨n, (Except.ok.inj h).symm⟩
  · cases hb : literal? text with
    | none => simp [hb] at h
    | some b =>
      rw [hb] at h
      exact Or.inr (Or.inl ⟨b, (Except.ok.inj h).symm⟩)
  · rw [Value.symbolOf] at h
    split_ifs at h
    exact Or.inr (Or.inr (Except.ok.inj h).symm)

/-- The derivation of a symbol is its name. -/
theorem Derivation.tokens_of_value_symbol {d : Derivation} {name : Text}
    (h : d.value = .symbol name) : d.tokens = [⟨.symbol, name⟩] := by
  cases d with
  | atom text v accepted =>
    rw [value] at h
    rw [tokens]
    rcases readAtom_eq_ok accepted with ⟨n, rfl⟩ | ⟨b, rfl⟩ | rfl
    · cases h
    · cases h
    · cases h
      rfl
  | quoted mark datum => simp [value] at h
  | bracketed shape items => simp [value_bracketed] at h

open SmallLisp.Derivation

mutual

/-- What an expression defines shows in its tokens. -/
theorem Derivation.showsDefinition : ∀ (d : Derivation) {name : Text},
    name ∈ d.value.definedNames → ShowsDefinition name d.tokens
  | .atom text v accepted, name, h => by
      rw [value] at h
      rcases readAtom_eq_ok accepted with ⟨n, rfl⟩ | ⟨b, rfl⟩ | rfl <;>
        simp [Value.definedNames] at h
  | .quoted mark datum, name, h => by
      simp [value, Value.definedNames, specialHead?, SpecialForm.ofName?,
        SpecialForm.definedNames] at h
  | .bracketed shape items, name, h => by
      rw [value_bracketed] at h
      rw [tokens_bracketed]
      rcases Value.mem_definedNames_list h with ⟨rest, hitems⟩ | hitems
      · obtain ⟨d, items, rfl, hd, hrest⟩ := List.map_eq_cons_iff.mp hitems
        obtain ⟨target, items, rfl, htarget, -⟩ := List.map_eq_cons_iff.mp hrest
        refine ⟨shape, [], items.flatMap tokens ++ [⟨.closer, shape.closer⟩], ?_⟩
        simp [tokens_of_value_symbol hd, tokens_of_value_symbol htarget]
      · refine (row_showsDefinition items hitems).mono ?_
        exact ⟨[⟨.opener, shape.opener⟩], [⟨.closer, shape.closer⟩], by simp⟩

/-- What a row of expressions defines shows in their tokens. -/
theorem row_showsDefinition : ∀ (ds : List Derivation) {name : Text},
    name ∈ Value.definedNamesIn (ds.map value) → ShowsDefinition name (ds.flatMap tokens)
  | [], name, h => by simp [Value.definedNamesIn] at h
  | d :: ds, name, h => by
      rw [List.map_cons, Value.definedNamesIn] at h
      rw [List.flatMap_cons]
      rcases List.mem_append.mp h with hd | hds
      · exact (Derivation.showsDefinition d hd).mono (List.infix_append_left)
      · exact (row_showsDefinition ds hds).mono (List.infix_append_right)

end

namespace Editor

/-- The table of definitions only grows. -/
theorem keys_subset_addDefinitions (text : Text) (pieces : List Piece)
    (table : Table Text Definition) :
    Table.keys table ⊆ Table.keys (addDefinitions text pieces table) := by
  induction pieces generalizing table with
  | nil => exact fun _ h => h
  | cons p rest ih =>
    rw [addDefinitions]
    split
    · exact fun _ h => ih _ (Table.keys_subset_insert _ _ table h)
    · exact ih table

/-- An opening bracket, the word `define` and another word make an entry. -/
theorem mem_keys_addDefinitions (text : Text) {opener head name : Piece}
    (hopener : opener.isOpener = true) (hhead : head.text = "define")
    (hname : name.isWord = true) {pieces : List Piece}
    (h : [opener, head, name] <:+: pieces) (table : Table Text Definition) :
    name.text ∈ Table.keys (addDefinitions text pieces table) := by
  obtain ⟨before, after, rfl⟩ := h
  induction before generalizing table with
  | nil =>
    have hdefined : defined? (head :: name :: after) = some (name, kindOf after) := by
      simp [defined?, hhead, hname]
    simp only [List.nil_append, List.cons_append]
    rw [addDefinitions, hopener, if_pos rfl, hdefined]
    exact keys_subset_addDefinitions text _ _ (Table.mem_keys_insert _ _ table)
  | cons p before ih =>
    simp only [List.cons_append]
    rw [addDefinitions]
    split
    · exact ih _
    · exact ih table

theorem isOpener_of_text {p : Piece} {shape : Bracket} (h : p.text = shape.opener) :
    p.isOpener = true := by
  rw [Piece.isOpener, h]
  cases shape <;> decide

/-- An atom is a word. -/
theorem isWord_of_isAtom {p : Piece} (h : p.text.IsAtom) : p.isWord = true := by
  have hne : ∀ c : CodePoint, isAtomChar c = false → p.text ≠ [c] := by
    intro c hc heq
    have hatom := h.2 c (by simp [heq])
    simp [hc] at hatom
  have hopen := hne (.scalar '(') (by decide)
  have hopen' := hne (.scalar '[') (by decide)
  have hclose := hne (.scalar ')') (by decide)
  have hclose' := hne (.scalar ']') (by decide)
  have hquote := hne (.scalar '\'') (by decide)
  simp only [Piece.isWord, Piece.isOpener, Piece.isCloser, Bool.not_eq_true', Bool.or_eq_false_iff,
    beq_eq_false_iff_ne]
  exact ⟨⟨⟨hopen, hopen'⟩, hclose, hclose'⟩, hquote⟩

/-- What shows as a definition in the tokens of a text has an entry in its table. -/
theorem mem_keys_of_showsDefinition {text name : Text} (hfailure : (lex text).failure = none)
    (h : ShowsDefinition name (lex text).tokens) (table : Table Text Definition) :
    name ∈ Table.keys (addDefinitions text (scan text) table) := by
  obtain ⟨shape, before, after, htokens⟩ := h
  have hmem : ⟨.symbol, name⟩ ∈ (lex text).tokens := by
    rw [← htokens]
    simp
  have hatom : name.IsAtom := isAtom_of_mem_lex hmem rfl
  have hpieces := scan_eq_lex hfailure
  rw [← htokens, List.map_append, List.map_append] at hpieces
  obtain ⟨first, last, hscan, hfirst, -⟩ := List.map_eq_append_iff.mp hpieces
  obtain ⟨outer, middle, rfl, -, hmiddle⟩ := List.map_eq_append_iff.mp hfirst
  obtain ⟨opener, rest, rfl, hopener, hrest⟩ := List.map_eq_cons_iff.mp hmiddle
  obtain ⟨head, rest, rfl, hhead, hrest⟩ := List.map_eq_cons_iff.mp hrest
  obtain ⟨target, rest, rfl, htarget, hrest⟩ := List.map_eq_cons_iff.mp hrest
  obtain rfl := List.map_eq_nil_iff.mp hrest
  have hword : target.isWord = true := isWord_of_isAtom (htarget ▸ hatom)
  have hpart : [opener, head, target] <:+: scan text := ⟨outer, last, hscan.symm⟩
  have hkey := mem_keys_addDefinitions text (isOpener_of_text hopener) hhead hword hpart table
  rwa [htarget] at hkey

/-- Everything in the index of a text but the reader's error is made from the pieces of the text. -/
theorem eq_of_ofText {text : Text} {index : Index} (h : Index.ofText text = .ok index) :
    index =
      { definitions := addDefinitions text (scan text) []
        balance := balanceOf (scan text)
        unmatched := (looseBrackets (scan text)).map (Text.positionOf text)
        readingError := index.readingError } := by
  rw [Index.ofText] at h
  cases herror : readingErrorOf text with
  | error e =>
    rw [herror] at h
    cases h
  | ok readingError =>
    rw [herror] at h
    cases h
    rfl

theorem definitions_of_ofText {text : Text} {index : Index} (h : Index.ofText text = .ok index) :
    index.definitions = addDefinitions text (scan text) [] :=
  congrArg Index.definitions (eq_of_ofText h)

theorem balance_of_ofText {text : Text} {index : Index} (h : Index.ofText text = .ok index) :
    index.balance = balanceOf (scan text) :=
  congrArg Index.balance (eq_of_ofText h)

theorem unmatched_of_ofText {text : Text} {index : Index} (h : Index.ofText text = .ok index) :
    index.unmatched = (looseBrackets (scan text)).map (Text.positionOf text) :=
  congrArg Index.unmatched (eq_of_ofText h)

/-- What the forms of a text define is in the index of the text. -/
theorem definedNames_subset_keys {text : Text} {index : Index} (h : Index.ofText text = .ok index)
    {forms : List Value} (hforms : parse text = .ok forms) :
    Value.definedNamesIn forms ⊆ Table.keys index.definitions := by
  intro name hname
  obtain ⟨hfailure, done, hrun, rfl⟩ := parse_eq_ok_iff.mp hforms
  obtain ⟨program, htokens, hvalues⟩ := exists_program_of_run hrun
  have hshows := row_showsDefinition program (hvalues ▸ hname)
  rw [definitions_of_ofText h]
  exact mem_keys_of_showsDefinition hfailure (htokens ▸ hshows) []

/-- A run of a text writes nothing in the global frame but what the index of the text shows,
whatever is observed of its values. -/
theorem writes_evaluateAll {α : Type} {text : Text} {index : Index}
    (h : Index.ofText text = .ok index) (tracing : Bool)
    (observe : Store → Value → Except Failure α) (session : Session) :
    session.store.Writes session.global (Table.keys index.definitions)
        (session.evaluateAll tracing observe text).2.store ∧
      (session.evaluateAll tracing observe text).2.global = session.global := by
  rw [Session.evaluateAll]
  cases hforms : parse text with
  | error e => exact ⟨refl_of (Store.Writes session.global _) session.store, rfl⟩
  | ok forms =>
    obtain ⟨hwrites, hglobal⟩ := Session.writes_evaluateForms tracing observe forms session
    exact ⟨hwrites.mono (definedNames_subset_keys h hforms), hglobal⟩

/-- The index of a text covers what the evaluation of the text can define.  However the evaluation
ends, a name whose binding in the global frame was added or changed is in the index, the other
bindings and all other frames are as they were, and none is taken away. -/
theorem evaluateLast_definesIndexed {text : Text} {index : Index}
    (hindex : Index.ofText text = .ok index) {tracing : Bool} {session after : Session}
    {result : Except Failure (Option Value)}
    (hrun : session.evaluateLast tracing text = (result, after))
    (hglobal : session.global < session.store.frames.size) :
    (∀ name, after.store.getIn? name after.global ≠ session.store.getIn? name session.global →
      name ∈ Table.keys index.definitions) ∧
    after.global = session.global ∧
    session.store.Writes session.global (Table.keys index.definitions) after.store := by
  have hafter : after = (session.evaluateAll tracing (fun _ v => .ok v) text).2 :=
    (congrArg Prod.snd hrun).symm
  obtain ⟨hwrites, hsame⟩ := writes_evaluateAll hindex tracing (fun _ v => .ok v) session
  rw [← hafter] at hwrites hsame
  refine ⟨?_, hsame, hwrites⟩
  intro name hchanged
  by_contra hname
  exact hchanged (hsame ▸ hwrites.getIn?_eq hglobal hname)

/-- A function that defines `z` in the frame of its call, and a call of it. -/
def localDefinition : Text :=
  "(define f (lambda (y) (define z y))) (f 1)"

/-- The index shows the local definition as well, and nothing but the two can be changed. -/
theorem evaluateLast_definesIndexed_localDefinition : ∃ index result after,
    Index.ofText localDefinition = .ok index ∧
      Table.keys index.definitions = ["f", "z"] ∧
      Session.empty.evaluateLast false localDefinition = (result, after) ∧
      Session.empty.global < Session.empty.store.frames.size ∧
      ∀ name, after.store.getIn? name after.global ≠
        Session.empty.store.getIn? name Session.empty.global →
        name ∈ Table.keys index.definitions := by
  have hkeys : (Index.ofText localDefinition).toOption.map (fun index =>
      Table.keys index.definitions) = some (["f", "z"] : List Text) := by decide +kernel
  have hglobal : Session.empty.global < Session.empty.store.frames.size := by decide
  cases hrun : Session.empty.evaluateLast false localDefinition with
  | mk result after =>
    cases hindex : Index.ofText localDefinition with
    | error e =>
      rw [hindex] at hkeys
      cases hkeys
    | ok index =>
      rw [hindex] at hkeys
      have hindexed := evaluateLast_definesIndexed hindex hrun hglobal
      exact ⟨index, result, after, rfl, Option.some.inj hkeys, rfl, hglobal, hindexed.1⟩

end Editor

end SmallLisp
