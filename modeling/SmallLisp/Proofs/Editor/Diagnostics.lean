import SmallLisp.Proofs.Editor.Documents
import SmallLisp.Proofs.Editor.Places
import SmallLisp.Proofs.Reading.Failing
/-!
What an editor is told of the text of a document.

The editor pairs brackets of either shape and looks at nothing else.  As long as the reader goes on,
it has as many brackets open as the editor has, and no closing bracket is left over.  Main
statement: nothing is reported if and only if the text is read; the brackets without a partner are
reported, and where there are none, the reader's error.
-/

namespace SmallLisp.Editor

open Text (positionOf)

section Brackets

namespace Loose

variable {loose : Loose} {p : Piece}

theorem step_of_isOpener (h : p.isOpener = true) :
    loose.step p = { loose with openers := p.start :: loose.openers } := by
  rw [step, if_pos h]

theorem step_of_isCloser (hopener : p.isOpener = false) (hcloser : p.isCloser = true)
    {start : Nat} {outer : List Nat} (houter : loose.openers = start :: outer) :
    loose.step p = { loose with openers := outer } := by
  rw [step, if_neg (Bool.eq_false_iff.mp hopener), if_pos hcloser, houter]

theorem step_of_stray (hopener : p.isOpener = false) (hcloser : p.isCloser = true)
    (hnone : loose.openers = []) :
    loose.step p = { loose with closers := loose.closers.push p.start } := by
  rw [step, if_neg (Bool.eq_false_iff.mp hopener), if_pos hcloser, hnone]

theorem step_of_no_bracket (hopener : p.isOpener = false) (hcloser : p.isCloser = false) :
    loose.step p = loose := by
  rw [step, if_neg (Bool.eq_false_iff.mp hopener), if_neg (Bool.eq_false_iff.mp hcloser)]

/-- The brackets without a partner so far are opening ones, as many as the reader has open. -/
structure Agrees (loose : Loose) (r : Reader) : Prop where
  closers : loose.closers = #[]
  openers : loose.openers.length = r.openBrackets

variable {r r' : Reader}

/-- A token that the reader takes, and the piece that shows it. -/
theorem Agrees.step {t : Token} (h : loose.Agrees r) (hshows : p.Shows t)
    (htake : r.take t = .ok r') : (loose.step p).Agrees r' := by
  obtain ⟨hclosers, hopeners⟩ := h
  have hopen := Reader.openBrackets_take htake
  cases hkind : t.kind with
  | opener =>
    simp only [Token.weight, hkind] at hopen
    rw [step_of_isOpener (hshows.opener.mpr hkind)]
    refine ⟨hclosers, ?_⟩
    rw [List.length_cons]
    omega
  | closer =>
    simp only [Token.weight, hkind] at hopen
    have hopener : p.isOpener = false := by simpa [hkind] using hshows.opener
    -- The reader takes the bracket, so it has one open, and so has the editor.
    have hsome : 0 < loose.openers.length := by omega
    obtain ⟨start, outer, houter⟩ := List.exists_cons_of_length_pos hsome
    rw [houter, List.length_cons] at hopeners
    have hfewer : outer.length = r'.openBrackets := by omega
    rw [step_of_isCloser hopener (hshows.closer.mpr hkind) houter]
    exact ⟨hclosers, hfewer⟩
  | symbol | quote | other =>
    simp only [Token.weight, hkind] at hopen
    have hopener : p.isOpener = false := by simpa [hkind] using hshows.opener
    have hcloser : p.isCloser = false := by simpa [hkind] using hshows.closer
    rw [step_of_no_bracket hopener hcloser]
    exact ⟨hclosers, by omega⟩

theorem Agrees.run {pieces : List Piece} {ts : List Token} (h : loose.Agrees r)
    (hshows : List.Forall₂ Piece.Shows pieces ts) (hrun : r.run ts = .ok r') :
    (pieces.foldl Loose.step loose).Agrees r' := by
  induction hshows generalizing loose r with
  | nil =>
    cases hrun
    exact h
  | cons hfirst _ ih =>
    obtain ⟨mid, ht, hrest⟩ := Reader.run_cons_eq_ok hrun
    rw [List.foldl_cons]
    exact ih (h.step hfirst ht) hrest

end Loose

/-- A text that is read has no bracket without a partner. -/
theorem looseBrackets_of_parse {text : Text} {vs : List Value} (h : parse text = .ok vs) :
    looseBrackets (scan text) = [] := by
  obtain ⟨hfailure, done, hrun, -⟩ := parse_eq_ok_iff.mp h
  have hempty : Loose.Agrees {} {} := ⟨rfl, rfl⟩
  obtain ⟨hclosers, hopeners⟩ := hempty.run (shows_scan hfailure) hrun
  rw [looseBrackets, hclosers, List.eq_nil_of_length_eq_zero hopeners]
  rfl

end Brackets

section Diagnostics

theorem ofString_eq_nil_iff {s : String} : Text.ofString s = [] ↔ s = "" := by
  simp [Text.ofString]

theorem message_ne_nil (fault : Fault) : fault.message ≠ [] := by
  cases fault <;> simp [Fault.message, ofString_eq_nil_iff]

theorem ofText_of_readingErrorOf {text : Text} {readingError : Option Text}
    (h : readingErrorOf text = .ok readingError) :
    Index.ofText text = .ok
      { definitions := addDefinitions text (scan text) []
        balance := balanceOf (scan text)
        unmatched := (looseBrackets (scan text)).map (positionOf text)
        readingError } := by
  rw [Index.ofText, h]
  rfl

/-- The diagnostics at the brackets of a text that have no partner. -/
def bracketDiagnostics (text : Text) : List Diagnostic :=
  (looseBrackets (scan text)).map fun offset =>
    { position := positionOf text offset, message := "Unmatched bracket" }

/-- The diagnostics of a text in which the reader finds an error. -/
def errorDiagnostics (text : Text) (fault : Fault) : List Diagnostic :=
  if looseBrackets (scan text) = [] then [{ position := ⟨0, 0⟩, message := fault.message }]
  else bracketDiagnostics text

theorem errorDiagnostics_ne_nil (text : Text) (fault : Fault) :
    errorDiagnostics text fault ≠ [] := by
  rw [errorDiagnostics]
  split_ifs with hloose
  · exact List.cons_ne_nil _ _
  · rw [bracketDiagnostics, Ne, List.map_eq_nil_iff]
    exact hloose

namespace Workspace

variable {w : Workspace} {name text : Text} {notification : Notification}

/-- What is published after a notification are the diagnostics of an index, by the reader's error
in the new text. -/
theorem notify_eq_of_readingErrorOf (htext : w.textAfter? name notification = some text)
    {readingError : Option Text} (h : readingErrorOf text = .ok readingError) :
    ∃ index : Index, (w.notify name notification).1 = .ok index.diagnostics ∧
      index.readingError = readingError ∧
      index.unmatched = (looseBrackets (scan text)).map (positionOf text) :=
  ⟨_, by rw [notify_of_ofText htext (ofText_of_readingErrorOf h)], rfl, rfl⟩

theorem notify_of_parse (htext : w.textAfter? name notification = some text) {vs : List Value}
    (h : parse text = .ok vs) : (w.notify name notification).1 = .ok [] := by
  have hreading : readingErrorOf text = .ok none := by rw [readingErrorOf, h]
  obtain ⟨index, hnotify, herror, hunmatched⟩ := notify_eq_of_readingErrorOf htext hreading
  rw [looseBrackets_of_parse h, List.map_nil] at hunmatched
  rw [hnotify, Index.diagnostics, herror, hunmatched]
  rfl

theorem notify_of_fault (htext : w.textAfter? name notification = some text) {fault : Fault}
    (h : parse text = .error (.fault fault)) :
    (w.notify name notification).1 = .ok (errorDiagnostics text fault) := by
  have hreading : readingErrorOf text = .ok (some fault.message) := by rw [readingErrorOf, h]
  obtain ⟨index, hnotify, herror, hunmatched⟩ := notify_eq_of_readingErrorOf htext hreading
  rw [hnotify, Index.diagnostics, herror, hunmatched]
  simp [message_ne_nil, errorDiagnostics, bracketDiagnostics, Function.comp_def]

/-- When the reader accepts a new text or finds an error in it, nothing is published if and only if
it accepts the text; it accepts none with a bracket that has no partner; and where all have one,
its error is published alone. -/
theorem notify_diagnoses (htext : w.textAfter? name notification = some text)
    (hreads : (∃ vs, parse text = .ok vs) ∨
      ∃ fault, parse text = .error (.fault fault) ∧ fault.kind = .unreadable) :
    ∃ diagnostics, (w.notify name notification).1 = .ok diagnostics ∧
      (diagnostics = [] ↔ ∃ vs, parse text = .ok vs) ∧
      (looseBrackets (scan text) ≠ [] → diagnostics = bracketDiagnostics text ∧
        ∃ fault, parse text = .error (.fault fault) ∧ fault.kind = .unreadable) ∧
      (∀ fault, looseBrackets (scan text) = [] → parse text = .error (.fault fault) →
        diagnostics = [{ position := ⟨0, 0⟩, message := fault.message }]) := by
  rcases hreads with ⟨vs, hvs⟩ | ⟨fault, hfault, hkind⟩
  · refine ⟨[], notify_of_parse htext hvs, ?_, ?_, ?_⟩
    · exact ⟨fun _ => ⟨vs, hvs⟩, fun _ => rfl⟩
    · exact fun hloose => absurd (looseBrackets_of_parse hvs) hloose
    · intro fault _ hfault
      cases hvs.symm.trans hfault
  · refine ⟨_, notify_of_fault htext hfault, ?_, ?_, ?_⟩
    · constructor
      · exact fun hnone => absurd hnone (errorDiagnostics_ne_nil text fault)
      · rintro ⟨vs, hvs⟩
        cases hvs.symm.trans hfault
    · intro hloose
      exact ⟨if_neg hloose, fault, hfault, hkind⟩
    · intro fault' hloose hfault'
      cases hfault.symm.trans hfault'
      exact if_pos hloose

/-- The shapes of brackets do not matter to the editor, but to the reader. -/
theorem notify_diagnoses_mismatch :
    ∃ diagnostics, (notify {} "a" (.opened (some "(]"))).1 = .ok diagnostics ∧
      (diagnostics = [] ↔ ∃ vs, parse "(]" = .ok vs) ∧
      (looseBrackets (scan "(]") ≠ [] → diagnostics = bracketDiagnostics "(]" ∧
        ∃ fault, parse "(]" = .error (.fault fault) ∧ fault.kind = .unreadable) ∧
      (∀ fault, looseBrackets (scan "(]") = [] → parse "(]" = .error (.fault fault) →
        diagnostics = [{ position := ⟨0, 0⟩, message := fault.message }]) :=
  notify_diagnoses rfl (Or.inr ⟨.mismatched "(" ")" "]", by rfl, rfl⟩)

end Workspace

end Diagnostics

end SmallLisp.Editor
