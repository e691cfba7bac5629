import Mathlib.Tactic.SplitIfs
import SmallLisp.Token.Scan
/-!
Which tokens a text spells.

A text that spells some tokens adds them to any scan that stands between tokens.  Spellings compose
where the first of them ends between tokens, or where the second begins with a character that ends
an atom.  Conversely, every atom that a scan finds is one.
-/

namespace SmallLisp

theorem isAtomChar_iff {c : CodePoint} :
    isAtomChar c = true ↔ Text.isBlank c = false ∧ c ∉ atomEnds := by
  simp [isAtomChar]

theorem mem_atomEnds_iff {c : CodePoint} :
    c ∈ atomEnds ↔ c = .scalar '(' ∨ c = .scalar ')' ∨ c = .scalar '[' ∨ c = .scalar ']' ∨
      c = .scalar '\'' ∨ c = .scalar ';' ∨ c = .scalar '"' := by
  have hends : atomEnds = [.scalar '(', .scalar ')', .scalar '[', .scalar ']', .scalar '\'',
    .scalar ';', .scalar '"'] := rfl
  simp only [hends, List.mem_cons, List.not_mem_nil, or_false]

/-- A character that neither is blank nor ends an atom is part of one. -/
theorem isAtomChar_of_ne {c : CodePoint} (hblank : ¬ Text.isBlank c = true)
    (hcomment : c ≠ .scalar ';') (hquote : c ≠ .scalar '\'')
    (hopen : c ≠ .scalar '(' ∧ c ≠ .scalar '[') (hclose : c ≠ .scalar ')' ∧ c ≠ .scalar ']')
    (hstring : c ≠ .scalar '"') : isAtomChar c = true := by
  refine isAtomChar_iff.mpr ⟨Bool.eq_false_iff.mpr hblank, ?_⟩
  rw [mem_atomEnds_iff]
  simp only [hcomment, hquote, hopen, hclose, hstring, or_false, not_false_eq_true]

/-- The text of an atom: not empty, and made of characters that do not end it. -/
def Text.IsAtom (text : Text) : Prop :=
  text ≠ [] ∧ ∀ c ∈ text, isAtomChar c = true

instance (text : Text) : Decidable text.IsAtom :=
  inferInstanceAs (Decidable (_ ∧ _))

namespace Scan

/-- A scan that has not failed and is not in the middle of anything. -/
structure Between (s : Scan) : Prop where
  mode : s.mode = .between
  failure : s.failure = none

/-- A scan that has not failed and is in the middle of an atom after the given tokens. -/
structure InAtom (s : Scan) (read : Text) (tokens : Array Token) : Prop where
  mode : s.mode = .atom read
  failure : s.failure = none
  tokens : s.tokens = tokens

theorem run_cons (s : Scan) (c : CodePoint) (text : Text) :
    s.run (c :: text) = (s.step c).run text :=
  rfl

theorem flush_of_between {s : Scan} (h : s.mode = .between) : s.flush = s := by
  rw [flush, h]

theorem flush_of_atom {s : Scan} {read : Text} (h : s.mode = .atom read) :
    s.flush = { s.push .symbol read.reverse with mode := .between } := by
  rw [flush, h]

theorem flush_failure (s : Scan) : s.flush.failure = s.failure := by
  cases hmode : s.mode with
  | atom read => rw [flush_of_atom hmode, push]
  | between | comment => simp only [flush, hmode]

theorem step_of_between {s : Scan} (h : s.Between) (c : CodePoint) :
    s.step c = { s.start c with offset := s.offset + 1 } := by
  rw [step, h.failure, h.mode]
  rfl

/-- A character that ends an atom is scanned as if the atom had ended before it. -/
theorem step_flush {s : Scan} (hfailure : s.failure = none) {c : CodePoint}
    (hc : isAtomChar c = false) : s.flush.step c = s.step c := by
  cases hmode : s.mode with
  | atom read =>
    have hbetween : s.flush.Between := by
      rw [flush_of_atom hmode]
      exact ⟨rfl, hfailure⟩
    rw [step_of_between hbetween, step, hfailure, hmode]
    simp only [flush_of_atom hmode, push, hc, Option.isSome_none, Bool.false_eq_true, if_false]
  | between | comment => simp only [flush, hmode]

/-- A character that is part of an atom begins one. -/
theorem start_of_isAtomChar (s : Scan) {c : CodePoint} (hc : isAtomChar c = true) :
    s.start c = { s with mode := .atom [c] } := by
  obtain ⟨hblank, hends⟩ := isAtomChar_iff.mp hc
  simp only [mem_atomEnds_iff, not_or] at hends
  obtain ⟨hopen, hclose, hopen', hclose', hquote, hcomment, hstring⟩ := hends
  simp [start, hblank, hopen, hclose, hopen', hclose', hquote, hcomment, hstring]

theorem inAtom_step_of_between {s : Scan} {c : CodePoint} (h : s.Between)
    (hc : isAtomChar c = true) : (s.step c).InAtom [c] s.tokens := by
  rw [step_of_between h, start_of_isAtomChar s hc]
  exact ⟨rfl, h.failure, rfl⟩

theorem InAtom.step {s : Scan} {read : Text} {tokens : Array Token} {c : CodePoint}
    (h : s.InAtom read tokens) (hc : isAtomChar c = true) :
    (s.step c).InAtom (c :: read) tokens := by
  rw [Scan.step, h.failure, h.mode]
  simp only [hc, if_true]
  exact ⟨rfl, rfl, h.tokens⟩

theorem InAtom.run {s : Scan} {read text : Text} {tokens : Array Token}
    (h : s.InAtom read tokens) (htext : ∀ c ∈ text, isAtomChar c = true) :
    (s.run text).InAtom (text.reverse ++ read) tokens := by
  induction text generalizing s read with
  | nil => exact h
  | cons c rest ih =>
    obtain ⟨hc, hrest⟩ := List.forall_mem_cons.mp htext
    have hrun := ih (h.step hc) hrest
    rw [run_cons, List.reverse_cons, List.append_assoc]
    exact hrun

end Scan

/-- A text that adds certain tokens to any scan that stands between tokens. -/
def Spells (text : Text) (tokens : List Token) : Prop :=
  ∀ s : Scan, s.Between →
    (s.run text).flush.Between ∧ (s.run text).flush.tokens.toList = s.tokens.toList ++ tokens

namespace Spells

variable {text rest : Text} {ts tokens : List Token}

theorem nil : Spells [] [] := by
  intro s hs
  have hrun : (s.run []).flush = s := Scan.flush_of_between hs.mode
  rw [hrun]
  exact ⟨hs, (List.append_nil _).symm⟩

theorem atom (h : text.IsAtom) : Spells text [⟨.symbol, text⟩] := by
  intro s hs
  obtain ⟨c, rest, rfl⟩ := List.exists_cons_of_ne_nil h.1
  obtain ⟨hc, hrest⟩ := List.forall_mem_cons.mp h.2
  have hrun := (Scan.inAtom_step_of_between hs hc).run hrest
  rw [Scan.run_cons, Scan.flush_of_atom hrun.mode]
  refine ⟨⟨rfl, hrun.failure⟩, ?_⟩
  simp [Scan.push, hrun.tokens]

/-- A character after which the scan stands between tokens again. -/
theorem cons (h : Spells text tokens) {c : CodePoint} (ts : List Token)
    (hc : ∀ s : Scan, s.Between →
      (s.start c).Between ∧ (s.start c).tokens.toList = s.tokens.toList ++ ts) :
    Spells (c :: text) (ts ++ tokens) := by
  intro s hs
  obtain ⟨hstart, htokens⟩ := hc s hs
  have hstep := Scan.step_of_between hs c
  have hnext : (s.step c).Between := by
    rw [hstep]
    exact ⟨hstart.mode, hstart.failure⟩
  obtain ⟨hbetween, hrun⟩ := h (s.step c) hnext
  refine ⟨hbetween, hrun.trans ?_⟩
  rw [hstep, ← List.append_assoc, ← htokens]

theorem space (h : Spells text tokens) : Spells (.scalar ' ' :: text) tokens :=
  h.cons [] fun _ hs => ⟨hs, (List.append_nil _).symm⟩

theorem quote (h : Spells text tokens) :
    Spells (.scalar '\'' :: text) (⟨.quote, "'"⟩ :: tokens) :=
  h.cons [_] fun _ hs => ⟨⟨hs.mode, hs.failure⟩, Array.toList_push⟩

theorem opener (h : Spells text tokens) :
    Spells (.scalar '(' :: text) (⟨.opener, "("⟩ :: tokens) :=
  h.cons [_] fun _ hs => ⟨⟨hs.mode, hs.failure⟩, Array.toList_push⟩

theorem closer (h : Spells text tokens) :
    Spells (.scalar ')' :: text) (⟨.closer, ")"⟩ :: tokens) :=
  h.cons [_] fun _ hs => ⟨⟨hs.mode, hs.failure⟩, Array.toList_push⟩

/-- An atom ends before a character that is not part of one. -/
theorem append {c : CodePoint} (hc : isAtomChar c = false) (h : Spells text ts)
    (hrest : Spells (c :: rest) tokens) : Spells (text ++ c :: rest) (ts ++ tokens) := by
  intro s hs
  obtain ⟨hflush, htokens⟩ := h s hs
  -- The scan of `text` may still be in its last atom, which `c` ends.
  have hrun : s.run (text ++ c :: rest) = (s.run text).flush.run (c :: rest) := by
    have hfailure := (Scan.flush_failure _).symm.trans hflush.failure
    rw [Scan.run_append, Scan.run_cons, Scan.run_cons, Scan.step_flush hfailure hc]
  obtain ⟨hbetween, hall⟩ := hrest _ hflush
  rw [hrun]
  refine ⟨hbetween, hall.trans ?_⟩
  rw [htokens, List.append_assoc]

/-- The tokens of a whole text. -/
theorem lex_eq (h : Spells text tokens) : lex text = { tokens, failure := none } := by
  obtain ⟨hbetween, htokens⟩ := h {} ⟨rfl, rfl⟩
  simp only [lex, hbetween.failure, htokens, List.nil_append]

end Spells

namespace Scan

/-- A scan whose atoms are atoms, the one that it is in included. -/
structure Sound (s : Scan) : Prop where
  tokens : ∀ t ∈ s.tokens, t.kind = .symbol → t.text.IsAtom
  mode : ∀ read, s.mode = .atom read → Text.IsAtom read.reverse

theorem Sound.push {s : Scan} (h : s.Sound) {kind : TokenKind} {text : Text}
    (htext : kind = .symbol → text.IsAtom) : (s.push kind text).Sound where
  tokens t ht hkind := by
    rcases Array.mem_push.mp ht with hold | rfl
    · exact h.tokens t hold hkind
    · exact htext hkind
  mode := h.mode

theorem Sound.flush {s : Scan} (h : s.Sound) : s.flush.Sound := by
  cases hmode : s.mode with
  | atom read =>
    rw [flush_of_atom hmode]
    have hpush : (s.push .symbol read.reverse).Sound := h.push fun _ => h.mode read hmode
    exact ⟨hpush.tokens, fun _ hatom => by cases hatom⟩
  | between | comment => simpa only [Scan.flush, hmode] using h

theorem Sound.start {s : Scan} (h : s.Sound) (c : CodePoint) : (s.start c).Sound := by
  rw [Scan.start]
  split_ifs with hblank hcomment hquote hopen hclose hstring
  · exact h
  · exact ⟨h.tokens, fun _ hatom => by cases hatom⟩
  · exact h.push fun hkind => by cases hkind
  · exact h.push fun hkind => by cases hkind
  · exact h.push fun hkind => by cases hkind
  · exact ⟨h.tokens, h.mode⟩
  · simp only [Bool.or_eq_true, decide_eq_true_eq, not_or] at hopen hclose
    have hc := isAtomChar_of_ne hblank hcomment hquote hopen hclose hstring
    refine ⟨h.tokens, ?_⟩
    rintro _ ⟨⟩
    exact ⟨by simp, by simp [hc]⟩

theorem Sound.step {s : Scan} (h : s.Sound) (c : CodePoint) : (s.step c).Sound := by
  rw [Scan.step]
  split
  · exact h
  · cases hmode : s.mode with
    | between => exact ⟨(h.start c).tokens, (h.start c).mode⟩
    | atom read =>
      by_cases hc : isAtomChar c = true
      · simp only [hc, if_true]
        refine ⟨h.tokens, ?_⟩
        rintro _ ⟨⟩
        obtain ⟨-, hread⟩ := h.mode read hmode
        refine ⟨by simp, ?_⟩
        simpa [hc, or_imp, forall_and] using hread
      · simp only [hc]
        exact ⟨(h.flush.start c).tokens, (h.flush.start c).mode⟩
    | comment =>
      by_cases hc : c = .scalar '\n'
      · simp only [hc, if_true]
        exact ⟨h.tokens, fun _ hatom => by cases hatom⟩
      · simp only [hc, if_false]
        exact ⟨h.tokens, h.mode⟩

theorem Sound.run {s : Scan} (h : s.Sound) (text : Text) : (s.run text).Sound := by
  induction text generalizing s with
  | nil => exact h
  | cons c rest ih => exact ih (h.step c)

end Scan

/-- Every atom that is found in a source text is one. -/
theorem isAtom_of_mem_lex {source : Text} {t : Token} (ht : t ∈ (lex source).tokens)
    (hkind : t.kind = .symbol) : t.text.IsAtom := by
  have hempty : Scan.Sound {} := ⟨by simp, by simp⟩
  exact (hempty.run source).flush.tokens t (Array.mem_toList_iff.mp ht) hkind

end SmallLisp
