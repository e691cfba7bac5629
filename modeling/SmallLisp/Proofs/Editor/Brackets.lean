import SmallLisp.Proofs.Editor.Diagnostics
/-!
Brackets in pairs, and the brackets that the editor reports.

The editor pairs a closing bracket with the latest open one.  At any time the brackets so far are
balanced but for the stray closing ones, and after them the opening ones that are unclosed.  Main
statement: without the reported brackets the others are balanced, and no way to balance a text
leaves out fewer.
-/

namespace SmallLisp.Editor

open Text (positionOf)

/-- Whether a piece is a bracket. -/
def Piece.isBracket (p : Piece) : Bool :=
  p.isOpener || p.isCloser

/-- The brackets of a text in order. -/
def bracketsOf (text : Text) : List Piece :=
  (scan text).filter Piece.isBracket

/-- Brackets in pairs, whatever their shapes: a pair has balanced brackets in it and after it. -/
inductive Balanced : List Piece → Prop
  | nil : Balanced []
  | pair {opener closer : Piece} {inner rest : List Piece} (hopener : opener.isOpener = true)
      (hcloser : closer.isCloser = true) (hinner : Balanced inner) (hrest : Balanced rest) :
      Balanced (opener :: (inner ++ closer :: rest))

theorem Piece.not_isCloser_of_isOpener {p : Piece} (h : p.isOpener = true) :
    p.isCloser = false := by
  rw [isOpener, Bool.or_eq_true, beq_iff_eq, beq_iff_eq] at h
  rw [isCloser]
  rcases h with h | h <;> rw [h] <;> decide

theorem Piece.not_isOpener_of_isCloser {p : Piece} (h : p.isCloser = true) :
    p.isOpener = false := by
  rw [isCloser, Bool.or_eq_true, beq_iff_eq, beq_iff_eq] at h
  rw [isOpener]
  rcases h with h | h <;> rw [h] <;> decide

section Counting

@[simp] theorem balanceOf_nil : balanceOf [] = 0 :=
  rfl

theorem balanceOf_opener {p : Piece} (h : p.isOpener = true) (ps : List Piece) :
    balanceOf (p :: ps) = balanceOf ps + 1 := by
  simp only [balanceOf, List.countP_cons, h, Piece.not_isCloser_of_isOpener h]
  push_cast
  omega

theorem balanceOf_closer {p : Piece} (h : p.isCloser = true) (ps : List Piece) :
    balanceOf (p :: ps) = balanceOf ps - 1 := by
  simp only [balanceOf, List.countP_cons, h, Piece.not_isOpener_of_isCloser h]
  push_cast
  omega

theorem balanceOf_filter_isBracket (ps : List Piece) :
    balanceOf (ps.filter Piece.isBracket) = balanceOf ps := by
  have hopener : ∀ p : Piece, (p.isOpener && p.isBracket) = p.isOpener := by
    simp +contextual [Piece.isBracket]
  have hcloser : ∀ p : Piece, (p.isCloser && p.isBracket) = p.isCloser := by
    simp +contextual [Piece.isBracket]
  simp only [balanceOf, List.countP_filter, hopener, hcloser]

/-- Brackets are opening or closing ones. -/
theorem length_eq_of_isBracket {ps : List Piece} (h : ∀ p ∈ ps, p.isBracket = true) :
    ps.length = ps.countP Piece.isOpener + ps.countP Piece.isCloser := by
  rw [List.length_eq_countP_add_countP Piece.isOpener]
  congr 1
  refine List.countP_congr fun p hp => ?_
  have hbracket := h p hp
  rw [Piece.isBracket, Bool.or_eq_true] at hbracket
  constructor
  · intro hopener
    exact hbracket.resolve_left (by simpa using hopener)
  · intro hcloser
    simp [Piece.not_isOpener_of_isCloser hcloser]

end Counting

namespace Balanced

variable {ps qs : List Piece}

theorem append (hps : Balanced ps) (hqs : Balanced qs) : Balanced (ps ++ qs) := by
  induction hps with
  | nil => exact hqs
  | pair hopener hcloser hinner _ _ ih =>
    rw [List.cons_append, List.append_assoc, List.cons_append]
    exact .pair hopener hcloser hinner ih

theorem balanceOf_eq_zero (h : Balanced ps) : balanceOf ps = 0 := by
  induction h with
  | nil => rfl
  | pair hopener hcloser _ _ hinner hrest =>
    rw [balanceOf_opener hopener, balanceOf_append, balanceOf_closer hcloser]
    omega

/-- A first part of balanced brackets closes none that it has not opened. -/
theorem balanceOf_nonneg (h : Balanced ps) (hqs : qs <+: ps) : 0 ≤ balanceOf qs := by
  induction h generalizing qs with
  | nil => simp [List.prefix_nil.mp hqs]
  | @pair opener closer inner rest hopener hcloser hinner _ ihInner ihRest =>
    rcases List.prefix_cons_iff.mp hqs with rfl | ⟨before, rfl, hbefore⟩
    · simp
    · rw [balanceOf_opener hopener]
      obtain ⟨after, heq⟩ := hbefore
      rcases List.append_eq_append_iff.mp heq with ⟨more, rfl, -⟩ | ⟨more, rfl, hmore⟩
      · have hpart := ihInner (List.prefix_append before more)
        omega
      · rw [balanceOf_append, hinner.balanceOf_eq_zero]
        rcases List.prefix_cons_iff.mp ⟨after, hmore.symm⟩ with rfl | ⟨last, rfl, hlast⟩
        · simp
        · have hpart := ihRest hlast
          rw [balanceOf_closer hcloser]
          omega

end Balanced

/-- Brackets as the editor pairs them: the kept ones, which are balanced, the stray closing ones,
and after all of these the opening ones that are unclosed. -/
inductive Pairing : (brackets kept stray unclosed : List Piece) → Prop
  | balanced {kept : List Piece} (hkept : Balanced kept) : Pairing kept kept [] []
  | stray {brackets kept stray more : List Piece} {closer : Piece}
      (hpairing : Pairing brackets kept stray []) (hcloser : closer.isCloser = true)
      (hmore : Balanced more) :
      Pairing (brackets ++ closer :: more) (kept ++ more) (stray ++ [closer]) []
  | unclosed {brackets kept stray unclosed more : List Piece} {opener : Piece}
      (hpairing : Pairing brackets kept stray unclosed) (hopener : opener.isOpener = true)
      (hmore : Balanced more) :
      Pairing (brackets ++ opener :: more) (kept ++ more) stray (unclosed ++ [opener])

namespace Pairing

variable {brackets kept stray unclosed : List Piece}

theorem append (h : Pairing brackets kept stray unclosed) {more : List Piece}
    (hmore : Balanced more) : Pairing (brackets ++ more) (kept ++ more) stray unclosed := by
  cases h with
  | balanced hkept => exact .balanced (hkept.append hmore)
  | stray hpairing hcloser hbefore =>
    rw [List.append_assoc, List.append_assoc]
    exact hpairing.stray hcloser (hbefore.append hmore)
  | unclosed hpairing hopener hbefore =>
    rw [List.append_assoc, List.append_assoc]
    exact hpairing.unclosed hopener (hbefore.append hmore)

/-- The latest unclosed bracket has balanced brackets after it, and no stray one. -/
theorem exists_of_concat {opener : Piece} (h : Pairing brackets kept stray (unclosed ++ [opener])) :
    ∃ outer others more, brackets = outer ++ opener :: more ∧ kept = others ++ more ∧
      Pairing outer others stray unclosed ∧ opener.isOpener = true ∧ Balanced more := by
  generalize hlast : unclosed ++ [opener] = all at h
  cases h with
  | balanced => simp at hlast
  | stray => simp at hlast
  | unclosed hpairing hopener hmore =>
    obtain ⟨rfl, hsame⟩ := List.append_inj' hlast rfl
    obtain rfl := List.singleton_inj.mp hsame
    exact ⟨_, _, _, rfl, rfl, hpairing, hopener, hmore⟩

/-- A closing bracket pairs with the latest unclosed one. -/
theorem close {opener closer : Piece} (h : Pairing brackets kept stray (unclosed ++ [opener]))
    (hcloser : closer.isCloser = true) :
    ∃ kept', Pairing (brackets ++ [closer]) kept' stray unclosed := by
  obtain ⟨outer, others, more, rfl, rfl, hpairing, hopener, hmore⟩ := h.exists_of_concat
  have hpair : Balanced (opener :: (more ++ [closer])) := .pair hopener hcloser hmore .nil
  have hclosed := hpairing.append hpair
  rw [List.append_assoc]
  exact ⟨_, hclosed⟩

theorem balanced_kept (h : Pairing brackets kept stray unclosed) : Balanced kept := by
  induction h with
  | balanced hkept => exact hkept
  | stray _ _ hmore ih | unclosed _ _ hmore ih => exact ih.append hmore

theorem perm (h : Pairing brackets kept stray unclosed) :
    brackets.Perm (kept ++ (stray ++ unclosed)) := by
  induction h with
  | balanced => simp
  | stray _ _ _ ih | unclosed _ _ _ ih =>
    rw [List.perm_iff_count] at ih ⊢
    intro p
    have hcount := ih p
    simp only [List.count_append, List.count_cons, List.count_nil] at hcount ⊢
    omega

/-- The stray brackets come before the unclosed ones. -/
theorem sublist (h : Pairing brackets kept stray unclosed) :
    (stray ++ unclosed).Sublist brackets := by
  induction h with
  | balanced => exact List.nil_sublist _
  | stray _ _ _ ih =>
    rw [List.append_nil] at ih ⊢
    exact ih.append (List.singleton_sublist.mpr List.mem_cons_self)
  | unclosed _ _ _ ih =>
    rw [← List.append_assoc]
    exact ih.append (List.singleton_sublist.mpr List.mem_cons_self)

theorem isCloser_of_mem (h : Pairing brackets kept stray unclosed) :
    ∀ p ∈ stray, p.isCloser = true := by
  induction h with
  | balanced => simp
  | stray _ hcloser _ ih =>
    exact List.forall_mem_append.mpr ⟨ih, List.forall_mem_singleton.mpr hcloser⟩
  | unclosed _ _ _ ih => exact ih

theorem isOpener_of_mem (h : Pairing brackets kept stray unclosed) :
    ∀ p ∈ unclosed, p.isOpener = true := by
  induction h with
  | balanced | stray => simp
  | unclosed _ hopener _ ih =>
    exact List.forall_mem_append.mpr ⟨ih, List.forall_mem_singleton.mpr hopener⟩

/-- What tells the kept brackets from the others leaves the kept ones in order. -/
theorem filter_eq (h : Pairing brackets kept stray unclosed) {keep : Piece → Bool}
    (hkeep : ∀ p ∈ kept, keep p = true) (hloose : ∀ p ∈ stray ++ unclosed, ¬ keep p = true) :
    brackets.filter keep = kept := by
  induction h with
  | balanced => exact List.filter_eq_self.mpr hkeep
  | stray _ _ _ ih =>
    simp only [List.append_nil, List.forall_mem_append, List.forall_mem_singleton] at hkeep hloose
    simp only [List.append_nil] at ih
    rw [List.filter_append, ih hkeep.1 hloose.1, List.filter_cons_of_neg hloose.2,
      List.filter_eq_self.mpr hkeep.2]
  | unclosed _ _ _ ih =>
    simp only [List.forall_mem_append, List.forall_mem_singleton] at hkeep hloose ih
    rw [List.filter_append, ih hkeep.1 ⟨hloose.1, hloose.2.1⟩,
      List.filter_cons_of_neg hloose.2.2, List.filter_eq_self.mpr hkeep.2]

/-- The brackets up to the last stray one, and the others. -/
theorem exists_parts (h : Pairing brackets kept stray unclosed) : ∃ before after,
    brackets = before ++ after ∧ balanceOf before = -(stray.length : Int) ∧
      balanceOf after = unclosed.length := by
  induction h with
  | @balanced kept hkept => exact ⟨kept, [], by simp, by simp [hkept.balanceOf_eq_zero], rfl⟩
  | @stray brackets kept stray more closer _ hcloser hmore ih =>
    obtain ⟨before, after, rfl, hbefore, hafter⟩ := ih
    refine ⟨before ++ after ++ closer :: more, [], by simp, ?_, rfl⟩
    rw [balanceOf_append, balanceOf_append, balanceOf_closer hcloser, hmore.balanceOf_eq_zero,
      hbefore, hafter, List.length_append, List.length_nil, List.length_singleton]
    omega
  | @unclosed brackets kept stray unclosed more opener _ hopener hmore ih =>
    obtain ⟨before, after, rfl, hbefore, hafter⟩ := ih
    refine ⟨before, after ++ opener :: more, by simp, hbefore, ?_⟩
    rw [balanceOf_append, balanceOf_opener hopener, hmore.balanceOf_eq_zero, hafter,
      List.length_append, List.length_singleton]
    omega

theorem balanceOf_eq (h : Pairing brackets kept stray unclosed) :
    balanceOf brackets = unclosed.length - stray.length := by
  obtain ⟨before, after, rfl, hbefore, hafter⟩ := h.exists_parts
  rw [balanceOf_append, hbefore, hafter]
  omega

/-- Balanced brackets among others leave out as many as the editor reports, or more. -/
theorem length_le (h : Pairing brackets kept stray unclosed)
    (hbrackets : ∀ p ∈ brackets, p.isBracket = true) {others : List Piece}
    (hothers : others.Sublist brackets) (hbalanced : Balanced others) :
    others.length + (stray ++ unclosed).length ≤ brackets.length := by
  obtain ⟨before, after, rfl, hbefore, hafter⟩ := h.exists_parts
  obtain ⟨first, second, rfl, hfirst, hsecond⟩ := List.sublist_append_iff.mp hothers
  -- In the first part the opening brackets limit the pairs, in the second one the closing ones.
  have hnonneg := hbalanced.balanceOf_nonneg (List.prefix_append first second)
  have hzero := hbalanced.balanceOf_eq_zero
  have hopeners : first.countP Piece.isOpener ≤ before.countP Piece.isOpener := hfirst.countP_le
  have hclosers : second.countP Piece.isCloser ≤ after.countP Piece.isCloser := hsecond.countP_le
  have hlength := length_eq_of_isBracket hbrackets
  have hlength' := length_eq_of_isBracket fun p hp => hbrackets p (hothers.subset hp)
  rw [balanceOf_append] at hzero
  simp only [List.length_append, List.countP_append] at hlength hlength' ⊢
  simp only [balanceOf] at hbefore hafter hnonneg hzero
  omega

end Pairing

/-- What the editor has after pieces of a text: where the brackets without a partner start. -/
def Loose.Pairs (loose : Loose) (pieces : List Piece) : Prop :=
  ∃ kept stray unclosed, Pairing (pieces.filter Piece.isBracket) kept stray unclosed ∧
    loose.closers.toList = stray.map Piece.start ∧
    loose.openers = (unclosed.map Piece.start).reverse

theorem Loose.Pairs.step {loose : Loose} {pieces : List Piece} (h : loose.Pairs pieces)
    (p : Piece) : (loose.step p).Pairs (pieces ++ [p]) := by
  obtain ⟨kept, stray, unclosed, hpairing, hclosers, hopeners⟩ := h
  rw [Pairs, List.filter_append, List.filter_singleton, Piece.isBracket]
  by_cases hopener : p.isOpener = true
  · rw [step_of_isOpener hopener, hopener]
    refine ⟨_, stray, unclosed ++ [p], hpairing.unclosed hopener .nil, hclosers, ?_⟩
    simp [hopeners]
  rw [Bool.not_eq_true] at hopener
  by_cases hcloser : p.isCloser = true
  · rw [hopener, hcloser]
    rcases List.eq_nil_or_concat unclosed with rfl | ⟨outer, last, rfl⟩
    · rw [step_of_stray hopener hcloser hopeners]
      refine ⟨_, stray ++ [p], [], hpairing.stray hcloser .nil, ?_, hopeners⟩
      simp [hclosers]
    · have hstack : loose.openers = last.start :: (outer.map Piece.start).reverse := by
        simp [hopeners]
      rw [List.concat_eq_append] at hpairing
      obtain ⟨kept', hclosed⟩ := hpairing.close hcloser
      rw [step_of_isCloser hopener hcloser hstack]
      exact ⟨kept', stray, outer, hclosed, hclosers, rfl⟩
  · rw [Bool.not_eq_true] at hcloser
    rw [step_of_no_bracket hopener hcloser, hopener, hcloser]
    refine ⟨kept, stray, unclosed, ?_, hclosers, hopeners⟩
    simpa using hpairing

theorem Loose.pairs_run (pieces : List Piece) : Pairs (pieces.foldl step {}) pieces := by
  induction pieces using List.reverseRecOn with
  | nil => exact ⟨[], [], [], .balanced .nil, rfl, rfl⟩
  | append_singleton before p ih =>
    rw [List.foldl_append]
    exact ih.step p

theorem exists_pairing (pieces : List Piece) : ∃ kept stray unclosed,
    Pairing (pieces.filter Piece.isBracket) kept stray unclosed ∧
      looseBrackets pieces = (stray ++ unclosed).map Piece.start := by
  obtain ⟨kept, stray, unclosed, hpairing, hclosers, hopeners⟩ := Loose.pairs_run pieces
  refine ⟨kept, stray, unclosed, hpairing, ?_⟩
  rw [looseBrackets, hclosers, hopeners, List.reverse_reverse, List.map_append]

/-- Without the brackets that an index reports the others of the text are balanced, whatever their
shapes, and no brackets of the text that are balanced leave out fewer.  None is reported twice; the
stray closing ones come first and then the opening ones that are unclosed, all in the order of the
text; and the balance counts both. -/
theorem unmatched_minimal {text : Text} {index : Index} (hindex : Index.ofText text = .ok index) :
    Balanced ((bracketsOf text).filter fun p => positionOf text p.start ∉ index.unmatched) ∧
    (∀ others : List Piece, others.Sublist (bracketsOf text) → Balanced others →
      others.length + index.unmatched.length ≤ (bracketsOf text).length) ∧
    index.unmatched.Nodup ∧
    ∃ stray unclosed : List Piece,
      (∀ p ∈ stray, p.isCloser = true) ∧ (∀ p ∈ unclosed, p.isOpener = true) ∧
      (stray ++ unclosed).Sublist (bracketsOf text) ∧
      index.unmatched = (stray ++ unclosed).map (fun p => positionOf text p.start) ∧
      index.balance = unclosed.length - stray.length := by
  obtain ⟨kept, stray, unclosed, hpairing, hloose⟩ := exists_pairing (scan text)
  have hunmatched : index.unmatched =
      (stray ++ unclosed).map fun p => positionOf text p.start := by
    rw [unmatched_of_ofText hindex, hloose, List.map_map]
    rfl
  have hbalance : index.balance = unclosed.length - stray.length := by
    rw [balance_of_ofText hindex, ← balanceOf_filter_isBracket, hpairing.balanceOf_eq]
  -- No two brackets have the same position, so those reported are told from the kept ones.
  have hdistinct : ((kept ++ (stray ++ unclosed)).map fun p => positionOf text p.start).Nodup :=
    (hpairing.perm.map _).nodup_iff.mp
      ((nodup_positions text).sublist (List.filter_sublist.map _))
  rw [List.map_append, ← hunmatched, List.nodup_append] at hdistinct
  obtain ⟨-, hnodup, hapart⟩ := hdistinct
  have hkept : (bracketsOf text).filter (fun p => positionOf text p.start ∉ index.unmatched) =
      kept := by
    refine hpairing.filter_eq (fun p hp => ?_) (fun p hp => ?_)
    · rw [decide_eq_true_eq]
      exact fun hmem => hapart _ (List.mem_map_of_mem hp) _ hmem rfl
    · rw [decide_eq_true_eq, not_not, hunmatched]
      exact List.mem_map_of_mem hp
  refine ⟨hkept ▸ hpairing.balanced_kept, fun others hothers hbalanced => ?_, hnodup, stray,
    unclosed, hpairing.isCloser_of_mem, hpairing.isOpener_of_mem, hpairing.sublist, hunmatched,
    hbalance⟩
  rw [hunmatched, List.length_map]
  exact hpairing.length_le (fun p hp => (List.mem_filter.mp hp).2) hothers hbalanced

/-- A stray bracket, an unclosed one, and a pair. -/
theorem unmatched_minimal_looseEnds : ∃ index : Index,
    Index.ofText "a) ([b]" = .ok index ∧
    index.unmatched = [⟨0, 1⟩, ⟨0, 3⟩] ∧
    Balanced ((bracketsOf "a) ([b]").filter fun p =>
      positionOf "a) ([b]" p.start ∉ index.unmatched) ∧
    (∀ others : List Piece, others.Sublist (bracketsOf "a) ([b]") → Balanced others →
      others.length + 2 ≤ 4) := by
  have hunmatched : (Index.ofText "a) ([b]").toOption.map Index.unmatched =
      some [⟨0, 1⟩, ⟨0, 3⟩] := by decide +kernel
  have hlength : (bracketsOf "a) ([b]").length = 4 := by decide +kernel
  cases hindex : Index.ofText "a) ([b]" with
  | error e =>
    rw [hindex] at hunmatched
    cases hunmatched
  | ok index =>
    rw [hindex] at hunmatched
    obtain ⟨hbalanced, hleast, -⟩ := unmatched_minimal hindex
    rw [hlength, Option.some.inj hunmatched] at hleast
    exact ⟨index, rfl, Option.some.inj hunmatched, hbalanced, hleast⟩

end SmallLisp.Editor
