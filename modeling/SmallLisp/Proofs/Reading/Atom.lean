import Mathlib.Algebra.Group.Nat.Defs
import Mathlib.Data.List.Induction
import Mathlib.Tactic.SplitIfs
import SmallLisp.Display
import SmallLisp.Proofs.Reading.Spelling
/-!
The atoms that a value can be written as: names, integer texts and the two literals.

Each of them is read back as what it writes, and whatever an atom is read as can be written.
-/

namespace SmallLisp

namespace Text

/-- A text that is the name of the symbol that it is read as. -/
structure IsName (name : Text) : Prop where
  nonempty : name ≠ []
  plain : ∀ c ∈ name, isBlank c = false ∧ c ∉ atomEnds
  head : name.head? ≠ some (.scalar '#')
  notInteger : name.isInteger = false

theorem IsName.isAtom {name : Text} (h : name.IsName) : name.IsAtom :=
  ⟨h.nonempty, fun c hc => isAtomChar_iff.mpr (h.plain c hc)⟩

section Digits

/-- The digits of a number. -/
def digitsOf (n : Nat) : Text :=
  (Nat.toDigits 10 n).map .scalar

theorem isDigit_range {c : Char} (h : c.isDigit = true) : 48 ≤ c.toNat ∧ c.toNat < 48 + 10 := by
  simp only [Char.isDigit, Bool.and_eq_true, decide_eq_true_eq, UInt32.le_iff_toNat_le] at h
  exact ⟨h.1, Nat.lt_succ_of_le h.2⟩

theorem isAtomChar_of_isDigit {c : Char} (h : c.isDigit = true) :
    isAtomChar (.scalar c) = true := by
  have hrange := isDigit_range h
  rw [isAtomChar_iff]
  constructor
  · simp only [isBlank, CodePoint.toNat]
    grind
  · rw [mem_atomEnds_iff]
    simp only [CodePoint.scalar.injEq]
    rintro (rfl | rfl | rfl | rfl | rfl | rfl | rfl) <;> exact absurd h (by decide)

/-- An ASCII digit is worth its distance from zero. -/
theorem digitValue?_scalar {c : Char} (h : c.isDigit = true) :
    digitValue? (.scalar c) = some (c.toNat - 48) := by
  have hrange := isDigit_range h
  simp [digitValue?, digitZeros, CodePoint.toNat, hrange]

theorem digitValue?_lt (c : CodePoint) : (digitValue? c).getD 0 < 10 := by
  rw [digitValue?]
  cases hstart : digitZeros.find? fun start => start ≤ c.toNat && c.toNat < start + 10 with
  | none => simp
  | some start =>
    have hrange := List.find?_some hstart
    simp only [Bool.and_eq_true, decide_eq_true_eq] at hrange
    simp only [Option.map_some, Option.getD_some]
    omega

/-- Digits write a number that has no more digits than they are. -/
theorem valueOfDigits_lt (digits : Text) : valueOfDigits digits < 10 ^ digits.length := by
  induction digits using List.reverseRecOn with
  | nil => simp [valueOfDigits]
  | append_singleton digits c ih =>
    have hc := digitValue?_lt c
    have happend : valueOfDigits (digits ++ [c]) =
        10 * valueOfDigits digits + (digitValue? c).getD 0 := by
      simp [valueOfDigits]
    rw [happend, List.length_append, List.length_singleton, Nat.pow_succ]
    omega

theorem valueOfDigits_digitsOf (n : Nat) : valueOfDigits (digitsOf n) = n := by
  have hvalue : ∀ (digits : List Char) (init : Nat), (∀ c ∈ digits, c.isDigit = true) →
      (digits.map .scalar).foldl (fun value c => 10 * value + (digitValue? c).getD 0) init =
        Nat.ofDigitChars 10 digits init := by
    intro digits
    induction digits with
    | nil => exact fun _ _ => rfl
    | cons c rest ih =>
      intro init hdigits
      obtain ⟨hc, hrest⟩ := List.forall_mem_cons.mp hdigits
      simp only [List.map_cons, List.foldl_cons, digitValue?_scalar hc, Option.getD_some]
      exact ih _ hrest
  rw [valueOfDigits, digitsOf, hvalue]
  · exact Nat.ofDigitChars_ten_toDigits
  · exact fun c hc => Nat.isDigit_of_mem_toDigits (by decide) (by decide) hc

theorem isDigit_of_mem_digitsOf {n : Nat} {p : CodePoint} (hp : p ∈ digitsOf n) :
    ∃ c : Char, p = .scalar c ∧ c.isDigit = true := by
  obtain ⟨c, hc, rfl⟩ := List.mem_map.mp hp
  exact ⟨c, rfl, Nat.isDigit_of_mem_toDigits (by decide) (by decide) hc⟩

theorem digitsOf_ne_nil (n : Nat) : digitsOf n ≠ [] := by
  simp [digitsOf]

theorem length_digitsOf_le_iff {n : Nat} :
    (digitsOf n).length ≤ maxDigits ↔ n < 10 ^ maxDigits := by
  rw [digitsOf, List.length_map]
  exact Nat.length_toDigits_le_iff (by decide) (by decide)

theorem splitSign_digitsOf (n : Nat) : splitSign (digitsOf n) = (false, digitsOf n) := by
  cases hdigits : digitsOf n with
  | nil => rfl
  | cons p rest =>
    obtain ⟨c, rfl, hc⟩ := isDigit_of_mem_digitsOf (hdigits ▸ List.mem_cons_self)
    rw [splitSign.eq_def]
    split
    · rename_i heq
      cases heq
      exact absurd hc (by decide)
    · rename_i heq
      cases heq
      exact absurd hc (by decide)
    · rfl

/-- The text of an integer is its digits, after a minus sign if it is negative. -/
theorem ofString_toString (n : Int) :
    ofString (toString n) =
      if n < 0 then .scalar '-' :: digitsOf n.natAbs else digitsOf n.natAbs := by
  cases n with
  | ofNat m =>
    have hpos : ¬ Int.ofNat m < 0 := Int.not_lt.mpr (Int.natCast_nonneg m)
    rw [if_neg hpos]
    exact congrArg (List.map CodePoint.scalar) Nat.toList_repr
  | negSucc m =>
    rw [if_pos (Int.negSucc_lt_zero m)]
    have htext : (toString (Int.negSucc m)).toList = '-' :: Nat.toDigits 10 (m + 1) := by
      rw [← Nat.toList_repr]
      exact String.toList_append
    rw [ofString, htext]
    rfl

theorem isAtom_toString (n : Int) : IsAtom (ofString (toString n)) := by
  have hdigits : IsAtom (digitsOf n.natAbs) := by
    refine ⟨digitsOf_ne_nil _, fun p hp => ?_⟩
    obtain ⟨c, rfl, hc⟩ := isDigit_of_mem_digitsOf hp
    exact isAtomChar_of_isDigit hc
  rw [ofString_toString]
  split_ifs
  · exact ⟨by simp, List.forall_mem_cons.mpr ⟨by decide, hdigits.2⟩⟩
  · exact hdigits

theorem splitSign_toString (n : Int) : ∃ negative,
    splitSign (ofString (toString n)) = (negative, digitsOf n.natAbs) ∧
      signed negative n.natAbs = n := by
  rw [ofString_toString]
  split_ifs with hn
  · refine ⟨true, rfl, ?_⟩
    simp only [signed, if_true]
    omega
  · refine ⟨false, splitSign_digitsOf _, ?_⟩
    simp only [signed, Bool.false_eq_true, if_false]
    omega

theorem isInteger_toString (n : Int) : isInteger (ofString (toString n)) = true := by
  obtain ⟨negative, hsplit, -⟩ := splitSign_toString n
  have hall : ∀ p ∈ digitsOf n.natAbs, isDigit p = true := by
    intro p hp
    obtain ⟨c, rfl, hc⟩ := isDigit_of_mem_digitsOf hp
    rw [isDigit, digitValue?_scalar hc]
    rfl
  simp only [isInteger, hsplit, List.all_eq_true.mpr hall, Bool.and_true]
  simpa using digitsOf_ne_nil n.natAbs

/-- An integer that is not too long is read back from its text. -/
theorem integerOf?_toString {n : Int} (hn : n.natAbs < 10 ^ maxDigits) :
    integerOf? (ofString (toString n)) = some n := by
  obtain ⟨negative, hsplit, hsigned⟩ := splitSign_toString n
  simp only [integerOf?, hsplit, length_digitsOf_le_iff.mpr hn, if_true, valueOfDigits_digitsOf,
    hsigned]

/-- An integer that is read from a text is not too long. -/
theorem natAbs_lt_of_integerOf? {text : Text} {n : Int} (h : integerOf? text = some n) :
    n.natAbs < 10 ^ maxDigits := by
  cases hsplit : splitSign text with
  | mk negative digits =>
    simp only [integerOf?, hsplit] at h
    split_ifs at h with hlength
    obtain rfl := Option.some.inj h
    have hvalue := valueOfDigits_lt digits
    have hpow : 10 ^ digits.length ≤ 10 ^ maxDigits :=
      Nat.pow_le_pow_right (by decide) hlength
    have habs : (signed negative (valueOfDigits digits)).natAbs = valueOfDigits digits := by
      cases negative <;> simp [signed]
    rw [habs]
    exact Nat.lt_of_lt_of_le hvalue hpow

end Digits

end Text

theorem readAtom_name {name : Text} (h : name.IsName) : readAtom name = .ok (.symbol name) := by
  have hempty : name.isEmpty = false := by simpa using h.nonempty
  simp only [readAtom, h.notInteger, h.head, Value.symbolOf, hempty, Bool.false_eq_true, if_false]

theorem readAtom_integer {n : Int} (hn : n.natAbs < 10 ^ Text.maxDigits) :
    readAtom (Text.ofString (toString n)) = .ok (.integer n) := by
  rw [readAtom, Text.isInteger_toString, Text.integerOf?_toString hn]
  rfl

theorem readAtom_boolean (b : Bool) : readAtom (booleanText b) = .ok (.boolean b) := by
  cases b <;> rfl

theorem isAtom_boolean (b : Bool) : (booleanText b).IsAtom := by
  cases b <;> exact ⟨by decide, by decide⟩

end SmallLisp
