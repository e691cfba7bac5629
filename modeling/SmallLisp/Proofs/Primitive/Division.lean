import Mathlib.Data.Int.ModEq
import Mathlib.Data.Rat.Floor
import SmallLisp.Proofs.Primitive
/-!
What the division of integers computes.

`/` divides by one number after the other and truncates every quotient; `modulo` rounds the quotient
down.  Main statement: truncating once, after a division by the product of all divisors, gives the
same number as truncating at every step, and `modulo` gives the remainder that has the sign of the
divisor, so that the two operations differ by one divisor where the signs differ.
-/

namespace SmallLisp

/-- A rational number without its fraction: rounded toward zero. -/
def truncate (x : ℚ) : ℤ :=
  if 0 ≤ x then ⌊x⌋ else ⌈x⌉

/-- What is left of `a` in steps of `b`: smaller than `b` and, unless it is zero, of its sign. -/
structure IsRemainder (a b r : ℤ) : Prop where
  congruent : r ≡ a [ZMOD b]
  small : |r| < |b|
  sign : r ≠ 0 → r.sign = b.sign

/-- The call of the catalog's function of a name on integers. -/
def Primitive.callOnIntegers (view : View) (name : Text) (numbers : List Int) :
    Option (Except Failure Value) :=
  (catalog.find? (·.name == name)).map (·.applyWith view (numbers.map .integer))

section Truncation

theorem truncate_neg (x : ℚ) : truncate (-x) = -truncate x := by
  rcases lt_trichotomy x 0 with hx | rfl | hx
  · rw [truncate, truncate, if_pos (by linarith), if_neg (by linarith), Int.floor_neg]
  · simp [truncate]
  · rw [truncate, truncate, if_neg (by linarith), if_pos hx.le, Int.ceil_neg]

/-- The truncated quotient of two integers. -/
theorem truncate_div (a d : ℤ) : truncate (a / d) = a.tdiv d := by
  have hnat : ∀ n m : ℕ, truncate ((n : ℤ) / (m : ℤ)) = (n : ℤ).tdiv m := by
    intro n m
    have hle : (0 : ℚ) ≤ (n : ℤ) / (m : ℤ) := by positivity
    rw [truncate, if_pos hle]
    rw [Int.cast_natCast m, Rat.floor_intCast_div_natCast,
      Int.tdiv_eq_ediv_of_nonneg (Int.natCast_nonneg n)]
  obtain ⟨n, rfl | rfl⟩ := a.eq_nat_or_neg <;> obtain ⟨m, rfl | rfl⟩ := d.eq_nat_or_neg
  · exact hnat n m
  · rw [Int.cast_neg, div_neg, truncate_neg, hnat, Int.tdiv_neg]
  · rw [Int.cast_neg, neg_div, truncate_neg, hnat, Int.neg_tdiv]
  · rw [Int.cast_neg, Int.cast_neg, neg_div_neg_eq, hnat, Int.neg_tdiv, Int.tdiv_neg, neg_neg]

/-- Truncating two quotients in turn comes to truncating one. -/
theorem tdiv_tdiv (a b c : ℤ) : (a.tdiv b).tdiv c = a.tdiv (b * c) := by
  have hnat : ∀ n m k : ℕ, ((n : ℤ).tdiv m).tdiv k = (n : ℤ).tdiv (m * k) :=
    fun n m k => congrArg Int.ofNat (Nat.div_div_eq_div_mul n m k)
  -- Every sign can be drawn out of the quotients.
  obtain ⟨n, rfl | rfl⟩ := a.eq_nat_or_neg <;> obtain ⟨m, rfl | rfl⟩ := b.eq_nat_or_neg <;>
    obtain ⟨k, rfl | rfl⟩ := c.eq_nat_or_neg <;>
    simp only [Int.neg_tdiv, Int.tdiv_neg, neg_mul, mul_neg, neg_neg, hnat]

end Truncation

section Remainder

variable {a b r : ℤ}

theorem isRemainder_fmod (a : ℤ) (hb : b ≠ 0) : IsRemainder a b (a.fmod b) := by
  have hcongruent : a.fmod b ≡ a [ZMOD b] :=
    Int.modEq_iff_dvd.mpr ⟨a.fdiv b, by rw [Int.fmod_def]; ring⟩
  rcases lt_or_gt_of_ne hb with hneg | hpos
  · have hnonneg := Int.fmod_nonneg_of_pos (-a) (neg_pos.mpr hneg)
    have hlt := Int.fmod_lt_of_pos (-a) (neg_pos.mpr hneg)
    rw [Int.neg_fmod_neg] at hnonneg hlt
    refine ⟨hcongruent, ?_, fun hr => ?_⟩
    · rw [abs_of_nonpos (by omega), abs_of_neg hneg]
      exact hlt
    · rw [Int.sign_eq_neg_one_of_neg hneg, Int.sign_eq_neg_one_of_neg (by omega)]
  · have hnonneg := Int.fmod_nonneg_of_pos a hpos
    have hlt := Int.fmod_lt_of_pos a hpos
    refine ⟨hcongruent, ?_, fun hr => ?_⟩
    · rw [abs_of_nonneg hnonneg, abs_of_pos hpos]
      exact hlt
    · rw [Int.sign_eq_one_of_pos hpos, Int.sign_eq_one_of_pos (by omega)]

/-- A remainder lies between zero and the divisor. -/
theorem IsRemainder.between (h : IsRemainder a b r) : 0 ≤ r ∧ r < b ∨ b < r ∧ r ≤ 0 := by
  have hsmall := h.small
  rcases lt_trichotomy r 0 with hr | rfl | hr
  · have hb : b < 0 := by
      rw [← Int.sign_eq_neg_one_iff_neg, ← h.sign hr.ne, Int.sign_eq_neg_one_of_neg hr]
    rw [abs_of_neg hr, abs_of_neg hb] at hsmall
    omega
  · rw [abs_zero, abs_pos] at hsmall
    omega
  · have hb : 0 < b := by
      rw [← Int.sign_eq_one_iff_pos, ← h.sign hr.ne', Int.sign_eq_one_of_pos hr]
    rw [abs_of_pos hr, abs_of_pos hb] at hsmall
    omega

/-- There is one remainder only. -/
theorem IsRemainder.unique {r' : ℤ} (h : IsRemainder a b r) (h' : IsRemainder a b r') :
    r = r' := by
  have hdvd : b ∣ r' - r := (h.congruent.trans h'.congruent.symm).dvd
  have hlt : |r' - r| < |b| := by
    rcases h.between with hr | hr <;> rcases h'.between with hr' | hr'
    · have hb : 0 < b := by omega
      rw [abs_of_pos hb, abs_lt]
      omega
    · omega
    · omega
    · have hb : b < 0 := by omega
      rw [abs_of_neg hb, abs_lt]
      omega
  have hzero := Int.eq_zero_of_abs_lt_dvd ((abs_dvd b _).mpr hdvd) hlt
  omega

/-- The two ways to round a quotient differ where the remainder is not zero and the signs differ:
what the truncated quotient leaves is one divisor less there. -/
theorem sub_mul_tdiv (a b : ℤ) (hb : b ≠ 0) :
    a - b * a.tdiv b = if a.fmod b = 0 ∨ 0 < a * b then a.fmod b else a.fmod b - b := by
  rw [← Int.tmod_def, Int.tmod_eq_fmod]
  by_cases hdvd : b ∣ a
  · rw [if_pos hdvd, if_pos (Or.inl (Int.fmod_eq_zero_of_dvd hdvd)), sub_zero]
  have hr : a.fmod b ≠ 0 := fun h => hdvd (Int.dvd_of_fmod_eq_zero h)
  have ha : a ≠ 0 := by
    rintro rfl
    exact hdvd (dvd_zero b)
  simp only [hdvd, hr, false_or, if_false]
  rcases lt_or_gt_of_ne ha with ha | ha <;> rcases lt_or_gt_of_ne hb with hb | hb
  · rw [if_neg (by omega), if_neg (by omega), if_pos (mul_pos_of_neg_of_neg ha hb)]
    omega
  · rw [if_neg (by omega), if_pos (by omega), if_neg (by nlinarith)]
    omega
  · rw [if_pos (by omega), if_neg (by omega), if_neg (by nlinarith)]
  · rw [if_pos (by omega), if_pos (by omega), if_pos (mul_pos ha hb), sub_zero]

end Remainder

namespace Operation

/-- Division by one number after the other is truncated once, after all of them. -/
theorem divideBy_eq (n : Int) {divisors : List Int} (h : ∀ d ∈ divisors, d ≠ 0) :
    divideBy n divisors = .ok (truncate (n / divisors.prod)) := by
  rw [truncate_div]
  induction divisors generalizing n with
  | nil => rw [divideBy, List.prod_nil, Int.tdiv_one]
  | cons d rest ih =>
    obtain ⟨hd, hrest⟩ := List.forall_mem_cons.mp h
    rw [divideBy, if_neg hd, ih (n.tdiv d) hrest, tdiv_tdiv, List.prod_cons]

end Operation

section Calls

open Primitive

variable (view : View)

theorem callOnIntegers_divide (a : Int) {divisors : List Int} (hdivisors : divisors ≠ [])
    (h : ∀ d ∈ divisors, d ≠ 0) :
    callOnIntegers view "/" (a :: divisors) =
      some (.ok (.integer (truncate (a / divisors.prod)))) := by
  have hcall : callOnIntegers view "/" (a :: divisors) =
      some (Primitive.applyWith view (.ofOperation ["n", "d"] (some "more") .divide)
        ((a :: divisors).map .integer)) := rfl
  have haccepts : accepts (.ofOperation ["n", "d"] (some "more") .divide)
      ((a :: divisors).map Value.integer).length = true := by
    have hpos : 1 ≤ divisors.length := List.length_pos_of_ne_nil hdivisors
    simpa [accepts, variadic, arity, ofOperation] using hpos
  have hrun : Operation.divide.run view ((a :: divisors).map .integer) =
      Operation.divideBy a divisors >>= fun n => pure (.integer n) := by
    rw [Operation.run, Operation.integers_map]
    rfl
  rw [hcall, Primitive.applyWith, if_pos haccepts, ofOperation, hrun, Operation.divideBy_eq a h]
  rfl

theorem callOnIntegers_modulo (a : Int) {b : Int} (hb : b ≠ 0) :
    callOnIntegers view "modulo" [a, b] = some (.ok (.integer (a.fmod b))) := by
  have hcall : callOnIntegers view "modulo" [a, b] =
      some (Operation.onTwo (fun a b =>
        if b = 0 then .error (.fault (.divisionByZero "modulo")) else .ok (.integer (a.fmod b)))
        [a, b]) := rfl
  rw [hcall, Operation.onTwo, if_neg hb]

/-- Division is exact over the whole list of arguments: it divides by the product of the divisors,
in whatever order they are, and truncates once.  `modulo` gives the one remainder of the sign of the
divisor, and what a truncated quotient leaves is that remainder or one divisor less. -/
theorem division_exact :
    (∀ (a : Int) (divisors : List Int), divisors ≠ [] → (∀ d ∈ divisors, d ≠ 0) →
      callOnIntegers view "/" (a :: divisors) =
        some (.ok (.integer (truncate (a / divisors.prod)))) ∧
      ∀ others : List Int, others.Perm divisors →
        callOnIntegers view "/" (a :: others) = callOnIntegers view "/" (a :: divisors)) ∧
    ∀ a b : Int, b ≠ 0 → ∃ r q : Int,
      callOnIntegers view "modulo" [a, b] = some (.ok (.integer r)) ∧
      (∀ r', IsRemainder a b r' ↔ r' = r) ∧
      callOnIntegers view "/" [a, b] = some (.ok (.integer q)) ∧
      a - b * q = if r = 0 ∨ 0 < a * b then r else r - b := by
  refine ⟨fun a divisors hdivisors h => ?_, fun a b hb => ?_⟩
  · have hcall := callOnIntegers_divide view a hdivisors h
    refine ⟨hcall, fun others hperm => ?_⟩
    have hothers : others ≠ [] := by
      rintro rfl
      exact hdivisors hperm.nil_eq.symm
    have hnonzero : ∀ d ∈ others, d ≠ 0 := fun d hd => h d (hperm.mem_iff.mp hd)
    rw [hcall, callOnIntegers_divide view a hothers hnonzero, hperm.prod_eq]
  · have hquotient := callOnIntegers_divide view a (List.cons_ne_nil b [])
      (List.forall_mem_singleton.mpr hb)
    rw [List.prod_singleton, truncate_div] at hquotient
    have hremainder := isRemainder_fmod a hb
    refine ⟨a.fmod b, a.tdiv b, callOnIntegers_modulo view a hb, fun r' => ?_, hquotient,
      sub_mul_tdiv a b hb⟩
    constructor
    · exact fun h => h.unique hremainder
    · rintro rfl
      exact hremainder

/-- A quotient of three signs, and a remainder of the other sign. -/
theorem division_exact_mixedSigns :
    callOnIntegers (Store.view 1 {}) "/" [-100, 5, -3] = some (.ok (.integer 6)) ∧
    ∃ r q : Int, callOnIntegers (Store.view 1 {}) "modulo" [-7, 2] = some (.ok (.integer r)) ∧
      callOnIntegers (Store.view 1 {}) "/" [-7, 2] = some (.ok (.integer q)) ∧
      -7 - 2 * q = r - 2 := by
  obtain ⟨hdivide, hmodulo⟩ := division_exact (Store.view 1 {})
  obtain ⟨hquotient, -⟩ := hdivide (-100) [5, -3] (by decide) (by decide)
  obtain ⟨r, q, hr, -, hq, hleft⟩ := hmodulo (-7) 2 (by decide)
  refine ⟨?_, r, q, hr, hq, ?_⟩
  · rw [hquotient, truncate_div]
    rfl
  · rw [hleft, if_neg]
    obtain rfl : r = 1 := by
      have heq := hr.symm.trans (callOnIntegers_modulo (Store.view 1 {}) (-7) (by decide))
      simpa using heq
    decide

end Calls

end SmallLisp
