import SmallLisp.Proofs.Prelude.Scope
/-!
The list functions of the bundled prelude.

Each of them is followed through its body once for an element of the list and once for the empty
list, and from this by induction on the list.  What a function makes of a value is told up to the
identities of lists, which are new in every call.
-/

namespace SmallLisp

open Prelude

/-- A boolean is what it is whatever the identities of lists. -/
theorem Value.bare_eq_boolean_iff {v : Value} {b : Bool} :
    v.bare = .boolean b ↔ v = .boolean b := by
  cases v <;> simp [bare]

/-- In every later store, the function `f` returns for an element `x` of a list what `g` makes of
it.  If the element is a list without an identity, it is given a new one when it is taken from the
list. -/
def Store.Computes (s : Store) (f : Value) (g : Value → Value) (x : Value) : Prop :=
  ∀ s' identity, s.Later s' → s.nextIdentity ≤ identity → identity < s'.nextIdentity →
    ∃ v s'', Applies f [x.identified identity] s' (.ok v) s'' ∧ v.bare = g x.bare

/-- In every later store, the function `f` returns for an element of a list and an accumulator what
`g` makes of them, as long as the accumulators have a property `P`, which the results then have
too. -/
structure Store.Accumulates (s : Store) (f : Value) (g : Value → Value → Value)
    (items : List Value) (P : Store → Value → Prop) : Prop where
  later : ∀ {s₁ s₂ : Store} {a : Value}, s.Later s₁ → s₁.Later s₂ → P s₁ a → P s₂ a
  applies : ∀ x ∈ items, ∀ s' identity a, s.Later s' → s.nextIdentity ≤ identity →
    identity < s'.nextIdentity → P s' a →
      ∃ v s'', Applies f [x.identified identity, a] s' (.ok v) s'' ∧ P s'' v ∧
        v.bare = g x.bare a.bare

/-- The call of a parameter on the first element of a list. -/
theorem Scope.element {s s₁ : Store} {c g : FrameId} {callee : Frame} {names : List Text}
    (h : Scope s₁ c g callee names) (name var : Text) (hmem : ("car" : Text) ∈ names)
    (hlater : s.Later s₁) (hname : specialHead? (.symbol name) = none) {f x : Value}
    (hf : callee.get? name = some f) {xs : List Value} {identity : Option Nat}
    (hvar : callee.get? var = some (.list (x :: xs) identity)) {result : Value → Value}
    (hx : s.Computes f result x) : ∃ v s₂,
      Evaluates (call name [call "car" [.symbol var]]) c s₁ (.ok v) s₂ ∧ s₁.Later s₂ ∧
        v.bare = result x.bare := by
  have hcar := hlater.trans s₁.later_takeIdentity
  obtain ⟨v, s₂, happlies, hv⟩ := hx s₁.takeIdentity s₁.nextIdentity hcar hlater.nextIdentity_le
    (Nat.lt_succ_self _)
  refine ⟨v, s₂, ?_, s₁.later_takeIdentity.trans happlies.later, hv⟩
  exact h.callParameter name hname hf (.cons (h.car var hmem hvar) (.nil _ _)) happlies

section Lists

variable {s : Store} {g : FrameId} {f : Value} {items : List Value}

/-- The names that the body of `map` uses. -/
def mapNames : List Text :=
  ["null?", "car", "cdr", "cons", "map"]

theorem runs_map (hglobal : s.IsGlobal g) (horiginal : ∀ name ∈ mapNames, s.Original g name)
    {result : Value → Value} (hf : ∀ x ∈ items, s.Computes f result x)
    (listIdentity : Option Nat) {s₁ : Store} (hlater : s.Later s₁) : ∃ vs identity s₂,
      Prelude.map.Runs g [f, .list items listIdentity] s₁ (.ok (.list vs identity)) s₂ ∧
        vs.map Value.bare = items.map fun x => result x.bare := by
  induction items generalizing listIdentity s₁ with
  | nil =>
    obtain ⟨s₂, c, -, -, hruns⟩ := exists_scope_null Prelude.map [f, .list [] listIdentity] rfl rfl
      hglobal horiginal (by decide) (by decide) hlater rfl
    exact ⟨[], none, _, hruns _ _ (.quote (.list []) none _ _), rfl⟩
  | cons x xs ih =>
    obtain ⟨hx, hxs⟩ := List.forall_mem_cons.mp hf
    obtain ⟨s₂, c, hscope, hlater₂, hruns⟩ := exists_scope_null Prelude.map
      [f, .list (x :: xs) listIdentity] rfl rfl hglobal horiginal (by decide) (by decide) hlater rfl
    obtain ⟨v, s₃, hfirst, hlater₃, hv⟩ := hscope.element "f" "lst" (by decide)
      (hlater.trans hlater₂) rfl rfl rfl hx
    have hscope₃ := hscope.later hlater₃
    obtain ⟨vs, identity, s₄, hrest, hvs⟩ := ih hxs (some s₃.nextIdentity)
      (((hlater.trans hlater₂).trans hlater₃).trans s₃.later_takeIdentity)
    have hsecond := hscope₃.callFunction Prelude.map (by simp [functions]) (by decide)
      (.cons (hscope₃.parameter "f" rfl)
        (.cons (hscope₃.cdr "lst" (by decide) rfl) (.nil _ _))) hrest
    have hcons := hscope.cons (by decide) (.cons hfirst (.cons hsecond (.nil _ _)))
    refine ⟨v :: vs, _, _, hruns _ _ hcons, ?_⟩
    rw [List.map_cons, List.map_cons, hv, hvs]

/-- The names that the body of `filter` uses. -/
def filterNames : List Text :=
  ["null?", "car", "cdr", "cons", "filter"]

theorem runs_filter (hglobal : s.IsGlobal g)
    (horiginal : ∀ name ∈ filterNames, s.Original g name) {result : Value → Value}
    (hf : ∀ x ∈ items, s.Computes f result x) (listIdentity : Option Nat) {s₁ : Store}
    (hlater : s.Later s₁) : ∃ vs identity s₂,
      Prelude.filter.Runs g [f, .list items listIdentity] s₁ (.ok (.list vs identity)) s₂ ∧
        vs.map Value.bare = (items.filter fun x => (result x.bare).isTrue).map Value.bare := by
  induction items generalizing listIdentity s₁ with
  | nil =>
    obtain ⟨s₂, c, -, -, hruns⟩ := exists_scope_null Prelude.filter [f, .list [] listIdentity] rfl
      rfl hglobal horiginal (by decide) (by decide) hlater rfl
    exact ⟨[], none, _, hruns _ _ (.quote (.list []) none _ _), rfl⟩
  | cons x xs ih =>
    obtain ⟨hx, hxs⟩ := List.forall_mem_cons.mp hf
    obtain ⟨s₂, c, hscope, hlater₂, hruns⟩ := exists_scope_null Prelude.filter
      [f, .list (x :: xs) listIdentity] rfl rfl hglobal horiginal (by decide) (by decide) hlater rfl
    obtain ⟨v, s₃, htest, hlater₃, hv⟩ := hscope.element "keep?" "lst" (by decide)
      (hlater.trans hlater₂) rfl rfl rfl hx
    have hscope₃ := hscope.later hlater₃
    -- The rest of the list is filtered from wherever the branch has come to.
    have hrest : ∀ s₄, s₃.Later s₄ → ∃ vs identity s₅,
        Evaluates (call "filter" [.symbol "keep?", call "cdr" [.symbol "lst"]]) c s₄
          (.ok (.list vs identity)) s₅ ∧
        vs.map Value.bare = (xs.filter fun x => (result x.bare).isTrue).map Value.bare := by
      intro s₄ hlater₄
      have hscope₄ := hscope₃.later hlater₄
      obtain ⟨vs, identity, s₅, hrest, hvs⟩ := ih hxs (some s₄.nextIdentity)
        ((((hlater.trans hlater₂).trans hlater₃).trans hlater₄).trans s₄.later_takeIdentity)
      refine ⟨vs, identity, s₅, ?_, hvs⟩
      exact hscope₄.callFunction Prelude.filter (by simp [functions]) (by decide)
        (.cons (hscope₄.parameter "keep?" rfl)
          (.cons (hscope₄.cdr "lst" (by decide) rfl) (.nil _ _))) hrest
    by_cases htrue : result x.bare = .boolean true
    · obtain rfl : v = .boolean true := Value.bare_eq_boolean_iff.mp (hv.trans htrue)
      obtain ⟨vs, identity, s₄, hfiltered, hvs⟩ := hrest s₃.takeIdentity s₃.later_takeIdentity
      have hcons := hscope₃.cons (by decide)
        (.cons (hscope₃.car "lst" (by decide) rfl) (.cons hfiltered (.nil _ _)))
      refine ⟨x.identified s₃.nextIdentity :: vs, _, _, hruns _ _ (.ifTrue _ none htest hcons), ?_⟩
      simp [htrue, Value.isTrue, Value.bare_identified, hvs]
    · obtain ⟨vs, identity, s₄, hfiltered, hvs⟩ := hrest s₃ (.refl s₃)
      have hne : v ≠ .boolean true :=
        fun h => htrue (hv.symm.trans (Value.bare_eq_boolean_iff.mpr h))
      have hfalse : (result x.bare).isTrue = false :=
        Bool.eq_false_iff.mpr fun h => htrue (Value.isTrue_iff.mp h)
      refine ⟨vs, identity, s₄, hruns _ _ (.ifOther _ none htest hne hfiltered), ?_⟩
      rw [hvs, List.filter_cons_of_neg (by simp [hfalse])]

section Folds

variable {combine : Value → Value → Value} {P : Store → Value → Prop}

theorem Store.Accumulates.tail {x : Value} {xs : List Value}
    (h : s.Accumulates f combine (x :: xs) P) : s.Accumulates f combine xs P :=
  ⟨h.later, fun y hy => h.applies y (List.mem_cons_of_mem x hy)⟩

/-- The names that the body of `foldl` uses. -/
def foldlNames : List Text :=
  ["null?", "car", "cdr", "foldl"]

theorem runs_foldl (hglobal : s.IsGlobal g)
    (horiginal : ∀ name ∈ foldlNames, s.Original g name)
    (hf : s.Accumulates f combine items P) (listIdentity : Option Nat) {s₁ : Store} {a : Value}
    (hlater : s.Later s₁) (ha : P s₁ a) : ∃ v s₂,
      Prelude.foldl.Runs g [f, a, .list items listIdentity] s₁ (.ok v) s₂ ∧
        v.bare = (items.map Value.bare).foldl (fun acc x => combine x acc) a.bare := by
  induction items generalizing a listIdentity s₁ with
  | nil =>
    obtain ⟨s₂, c, hscope, -, hruns⟩ := exists_scope_null Prelude.foldl
      [f, a, .list [] listIdentity] rfl rfl hglobal horiginal (by decide) (by decide) hlater rfl
    exact ⟨a, _, hruns _ _ (hscope.parameter "acc" rfl), rfl⟩
  | cons x xs ih =>
    obtain ⟨s₂, c, hscope, hlater₂, hruns⟩ := exists_scope_null Prelude.foldl
      [f, a, .list (x :: xs) listIdentity] rfl rfl hglobal horiginal (by decide) (by decide) hlater
      rfl
    -- The element is taken from the list and combined with the accumulator.
    have hcar := s₂.later_takeIdentity
    have hlater₃ := hlater₂.trans hcar
    obtain ⟨v, s₄, happlies, hv, hbare⟩ := hf.applies x List.mem_cons_self s₂.takeIdentity
      s₂.nextIdentity a (hlater.trans hlater₃) (hlater.trans hlater₂).nextIdentity_le
      (Nat.lt_succ_self _) (hf.later hlater hlater₃ ha)
    have hstep := hscope.callParameter "f" rfl rfl
      (.cons (hscope.car "lst" (by decide) rfl)
        (.cons ((hscope.later hcar).parameter "acc" rfl) (.nil _ _))) happlies
    have hscope₄ := (hscope.later hcar).later happlies.later
    have hlater₄ := (hlater.trans hlater₃).trans happlies.later
    obtain ⟨w, s₅, hrest, hw⟩ := ih hf.tail (some s₄.nextIdentity)
      (hlater₄.trans s₄.later_takeIdentity) (hf.later hlater₄ s₄.later_takeIdentity hv)
    have hcall := hscope.callFunction Prelude.foldl (by simp [functions]) (by decide)
      (.cons (hscope.parameter "f" rfl) (.cons hstep
        (.cons (hscope₄.cdr "lst" (by decide) rfl) (.nil _ _)))) hrest
    refine ⟨w, s₅, hruns _ _ hcall, ?_⟩
    rw [hw, hbare]
    rfl

/-- The names that the body of `foldr` uses. -/
def foldrNames : List Text :=
  ["null?", "car", "cdr", "foldr"]

theorem runs_foldr (hglobal : s.IsGlobal g)
    (horiginal : ∀ name ∈ foldrNames, s.Original g name)
    (hf : s.Accumulates f combine items P) (listIdentity : Option Nat) {s₁ : Store} {a : Value}
    (hlater : s.Later s₁) (ha : P s₁ a) : ∃ v s₂,
      Prelude.foldr.Runs g [f, a, .list items listIdentity] s₁ (.ok v) s₂ ∧ P s₂ v ∧
        v.bare = (items.map Value.bare).foldr combine a.bare := by
  induction items generalizing listIdentity s₁ with
  | nil =>
    obtain ⟨s₂, c, hscope, hlater₂, hruns⟩ := exists_scope_null Prelude.foldr
      [f, a, .list [] listIdentity] rfl rfl hglobal horiginal (by decide) (by decide) hlater rfl
    exact ⟨a, _, hruns _ _ (hscope.parameter "acc" rfl), hf.later hlater hlater₂ ha, rfl⟩
  | cons x xs ih =>
    obtain ⟨s₂, c, hscope, hlater₂, hruns⟩ := exists_scope_null Prelude.foldr
      [f, a, .list (x :: xs) listIdentity] rfl rfl hglobal horiginal (by decide) (by decide) hlater
      rfl
    -- The element is taken from the list before the rest is folded.
    have hcar := s₂.later_takeIdentity
    have hscope₃ := hscope.later hcar
    have hlater₄ := (hlater₂.trans hcar).trans s₂.takeIdentity.later_takeIdentity
    obtain ⟨w, s₅, hrest, hw, hwbare⟩ := ih hf.tail (some s₂.takeIdentity.nextIdentity)
      (hlater.trans hlater₄) (hf.later hlater hlater₄ ha)
    have hcall := hscope₃.callFunction Prelude.foldr (by simp [functions]) (by decide)
      (.cons (hscope₃.parameter "f" rfl) (.cons (hscope₃.parameter "acc" rfl)
        (.cons (hscope₃.cdr "lst" (by decide) rfl) (.nil _ _)))) hrest
    have hidentity : s₂.nextIdentity < s₅.nextIdentity :=
      Nat.lt_of_lt_of_le (Nat.lt_add_of_pos_right (k := 2) (by decide)) hrest.later.nextIdentity_le
    obtain ⟨v, s₆, happlies, hv, hbare⟩ := hf.applies x List.mem_cons_self s₅ s₂.nextIdentity w
      ((hlater.trans hlater₄).trans hrest.later) (hlater.trans hlater₂).nextIdentity_le hidentity hw
    have hstep := hscope.callParameter "f" rfl rfl
      (.cons (hscope.car "lst" (by decide) rfl) (.cons hcall (.nil _ _))) happlies
    refine ⟨v, s₆, hruns _ _ hstep, hv, ?_⟩
    rw [hbare, hwbare]
    rfl

end Folds

/-- The names that the body of `append` uses. -/
def appendNames : List Text :=
  ["null?", "car", "cdr", "cons", "append"]

theorem runs_append (hglobal : s.IsGlobal g)
    (horiginal : ∀ name ∈ appendNames, s.Original g name) (others : List Value)
    (otherIdentity listIdentity : Option Nat) {s₁ : Store} (hlater : s.Later s₁) :
    ∃ vs identity s₂,
      Prelude.append.Runs g [.list items listIdentity, .list others otherIdentity] s₁
        (.ok (.list vs identity)) s₂ ∧ vs.map Value.bare = (items ++ others).map Value.bare := by
  induction items generalizing listIdentity s₁ with
  | nil =>
    obtain ⟨s₂, c, hscope, -, hruns⟩ := exists_scope_null Prelude.append
      [.list [] listIdentity, .list others otherIdentity] rfl rfl hglobal horiginal (by decide)
      (by decide) hlater rfl
    exact ⟨others, otherIdentity, _, hruns _ _ (hscope.parameter "b" rfl), rfl⟩
  | cons x xs ih =>
    obtain ⟨s₂, c, hscope, hlater₂, hruns⟩ := exists_scope_null Prelude.append
      [.list (x :: xs) listIdentity, .list others otherIdentity] rfl rfl hglobal horiginal
      (by decide) (by decide) hlater rfl
    have hcar := s₂.later_takeIdentity
    have hscope₃ := hscope.later hcar
    have hcdr := s₂.takeIdentity.later_takeIdentity
    obtain ⟨vs, identity, s₄, hrest, hvs⟩ := ih (some s₂.takeIdentity.nextIdentity)
      (((hlater.trans hlater₂).trans hcar).trans hcdr)
    have hcall := hscope₃.callFunction Prelude.append (by simp [functions]) (by decide)
      (.cons (hscope₃.cdr "a" (by decide) rfl)
        (.cons ((hscope₃.later hcdr).parameter "b" rfl) (.nil _ _))) hrest
    have hcons := hscope.cons (by decide)
      (.cons (hscope.car "a" (by decide) rfl) (.cons hcall (.nil _ _)))
    refine ⟨_, _, _, hruns _ _ hcons, ?_⟩
    rw [List.map_cons, Value.bare_identified, hvs]
    rfl

section Reverse

/-- A list with one more element at its front. -/
def prepend (x : Value) : Value → Value
  | .list items _ => .list (x :: items)
  | v => v

theorem foldl_prepend (xs ys : List Value) :
    xs.foldl (fun acc x => prepend x acc) (.list ys) = .list (xs.reverse ++ ys) := by
  induction xs generalizing ys with
  | nil => rfl
  | cons x xs ih => rw [List.foldl_cons, prepend, ih, List.reverse_cons, List.append_assoc]; rfl

/-- The primitive `cons` accumulates lists. -/
theorem accumulates_cons (s : Store) (identity : Nat) (items : List Value) :
    s.Accumulates (.primitive identity (.ofOperation ["x", "lst"] none .cons)) prepend items
      (fun _ a => ∃ vs identity, a = .list vs identity) where
  later _ _ h := h
  applies := by
    rintro x - s' identity' a - - - ⟨vs, listIdentity, rfl⟩
    refine ⟨_, _, .primitive rfl, ⟨_, _, rfl⟩, ?_⟩
    rw [Value.bare_identified, Value.bare_list, List.map_cons, Value.bare_identified,
      Value.bare_list, prepend]

/-- The names that the body of `reverse` uses, and those that `foldl` uses. -/
def reverseNames : List Text :=
  ["null?", "car", "cdr", "cons", "foldl", "reverse"]

theorem runs_reverse (hglobal : s.IsGlobal g)
    (horiginal : ∀ name ∈ reverseNames, s.Original g name) (listIdentity : Option Nat) {s₁ : Store}
    (hlater : s.Later s₁) : ∃ v s₂,
      Prelude.reverse.Runs g [.list items listIdentity] s₁ (.ok v) s₂ ∧
        v.bare = .list (items.reverse.map Value.bare) := by
  obtain ⟨s₂, c, hscope, hlater₂, hruns⟩ := exists_scope Prelude.reverse [.list items listIdentity]
    rfl hglobal horiginal (by decide) hlater
  obtain ⟨identity, hcons⟩ := (hscope.original "cons" (by decide)).getIn?_primitive
    (p := .ofOperation ["x", "lst"] none .cons) (by decide)
  have hsub : ∀ name ∈ foldlNames, name ∈ reverseNames := by decide
  obtain ⟨v, s₃, hfold, hv⟩ := runs_foldl hglobal
    (fun name hname => horiginal name (hsub name hname)) (accumulates_cons s identity items)
    listIdentity (hlater.trans hlater₂) ⟨[], none, rfl⟩
  have hcall := hscope.callFunction Prelude.foldl (by simp [functions]) (by decide)
    (.cons (hscope.globalName "cons" (by decide) hcons)
      (.cons (.quote (.list []) none _ _)
        (.cons (hscope.parameter "lst" rfl) (.nil _ _)))) hfold
  refine ⟨v, s₃, hruns _ _ hcall, ?_⟩
  rw [hv, Value.bare_list, List.map_nil, foldl_prepend, List.append_nil, List.map_reverse]

end Reverse

section Reference

/-- A result that is a value, told up to the identities of lists. -/
def Returns (w : Value) (r : Except Failure Value) : Prop :=
  ∃ v, r = .ok v ∧ v.bare = w

/-- A failure because of a value of the wrong type. -/
def IsWrongType (r : Except Failure Value) : Prop :=
  ∃ fault : Fault, r = .error (.fault fault) ∧ fault.kind = .wrongType

/-- The names that the body of `list-ref` uses. -/
def listRefNames : List Text :=
  ["=", "-", "car", "cdr", "list-ref"]

variable (items) in
theorem exists_scope_listRef (hglobal : s.IsGlobal g)
    (horiginal : ∀ name ∈ listRefNames, s.Original g name) (listIdentity : Option Nat) (n : Int)
    {s₁ : Store} (hlater : s.Later s₁) : ∃ s₂ c,
      Scope s₂ c g (calleeFrame listRef.formals g [.list items listIdentity, .integer n])
        listRefNames ∧ s₁.Later s₂ ∧
      ∀ r s', Evaluates (bif n == 0 then call "car" [.symbol "lst"] else
          call "list-ref" [call "cdr" [.symbol "lst"], call "-" [.symbol "n", .integer 1]])
          c s₂ r s' →
        listRef.Runs g [.list items listIdentity, .integer n] s₁ r s' := by
  obtain ⟨s₂, c, hscope, hlater₂, hruns⟩ := exists_scope listRef
    [.list items listIdentity, .integer n] rfl hglobal horiginal (by decide) hlater
  have htest := s₂.later_takeIdentity
  refine ⟨s₂.takeIdentity, c, hscope.later htest, hlater₂.trans htest, fun r s' hbranch => ?_⟩
  exact hruns r s' (hscope.ifZero "n" (by decide) rfl _ _ hbranch)

theorem runs_listRef (hglobal : s.IsGlobal g)
    (horiginal : ∀ name ∈ listRefNames, s.Original g name) (listIdentity : Option Nat) (n : Int)
    {s₁ : Store} (hlater : s.Later s₁) : ∃ r s₂,
      listRef.Runs g [.list items listIdentity, .integer n] s₁ r s₂ ∧
        (∀ i, (hi : i < items.length) → n = i → Returns items[i].bare r) ∧
        (n < 0 ∨ items.length ≤ n → IsWrongType r) := by
  induction items generalizing n listIdentity s₁ with
  | nil =>
    obtain ⟨s₂, c, hscope, -, hruns⟩ :=
      exists_scope_listRef [] hglobal horiginal listIdentity n hlater
    cases hn : n == 0 with
    | true =>
      rw [hn] at hruns
      exact ⟨_, _, hruns _ _ (hscope.car_nil "lst" (by decide) rfl), by simp,
        fun _ => ⟨_, rfl, rfl⟩⟩
    | false =>
      rw [hn] at hruns
      have hcall := hscope.callFunction_fails listRef (by simp [functions]) (by decide)
        (.firstFails [call "-" [.symbol "n", .integer 1]] (hscope.cdr_nil "lst" (by decide) rfl))
      exact ⟨_, _, hruns _ _ hcall, by simp, fun _ => ⟨_, rfl, rfl⟩⟩
  | cons x xs ih =>
    obtain ⟨s₂, c, hscope, hlater₂, hruns⟩ :=
      exists_scope_listRef (x :: xs) hglobal horiginal listIdentity n hlater
    cases hn : n == 0 with
    | true =>
      obtain rfl : n = 0 := eq_of_beq hn
      refine ⟨_, _, hruns _ _ (hscope.car "lst" (by decide) rfl), fun i hi heq => ?_,
        fun hout => ?_⟩
      · obtain rfl : i = 0 := by omega
        exact ⟨_, rfl, x.bare_identified _⟩
      · simp only [List.length_cons] at hout
        omega
    | false =>
      have hne : n ≠ 0 := ne_of_beq_false hn
      rw [hn] at hruns
      have hcdr := s₂.later_takeIdentity
      obtain ⟨r, s₃, hrest, hinside, houtside⟩ := ih (some s₂.nextIdentity) (n - 1)
        ((hlater.trans hlater₂).trans (hcdr.trans s₂.takeIdentity.later_takeIdentity))
      have hcall := hscope.callFunction listRef (by simp [functions]) (by decide)
        (.cons (hscope.cdr "lst" (by decide) rfl)
          (.cons ((hscope.later hcdr).minusOne "n" (by decide) rfl) (.nil _ _))) hrest
      refine ⟨r, s₃, hruns _ _ hcall, fun i hi heq => ?_, fun hout => houtside ?_⟩
      · obtain ⟨j, rfl⟩ : ∃ j, i = j + 1 := ⟨i - 1, by omega⟩
        exact hinside j (Nat.lt_of_succ_lt_succ hi) (by omega)
      · simp only [List.length_cons] at hout
        omega

end Reference

end Lists

/-- The call of a prelude function that is bound as in a new session. -/
theorem endsIn_of_runs {s s' : Store} {g : FrameId} (hglobal : s.IsGlobal g) (function : Function)
    (hfunction : function ∈ functions) (horiginal : s.Original g function.name)
    {args : List Value} {r : Except Failure Value} (hruns : function.Runs g args s r s')
    {P : Except Failure Value → Prop} (hr : P r) : EndsIn (callOn function.name args) g s P := by
  obtain ⟨identity, hbound⟩ := horiginal.getIn?_function hfunction
  have hlookup := (hglobal.lookup? function.name).trans hbound
  exact endsIn_callOn (Scope.specialHead?_of_mem_functions hfunction) hlookup (hruns identity) hr

/-- The prelude computes the standard list functions.  In a session in which the names that a
function uses are bound as in a new one, its calls end, unless the depth is not enough, in what is
told of them here, and no frame from before is changed. -/
theorem prelude_computesLists {s : Store} {g : FrameId} (hglobal : s.IsGlobal g)
    (items : List Value) (identity : Option Nat) :
    ((∀ name ∈ mapNames, s.Original g name) → ∀ f result, (∀ x ∈ items, s.Computes f result x) →
      EndsIn (callOn "map" [f, .list items identity]) g s
        (Returns (.list (items.map fun x => result x.bare)))) ∧
    ((∀ name ∈ filterNames, s.Original g name) → ∀ f result,
      (∀ x ∈ items, s.Computes f result x) →
      EndsIn (callOn "filter" [f, .list items identity]) g s
        (Returns (.list ((items.filter fun x => (result x.bare).isTrue).map Value.bare)))) ∧
    ((∀ name ∈ foldlNames, s.Original g name) → ∀ f combine P a,
      s.Accumulates f combine items P → P s a →
      EndsIn (callOn "foldl" [f, a, .list items identity]) g s
        (Returns ((items.map Value.bare).foldl (fun acc x => combine x acc) a.bare))) ∧
    ((∀ name ∈ foldrNames, s.Original g name) → ∀ f combine P a,
      s.Accumulates f combine items P → P s a →
      EndsIn (callOn "foldr" [f, a, .list items identity]) g s
        (Returns ((items.map Value.bare).foldr combine a.bare))) ∧
    ((∀ name ∈ appendNames, s.Original g name) → ∀ others identity',
      EndsIn (callOn "append" [.list items identity, .list others identity']) g s
        (Returns (.list ((items ++ others).map Value.bare)))) ∧
    ((∀ name ∈ reverseNames, s.Original g name) →
      EndsIn (callOn "reverse" [.list items identity]) g s
        (Returns (.list (items.reverse.map Value.bare)))) ∧
    ((∀ name ∈ listRefNames, s.Original g name) → ∀ n : Int,
      (∀ i, (hi : i < items.length) → n = i →
        EndsIn (callOn "list-ref" [.list items identity, .integer n]) g s
          (Returns items[i].bare)) ∧
      (n < 0 ∨ items.length ≤ n →
        EndsIn (callOn "list-ref" [.list items identity, .integer n]) g s IsWrongType)) := by
  refine ⟨fun horiginal f result hf => ?_, fun horiginal f result hf => ?_,
    fun horiginal f combine P a hf ha => ?_, fun horiginal f combine P a hf ha => ?_,
    fun horiginal others identity' => ?_, fun horiginal => ?_, fun horiginal n => ?_⟩
  · obtain ⟨vs, identity', s', hruns, hvs⟩ := runs_map hglobal horiginal hf identity (.refl s)
    exact endsIn_of_runs hglobal Prelude.map (by simp [functions])
      (horiginal "map" (by decide)) hruns ⟨_, rfl, by rw [Value.bare_list, hvs]⟩
  · obtain ⟨vs, identity', s', hruns, hvs⟩ := runs_filter hglobal horiginal hf identity (.refl s)
    exact endsIn_of_runs hglobal Prelude.filter (by simp [functions])
      (horiginal "filter" (by decide)) hruns ⟨_, rfl, by rw [Value.bare_list, hvs]⟩
  · obtain ⟨v, s', hruns, hv⟩ := runs_foldl hglobal horiginal hf identity (.refl s) ha
    exact endsIn_of_runs hglobal Prelude.foldl (by simp [functions])
      (horiginal "foldl" (by decide)) hruns ⟨v, rfl, hv⟩
  · obtain ⟨v, s', hruns, -, hv⟩ := runs_foldr hglobal horiginal hf identity (.refl s) ha
    exact endsIn_of_runs hglobal Prelude.foldr (by simp [functions])
      (horiginal "foldr" (by decide)) hruns ⟨v, rfl, hv⟩
  · obtain ⟨vs, identity'', s', hruns, hvs⟩ :=
      runs_append hglobal horiginal others identity' identity (.refl s)
    exact endsIn_of_runs hglobal Prelude.append (by simp [functions])
      (horiginal "append" (by decide)) hruns ⟨_, rfl, by rw [Value.bare_list, hvs]⟩
  · obtain ⟨v, s', hruns, hv⟩ := runs_reverse hglobal horiginal identity (.refl s)
    exact endsIn_of_runs hglobal Prelude.reverse (by simp [functions])
      (horiginal "reverse" (by decide)) hruns ⟨v, rfl, hv⟩
  · obtain ⟨r, s', hruns, hinside, houtside⟩ :=
      runs_listRef hglobal horiginal identity n (.refl s)
    have hends : ∀ {P}, P r → EndsIn (callOn "list-ref" [.list items identity, .integer n]) g s P :=
      endsIn_of_runs hglobal Prelude.listRef (by simp [functions])
        (horiginal "list-ref" (by decide)) hruns
    exact ⟨fun i hi heq => hends (hinside i hi heq), fun hout => hends (houtside hout)⟩

/-- A new session runs its list functions on the list of a boolean and a number. -/
theorem prelude_computesLists_start : ∃ session,
    Session.start false (some bundledPrelude) = (none, session) ∧
      session.store.IsGlobal session.global ∧
      EndsIn (callOn "map" [.primitive 0 (.ofOperation ["x"] none .not),
          .list [.boolean true, .integer 1]]) session.global session.store
        (Returns (.list [.boolean false, .boolean true])) ∧
      EndsIn (callOn "filter" [.primitive 0 (.ofOperation ["x"] none .not),
          .list [.boolean true, .integer 1]]) session.global session.store
        (Returns (.list [.integer 1])) ∧
      EndsIn (callOn "foldl" [.primitive 0 (.ofOperation ["x", "lst"] none .cons), .list [],
          .list [.boolean true, .integer 1]]) session.global session.store
        (Returns (.list [.integer 1, .boolean true])) ∧
      EndsIn (callOn "foldr" [.primitive 0 (.ofOperation ["x", "lst"] none .cons), .list [],
          .list [.boolean true, .integer 1]]) session.global session.store
        (Returns (.list [.boolean true, .integer 1])) ∧
      EndsIn (callOn "append" [.list [.boolean true, .integer 1], .list [.symbol "a"]])
        session.global session.store
        (Returns (.list [.boolean true, .integer 1, .symbol "a"])) ∧
      EndsIn (callOn "reverse" [.list [.boolean true, .integer 1]]) session.global session.store
        (Returns (.list [.integer 1, .boolean true])) ∧
      EndsIn (callOn "list-ref" [.list [.boolean true, .integer 1], .integer 1]) session.global
        session.store (Returns (.integer 1)) ∧
      EndsIn (callOn "list-ref" [.list [.boolean true, .integer 1], .integer (-1)])
        session.global session.store IsWrongType := by
  cases hstart : Session.start false (some bundledPrelude) with
  | mk failure session =>
    obtain ⟨rfl, hglobal, horiginal⟩ := original_start hstart
    obtain ⟨hmap, hfilter, hfoldl, hfoldr, happend, hreverse, hlistRef⟩ :=
      prelude_computesLists hglobal [.boolean true, .integer 1] none
    have hnames : ∀ names : List Text, (∀ name ∈ names,
        name ∈ Primitive.catalog.map Primitive.name ++ functions.map Function.name) →
        ∀ name ∈ names, session.store.Original session.global name :=
      fun names h name hname => horiginal name (h name hname)
    have hnot : ∀ x ∈ [Value.boolean true, .integer 1], session.store.Computes
        (.primitive 0 (.ofOperation ["x"] none .not)) (fun v => .boolean !v.isTrue) x := by
      intro x hx s' identity hlater _ _
      simp only [List.mem_cons, List.not_mem_nil, or_false] at hx
      obtain rfl | rfl := hx
      · exact ⟨_, _, .primitive (v := .boolean false) rfl,
          by simp [Value.bare_identified, Value.bare, Value.isTrue]⟩
      · exact ⟨_, _, .primitive (v := .boolean true) rfl,
          by simp [Value.bare_identified, Value.bare, Value.isTrue]⟩
    have hcons := accumulates_cons session.store 0 [.boolean true, .integer 1]
    have hout := (hlistRef (hnames _ (by decide)) (-1)).2 (Or.inl (by decide))
    have hin := (hlistRef (hnames _ (by decide)) 1).1 1 (by decide) rfl
    have hf := hfoldl (hnames _ (by decide)) _ _ _ (.list []) hcons ⟨[], none, rfl⟩
    have hr := hfoldr (hnames _ (by decide)) _ _ _ (.list []) hcons ⟨[], none, rfl⟩
    refine ⟨session, rfl, hglobal, ?_, ?_, ?_, ?_, ?_, ?_, ?_, hout⟩
    · simpa [Value.bare, Value.isTrue] using hmap (hnames _ (by decide)) _ _ hnot
    · simpa [Value.bare, Value.isTrue] using hfilter (hnames _ (by decide)) _ _ hnot
    · simpa [Value.bare, prepend] using hf
    · simpa [Value.bare, prepend] using hr
    · simpa [Value.bare] using happend (hnames _ (by decide)) [.symbol "a"] none
    · simpa [Value.bare] using hreverse (hnames _ (by decide))
    · simpa [Value.bare] using hin

end SmallLisp
