import SmallLisp.Proofs.Reading.Atom
import SmallLisp.Reading
/-!
Readable values, the tokens that they are written in, and the data that these are read as.

A list that was read has no identity, so a value is read back without the identities of its lists.
-/

namespace SmallLisp

namespace Value

/-- A value that can be written: symbols by their names, integers that are not too long, booleans,
and lists of such values. -/
inductive Readable : Value → Prop
  | symbol {name : Text} : name.IsName → Readable (.symbol name)
  | integer {n : Int} : n.natAbs < 10 ^ Text.maxDigits → Readable (.integer n)
  | boolean (b : Bool) : Readable (.boolean b)
  | list {items : List Value} (identity : Option Nat) : (∀ v ∈ items, Readable v) →
      Readable (.list items identity)

/-- A value without the identities of its lists. -/
def bare : Value → Value
  | .list items _ => .list (items.map bare)
  | v => v

theorem bare_list (items : List Value) (identity : Option Nat) :
    bare (.list items identity) = .list (items.map bare) := by
  rw [bare]

mutual

theorem bare_bare : ∀ v : Value, v.bare.bare = v.bare
  | .list items _ => by rw [bare_list, bare_list, map_bare_map_bare items]
  | .symbol _ | .integer _ | .boolean _ | .primitive .. | .closure .. | .foreign _ => by
      simp [bare]

theorem map_bare_map_bare :
    ∀ items : List Value, (items.map bare).map bare = items.map bare
  | [] => rfl
  | v :: rest => by
      rw [List.map_cons, List.map_cons, bare_bare v, map_bare_map_bare rest]

end

theorem bare_identified (v : Value) (identity : Nat) :
    (v.identified identity).bare = v.bare := by
  cases v with
  | list items identity' => cases identity' <;> simp [identified, bare]
  | _ => rfl

theorem equalItems_map {f : Value → Value} {items : List Value}
    (h : ∀ v ∈ items, (f v).equal v = true) : equalItems (items.map f) items = true := by
  induction items with
  | nil => rfl
  | cons v rest ih =>
    obtain ⟨hv, hrest⟩ := List.forall_mem_cons.mp h
    rw [List.map_cons, equalItems, hv, ih hrest]
    rfl

theorem exists_equal_of_equalItems {xs ys : List Value} (h : equalItems xs ys = true) :
    ∀ y ∈ ys, ∃ x ∈ xs, x.equal y = true := by
  induction xs generalizing ys with
  | nil =>
    cases ys with
    | nil => simp
    | cons y ys => cases h
  | cons x xs ih =>
    cases ys with
    | nil => simp
    | cons y ys =>
      rw [equalItems, Bool.and_eq_true] at h
      intro z hz
      rcases List.mem_cons.mp hz with rfl | hmem
      · exact ⟨x, List.mem_cons_self, h.1⟩
      · obtain ⟨w, hw, hequal⟩ := ih h.2 z hmem
        exact ⟨w, List.mem_cons_of_mem x hw, hequal⟩

theorem Readable.bare_equal {v : Value} (h : v.Readable) : v.bare.equal v = true := by
  induction h with
  | symbol | integer | boolean => simp [bare, equal]
  | list identity _ ih =>
    rw [bare_list, equal]
    exact equalItems_map ih

/-- What equals a readable value is readable. -/
theorem Readable.of_equal {w : Value} (h : w.Readable) {v : Value} (heq : w.equal v = true) :
    v.Readable := by
  induction h generalizing v with
  | symbol hname =>
    cases v <;> simp only [equal, Bool.false_eq_true, beq_iff_eq] at heq
    exact heq ▸ .symbol hname
  | integer hn =>
    cases v <;> simp only [equal, Bool.false_eq_true, beq_iff_eq] at heq
    exact heq ▸ .integer hn
  | boolean b =>
    cases v <;> simp only [equal, Bool.false_eq_true, beq_iff_eq] at heq
    exact heq ▸ .boolean b
  | list identity _ ih =>
    cases v <;> simp only [equal, Bool.false_eq_true] at heq
    apply Readable.list
    intro y hy
    obtain ⟨x, hx, hequal⟩ := exists_equal_of_equalItems heq y hy
    exact ih x hx hequal

theorem map_eq_of_equalItems {f : Value → Value} {xs ys : List Value}
    (h : ∀ x ∈ xs, ∀ y, x.equal y = true → f y = f x) (heq : equalItems xs ys = true) :
    ys.map f = xs.map f := by
  induction xs generalizing ys with
  | nil =>
    cases ys with
    | nil => rfl
    | cons y ys => cases heq
  | cons x xs ih =>
    cases ys with
    | nil => cases heq
    | cons y ys =>
      obtain ⟨hx, hxs⟩ := List.forall_mem_cons.mp h
      rw [equalItems, Bool.and_eq_true] at heq
      rw [List.map_cons, List.map_cons, hx y heq.1, ih hxs heq.2]

/-- What equals a readable value differs from it in the identities of lists alone. -/
theorem Readable.bare_eq_of_equal {w : Value} (h : w.Readable) {v : Value}
    (heq : w.equal v = true) : v.bare = w.bare := by
  induction h generalizing v with
  | symbol hname | integer hn | boolean b =>
    cases v <;> simp only [equal, Bool.false_eq_true, beq_iff_eq] at heq
    rw [heq]
  | list identity _ ih =>
    cases v <;> simp only [equal, Bool.false_eq_true] at heq
    rw [bare_list, bare_list, map_eq_of_equalItems (fun x hx y => ih x hx) heq]

/-- The tokens that a value is written in. -/
def tokens : Value → List Token
  | .symbol name => [⟨.symbol, name⟩]
  | .integer n => [⟨.symbol, Text.ofString (toString n)⟩]
  | .boolean b => [⟨.symbol, booleanText b⟩]
  | .list items _ => ⟨.opener, "("⟩ :: (items.flatMap tokens ++ [⟨.closer, ")"⟩])
  | _ => []

theorem tokens_list (items : List Value) (identity : Option Nat) :
    tokens (.list items identity) =
      ⟨.opener, "("⟩ :: (items.flatMap tokens ++ [⟨.closer, ")"⟩]) := by
  rw [tokens]

end Value

open Value

theorem Text.join_singleton (separator text : Text) : Text.join separator [text] = text := by
  simp [Text.join]

theorem integerText_eq_ok {n : Int} (hn : n.natAbs < 10 ^ Text.maxDigits) :
    integerText n = .ok (Text.ofString (toString n)) := by
  rw [integerText, Text.integerText?, Nat.pow_eq, if_pos hn]
  rfl

section Display

/-- Displays of several values spell their tokens, with spaces between them. -/
theorem mapM_spells {display : Value → Except Failure Text} {items : List Value}
    (h : ∀ v ∈ items, ∃ text, display v = .ok text ∧ Spells text v.tokens) :
    ∃ texts, items.mapM display = .ok texts ∧
      Spells (Text.join " " texts) (items.flatMap tokens) := by
  induction items with
  | nil => exact ⟨[], rfl, .nil⟩
  | cons v rest ih =>
    obtain ⟨hv, hrest⟩ := List.forall_mem_cons.mp h
    obtain ⟨text, hdisplay, htext⟩ := hv
    obtain ⟨texts, hdisplays, htexts⟩ := ih hrest
    refine ⟨text :: texts, ?_, ?_⟩
    · rw [List.mapM_cons, hdisplay, hdisplays]
      rfl
    · cases texts with
      | nil =>
        have hnil : rest.flatMap tokens = [] := congrArg Lexed.tokens htexts.lex_eq.symm
        rw [List.flatMap_cons, hnil, List.append_nil, Text.join_singleton]
        exact htext
      | cons next texts => exact htext.append (by decide) htexts.space

/-- A readable value has a display, and this spells its tokens. -/
theorem Value.Readable.display_spells {v : Value} (h : v.Readable) (s : Store) {depth : Nat}
    (hdepth : v.isNestedWithin depth = true) :
    ∃ text, displayWithin s depth v = .ok text ∧ Spells text v.tokens := by
  cases depth with
  | zero => cases hdepth
  | succ depth =>
    induction h generalizing depth with
    | symbol hname =>
      refine ⟨_, rfl, ?_⟩
      rw [tokens]
      exact .atom hname.isAtom
    | @integer n hn =>
      refine ⟨_, integerText_eq_ok hn, ?_⟩
      rw [tokens]
      exact .atom (Text.isAtom_toString n)
    | boolean b =>
      refine ⟨_, rfl, ?_⟩
      rw [tokens]
      exact .atom (isAtom_boolean b)
    | @list items identity _ ih =>
      rw [isNestedWithin, List.all_eq_true] at hdepth
      have hitems : ∀ v ∈ items, ∃ text, displayWithin s depth v = .ok text ∧
          Spells text v.tokens := by
        intro v hv
        cases depth with
        | zero => cases hdepth v hv
        | succ depth => exact ih v hv depth (hdepth v hv)
      obtain ⟨texts, hdisplays, htexts⟩ := mapM_spells hitems
      refine ⟨parenthesized texts, ?_, ?_⟩
      · rw [displayWithin, hdisplays]
        rfl
      · rw [tokens_list]
        exact (htexts.append (by decide) Spells.nil.closer).opener

end Display

namespace TokenStream

variable {failure : Option Failure} {done : Array Value}

/-- The data from here on, from what the last token has led to. -/
def resume (failure : Option Failure) (done : Array Value) (rest : List Token) :
    Progress → Except Failure (List Value)
  | .pending contexts => readAllWithin failure done contexts rest
  | .datum v => readAllWithin failure (done.push v) [] rest
  | .failed e _ => .error e

theorem readAllWithin_cons (contexts : List Pending) (t : Token) (rest : List Token) :
    readAllWithin failure done contexts (t :: rest) =
      resume failure done rest (consume contexts t) := by
  rw [readAllWithin]
  cases consume contexts t <;> rfl

end TokenStream

open TokenStream (readAllWithin resume readAllWithin_cons)

/-- Tokens that are read within some contexts as a datum, whatever follows them. -/
def Reads (contexts : List Pending) (ts : List Token) (v : Value) : Prop :=
  ∀ (failure : Option Failure) (done : Array Value) (rest : List Token),
    readAllWithin failure done contexts (ts ++ rest) =
      resume failure done rest (deliver v contexts)

namespace Reads

variable {contexts : List Pending}

theorem atom {text : Text} {v : Value} (h : readAtom text = .ok v) :
    Reads contexts [⟨.symbol, text⟩] v := by
  intro failure done rest
  rw [List.singleton_append, readAllWithin_cons]
  simp only [consume, h]

theorem quote {ts : List Token} {v : Value} (hroom : contexts.length < readingDepth)
    (h : Reads (.quoted :: contexts) ts v) :
    Reads contexts (⟨.quote, "'"⟩ :: ts) (quoteDatum v) := by
  intro failure done rest
  have hnest : consume contexts ⟨.quote, "'"⟩ = .pending (.quoted :: contexts) := if_pos hroom
  rw [List.cons_append, readAllWithin_cons, hnest]
  exact h failure done rest

/-- The elements of a list go to its bracket one after the other. -/
theorem elements {items : List Value}
    (h : ∀ v ∈ items, ∀ acc, Reads (.bracket "(" ")" acc :: contexts) v.tokens v.bare)
    (failure : Option Failure) (done acc : Array Value) (rest : List Token) :
    readAllWithin failure done (.bracket "(" ")" acc :: contexts)
        (items.flatMap tokens ++ rest) =
      readAllWithin failure done (.bracket "(" ")" (acc ++ (items.map bare).toArray) :: contexts)
        rest := by
  induction items generalizing acc with
  | nil => simp
  | cons v items ih =>
    obtain ⟨hv, hitems⟩ := List.forall_mem_cons.mp h
    have hpush : acc.push v.bare ++ (items.map bare).toArray =
        acc ++ ((v :: items).map bare).toArray := by simp
    rw [List.flatMap_cons, List.append_assoc, hv acc, ← hpush]
    exact ih hitems _

theorem list {items : List Value} (hroom : contexts.length < readingDepth)
    (h : ∀ v ∈ items, ∀ acc, Reads (.bracket "(" ")" acc :: contexts) v.tokens v.bare)
    (identity : Option Nat) :
    Reads contexts (tokens (.list items identity)) (bare (.list items identity)) := by
  intro failure done rest
  have hopen : consume contexts ⟨.opener, "("⟩ = .pending (.bracket "(" ")" #[] :: contexts) :=
    if_pos hroom
  have hclose : ∀ acc : Array Value,
      consume (.bracket "(" ")" acc :: contexts) ⟨.closer, ")"⟩ =
        deliver (.list acc.toList) contexts := fun acc => by simp only [consume, if_true]
  rw [tokens_list, bare_list, List.cons_append, List.append_assoc, readAllWithin_cons, hopen]
  refine (elements h failure done #[] _).trans ?_
  rw [List.singleton_append, readAllWithin_cons, hclose]
  simp

end Reads

/-- The tokens of a readable value are read as it. -/
theorem Value.Readable.reads_tokens {v : Value} (h : v.Readable) {depth : Nat}
    (hdepth : v.isNestedWithin depth = true) {contexts : List Pending}
    (hroom : contexts.length + depth ≤ readingDepth) : Reads contexts v.tokens v.bare := by
  induction h generalizing depth contexts with
  | symbol hname =>
    rw [tokens, bare]
    · exact .atom (readAtom_name hname)
    · simp
  | integer hn =>
    rw [tokens, bare]
    · exact .atom (readAtom_integer hn)
    · simp
  | boolean b =>
    rw [tokens, bare]
    · exact .atom (readAtom_boolean b)
    · simp
  | @list items identity _ ih =>
    cases depth with
    | zero => cases hdepth
    | succ depth =>
      rw [isNestedWithin, List.all_eq_true] at hdepth
      have hbracket : contexts.length < readingDepth := by omega
      refine .list hbracket (fun v hv acc => ih v hv (hdepth v hv) ?_) identity
      rw [List.length_cons]
      omega

end SmallLisp
