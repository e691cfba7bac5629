import SmallLisp.Reading
/-!
The grammar of source text over tokens.

A program is a row of expressions; an expression is an atom, a quoted expression, or a row of
expressions in brackets.  Main statement: tokens have at most one derivation.
-/

namespace SmallLisp

/-- The two shapes of brackets. -/
inductive Bracket
  | round
  | square
deriving DecidableEq, Repr

/-- The text of an opening bracket. -/
def Bracket.opener : Bracket → Text
  | .round => "("
  | .square => "["

/-- The text of a closing bracket. -/
def Bracket.closer : Bracket → Text
  | .round => ")"
  | .square => "]"

/-- A derivation of an expression.  An atom is a text that is read as a value. -/
inductive Derivation
  | atom (text : Text) (v : Value) (accepted : readAtom text = .ok v)
  | quoted (mark : Text) (datum : Derivation)
  | bracketed (shape : Bracket) (items : List Derivation)

namespace Derivation

/-- The tokens that are derived. -/
def tokens : Derivation → List Token
  | .atom text _ _ => [⟨.symbol, text⟩]
  | .quoted mark datum => ⟨.quote, mark⟩ :: datum.tokens
  | .bracketed shape items =>
      ⟨.opener, shape.opener⟩ :: (items.flatMap tokens ++ [⟨.closer, shape.closer⟩])

/-- The value of a derivation. -/
def value : Derivation → Value
  | .atom _ v _ => v
  | .quoted _ datum => .list [.symbol "quote", datum.value]
  | .bracketed _ items => .list (items.map value)

theorem tokens_bracketed (shape : Bracket) (items : List Derivation) :
    tokens (.bracketed shape items) =
      ⟨.opener, shape.opener⟩ :: (items.flatMap tokens ++ [⟨.closer, shape.closer⟩]) := by
  rw [tokens]

theorem value_bracketed (shape : Bracket) (items : List Derivation) :
    value (.bracketed shape items) = .list (items.map value) := by
  rw [value]

/-- A derivation begins with a token that closes nothing. -/
theorem exists_tokens_eq_cons (d : Derivation) :
    ∃ t rest, d.tokens = t :: rest ∧ t.kind ≠ .closer := by
  cases d with
  | atom text v accepted => exact ⟨_, [], by rw [tokens], by simp⟩
  | quoted mark datum => exact ⟨_, _, by rw [tokens], by simp⟩
  | bracketed shape items => exact ⟨_, _, tokens_bracketed shape items, by simp⟩

end Derivation

open SmallLisp.Derivation

/-- Tokens before which a row of expressions ends: none, or a closing bracket first. -/
def EndsRow (ts : List Token) : Prop :=
  ∀ t ∈ ts.head?, t.kind = .closer

theorem endsRow_nil : EndsRow [] := by
  simp [EndsRow]

theorem endsRow_closer (text : Text) (ts : List Token) : EndsRow (⟨.closer, text⟩ :: ts) := by
  simp [EndsRow]

theorem not_endsRow_tokens (d : Derivation) (ts : List Token) : ¬ EndsRow (d.tokens ++ ts) := by
  obtain ⟨t, rest, htokens, hkind⟩ := d.exists_tokens_eq_cons
  rw [htokens]
  exact fun h => hkind (h t rfl)

theorem Bracket.eq_of_opener_eq {shape shape' : Bracket} (h : shape.opener = shape'.opener) :
    shape = shape' := by
  revert h
  cases shape <;> cases shape' <;> decide

mutual

/-- An expression can be derived from the beginning of tokens in one way only. -/
theorem Derivation.eq_of_append_eq : ∀ (d d' : Derivation) {rest rest' : List Token},
    d.tokens ++ rest = d'.tokens ++ rest' → d = d' ∧ rest = rest'
  | .atom text v accepted, .atom text' v' accepted', rest, rest', h => by
      simp only [tokens, List.cons_append, List.nil_append, List.cons.injEq, Token.mk.injEq,
        true_and] at h
      obtain ⟨rfl, rfl⟩ := h
      obtain rfl := Except.ok.inj (accepted.symm.trans accepted')
      exact ⟨rfl, rfl⟩
  | .quoted mark datum, .quoted mark' datum', rest, rest', h => by
      simp only [tokens, List.cons_append, List.cons.injEq, Token.mk.injEq, true_and] at h
      obtain ⟨rfl, hdatum⟩ := h
      obtain ⟨rfl, rfl⟩ := Derivation.eq_of_append_eq datum datum' hdatum
      exact ⟨rfl, rfl⟩
  | .bracketed shape items, .bracketed shape' items', rest, rest', h => by
      simp only [tokens_bracketed, List.cons_append, List.append_assoc, List.cons.injEq,
        Token.mk.injEq, true_and] at h
      obtain ⟨hopener, hitems⟩ := h
      obtain rfl := Bracket.eq_of_opener_eq hopener
      obtain ⟨rfl, hclosed⟩ :=
        row_eq_of_append_eq items items' (endsRow_closer _ _) (endsRow_closer _ _) hitems
      exact ⟨rfl, (List.cons.inj hclosed).2⟩
  | .atom .., .quoted .., _, _, h | .atom .., .bracketed .., _, _, h
  | .quoted .., .atom .., _, _, h | .quoted .., .bracketed .., _, _, h
  | .bracketed .., .atom .., _, _, h | .bracketed .., .quoted .., _, _, h => by
      simp [tokens] at h

/-- A row of expressions that goes on until it ends can be derived in one way only. -/
theorem row_eq_of_append_eq : ∀ (ds ds' : List Derivation) {rest rest' : List Token},
    EndsRow rest → EndsRow rest' → ds.flatMap tokens ++ rest = ds'.flatMap tokens ++ rest' →
    ds = ds' ∧ rest = rest'
  | [], [], _, _, _, _, h => ⟨rfl, h⟩
  | [], d' :: ds', _, _, hrest, _, h => by
      rw [List.flatMap_nil, List.nil_append, List.flatMap_cons, List.append_assoc] at h
      exact absurd (h ▸ hrest) (not_endsRow_tokens d' _)
  | d :: ds, [], _, _, _, hrest', h => by
      rw [List.flatMap_nil, List.nil_append, List.flatMap_cons, List.append_assoc] at h
      exact absurd (h ▸ hrest') (not_endsRow_tokens d _)
  | d :: ds, d' :: ds', _, _, hrest, hrest', h => by
      rw [List.flatMap_cons, List.flatMap_cons, List.append_assoc, List.append_assoc] at h
      obtain ⟨rfl, hds⟩ := Derivation.eq_of_append_eq d d' h
      obtain ⟨rfl, rfl⟩ := row_eq_of_append_eq ds ds' hrest hrest' hds
      exact ⟨rfl, rfl⟩

end

/-- Tokens have at most one derivation as a program. -/
theorem program_unique {ds ds' : List Derivation}
    (h : ds.flatMap tokens = ds'.flatMap tokens) : ds = ds' := by
  refine (row_eq_of_append_eq ds ds' endsRow_nil endsRow_nil ?_).1
  rw [h]

end SmallLisp
