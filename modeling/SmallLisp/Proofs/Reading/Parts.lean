import SmallLisp.Proofs.Reading.Grammar
/-!
The expressions within an expression.

They are listed with the number of tokens before each of them.  Main statement: the list is in the
order in which the expressions begin in the tokens.
-/

namespace SmallLisp

namespace Derivation

mutual

/-- The expressions in an expression, itself first, each after the number of tokens before it. -/
def parts : Nat → Derivation → List (Nat × Derivation)
  | place, .atom text v accepted => [(place, .atom text v accepted)]
  | place, .quoted mark datum => (place, .quoted mark datum) :: parts (place + 1) datum
  | place, .bracketed shape items =>
      (place, .bracketed shape items) :: partsOfRow (place + 1) items

/-- The expressions in a row of expressions. -/
def partsOfRow : Nat → List Derivation → List (Nat × Derivation)
  | _, [] => []
  | place, d :: ds => parts place d ++ partsOfRow (place + d.tokens.length) ds

end

mutual

/-- The places of the expressions in an expression go up within its tokens. -/
theorem places_sublist : ∀ (place : Nat) (d : Derivation),
    ((parts place d).map Prod.fst).Sublist (List.range' place d.tokens.length)
  | place, .atom text v accepted => by
      rw [parts, tokens]
      exact List.Sublist.refl _
  | place, .quoted mark datum => by
      rw [parts, tokens, List.length_cons, List.range'_succ, List.map_cons]
      exact (places_sublist (place + 1) datum).cons_cons place
  | place, .bracketed shape items => by
      rw [parts, tokens_bracketed, List.length_cons, List.range'_succ, List.map_cons,
        List.length_append, ← List.range'_append_1]
      exact ((placesOfRow_sublist (place + 1) items).trans (List.sublist_append_left _ _)).cons_cons
        place

theorem placesOfRow_sublist : ∀ (place : Nat) (ds : List Derivation),
    ((partsOfRow place ds).map Prod.fst).Sublist (List.range' place (ds.flatMap tokens).length)
  | place, [] => List.nil_sublist _
  | place, d :: ds => by
      rw [partsOfRow, List.map_append, List.flatMap_cons, List.length_append,
        ← List.range'_append_1]
      exact (places_sublist place d).append (placesOfRow_sublist (place + d.tokens.length) ds)

end

/-- The expressions in a row are listed in the order in which they begin. -/
theorem pairwise_partsOfRow (place : Nat) (ds : List Derivation) :
    (partsOfRow place ds).Pairwise fun p q => p.1 < q.1 :=
  List.pairwise_map.mp
    (List.Pairwise.sublist (placesOfRow_sublist place ds) List.pairwise_lt_range')

end Derivation

end SmallLisp
