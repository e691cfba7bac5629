import SmallLisp.Proofs.Editor.Brackets
import SmallLisp.Proofs.Editor.Hovering
/-!
The positions that an index reports.

A reported position is that of a bracket without a partner or of a defined name.  Main statement:
offsets and positions of a text correspond one to one and in order, so that no two of the brackets
and names that are reported have the same position.
-/

namespace SmallLisp.Editor

open Text (Position positionOf)

variable {text : Text} {index : Index}

/-- Two pieces at one position are the same. -/
theorem eq_of_positionOf_eq {p q : Piece} (hp : p ∈ scan text) (hq : q ∈ scan text)
    (h : positionOf text p.start = positionOf text q.start) : p = q :=
  List.inj_on_of_nodup_map (nodup_positions text) hp hq h

/-- The reported brackets are some of those of the text. -/
theorem exists_sublist_unmatched (hindex : Index.ofText text = .ok index) :
    ∃ loose : List Piece, loose.Sublist (bracketsOf text) ∧
      index.unmatched = loose.map fun p => positionOf text p.start := by
  obtain ⟨kept, stray, unclosed, hpairing, hloose⟩ := exists_pairing (scan text)
  refine ⟨stray ++ unclosed, hpairing.sublist, ?_⟩
  rw [unmatched_of_ofText hindex, hloose, List.map_map]
  rfl

/-- Definitions of different names are reported at different positions. -/
theorem nodup_definitionPositions (hindex : Index.ofText text = .ok index) :
    (index.definitions.map fun entry => entry.2.position).Nodup := by
  have hkeys := nodup_keys_definitions hindex
  rw [Table.keys, List.Nodup, List.pairwise_map] at hkeys
  rw [List.Nodup, List.pairwise_map]
  apply hkeys.imp_of_mem
  rintro ⟨name, d⟩ ⟨name', d'⟩ hentry hentry' hne heq
  obtain ⟨outer, head, piece, inner, hscan, -, -, rfl, hd⟩ := exists_piece_of_mem hindex hentry
  obtain ⟨outer', head', piece', inner', hscan', -, -, rfl, hd'⟩ :=
    exists_piece_of_mem hindex hentry'
  have hmem : piece ∈ scan text := by simp [hscan]
  have hmem' : piece' ∈ scan text := by simp [hscan']
  have hsame : piece = piece' := by
    apply eq_of_positionOf_eq hmem hmem'
    rw [← hd, ← hd']
    exact heq
  exact hne (congrArg Piece.text hsame)

/-- A bracket and a definition are reported at different positions. -/
theorem disjoint_unmatched_definitionPositions (hindex : Index.ofText text = .ok index) :
    index.unmatched.Disjoint (index.definitions.map fun entry => entry.2.position) := by
  obtain ⟨loose, hloose, hunmatched⟩ := exists_sublist_unmatched hindex
  rw [hunmatched]
  intro position hshown hnamed
  obtain ⟨bracket, hbracket, rfl⟩ := List.mem_map.mp hshown
  obtain ⟨⟨name, d⟩, hentry, hposition⟩ := List.mem_map.mp hnamed
  obtain ⟨outer, head, piece, inner, hscan, -, hword, -, hd⟩ := exists_piece_of_mem hindex hentry
  obtain ⟨hmem, hisBracket⟩ := List.mem_filter.mp (hloose.subset hbracket)
  have hpiece : piece ∈ scan text := by simp [hscan]
  have hsame : bracket = piece := by
    apply eq_of_positionOf_eq hmem hpiece
    rw [← hd]
    exact hposition.symm
  -- A word is no bracket.
  rw [hsame, Piece.isBracket] at hisBracket
  simp [Piece.isWord, hisBracket] at hword

/-- Offsets and positions of a text correspond one to one.  The position of an offset is the only
one with a line that the text has, a column on that line, and earlier lines that make up the offset
together with the column.  Positions are in the order of their offsets, so that the pieces of the
text are in the order of their positions, and no two of the brackets and names that an index reports
share a position. -/
theorem positions_oneToOne (text : Text) :
    (∀ offset ≤ text.length, ∀ p : Position,
      positionOf text offset = p ↔ p.IsAt text offset) ∧
    (∀ i ≤ text.length, ∀ j ≤ text.length,
      (positionOf text i).Precedes (positionOf text j) ↔ i < j) ∧
    ((scan text).map fun p => positionOf text p.start).Pairwise Position.Precedes ∧
    ∀ index, Index.ofText text = .ok index →
      (index.unmatched ++ index.definitions.map fun entry => entry.2.position).Nodup := by
  refine ⟨fun offset hoffset p => Text.positionOf_eq_iff hoffset, ?_, pairwise_positions text, ?_⟩
  · intro i hi j hj
    exact Text.positionOf_precedes_iff hi hj
  · intro index hindex
    obtain ⟨loose, hloose, hunmatched⟩ := exists_sublist_unmatched hindex
    have hbrackets : index.unmatched.Nodup := by
      rw [hunmatched]
      exact (nodup_positions text).sublist ((hloose.trans List.filter_sublist).map _)
    exact hbrackets.append (nodup_definitionPositions hindex)
      (disjoint_unmatched_definitionPositions hindex)

/-- A line feed, an empty line after it, and a stray and an unclosed bracket around a definition. -/
theorem positions_oneToOne_emptyLine :
    (⟨0, 1⟩ : Position).IsAt "]\n\n(define a 1)(" 1 ∧
    (⟨1, 0⟩ : Position).IsAt "]\n\n(define a 1)(" 2 ∧
    (positionOf "]\n\n(define a 1)(" 1).Precedes (positionOf "]\n\n(define a 1)(" 2) ∧
    ∃ index, Index.ofText "]\n\n(define a 1)(" = .ok index ∧
      index.unmatched = [⟨0, 0⟩, ⟨2, 12⟩] ∧
      (index.definitions.map fun entry => entry.2.position) = [⟨2, 8⟩] ∧
      (index.unmatched ++ index.definitions.map fun entry => entry.2.position).Nodup := by
  obtain ⟨honly, horder, -, hreported⟩ := positions_oneToOne "]\n\n(define a 1)("
  refine ⟨(honly 1 (by decide) _).mp (by decide), (honly 2 (by decide) _).mp (by decide),
    (horder 1 (by decide) 2 (by decide)).mpr (by decide), ?_⟩
  have hindex : (Index.ofText "]\n\n(define a 1)(").toOption.map (fun index =>
      (index.unmatched, index.definitions.map fun entry => entry.2.position)) =
        some ([⟨0, 0⟩, ⟨2, 12⟩], [⟨2, 8⟩]) := by decide +kernel
  cases hindexed : Index.ofText "]\n\n(define a 1)(" with
  | error e =>
    rw [hindexed] at hindex
    cases hindex
  | ok index =>
    rw [hindexed] at hindex
    obtain ⟨hunmatched, hdefinitions⟩ := Prod.mk.inj (Option.some.inj hindex)
    exact ⟨index, rfl, hunmatched, hdefinitions, hreported index hindexed⟩

end SmallLisp.Editor
