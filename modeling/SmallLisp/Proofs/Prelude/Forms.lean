import SmallLisp.Prelude
import SmallLisp.Proofs.Reading.Datum
/-!
The bundled prelude as data.

Main statement: the text of the prelude is read as the definitions of eleven functions.
-/

namespace SmallLisp

namespace Prelude

/-- The call of a name on expressions. -/
def call (name : Text) (args : List Value) : Value :=
  .list (.symbol name :: args)

/-- A function as the source of a prelude defines it. -/
structure Function where
  name : Text
  formals : List Text
  body : Value

/-- The definition of a function. -/
def Function.form (function : Function) : Value :=
  call "define" [.symbol function.name,
    call "lambda" [.list (function.formals.map .symbol), function.body]]

/-- The test for zero. -/
def isZero : Function where
  name := "zero?"
  formals := ["n"]
  body := call "=" [.symbol "n", .integer 0]

/-- The absolute value. -/
def abs : Function where
  name := "abs"
  formals := ["n"]
  body := call "if" [call "<" [.symbol "n", .integer 0], call "-" [.symbol "n"], .symbol "n"]

/-- The larger of two numbers. -/
def max : Function where
  name := "max"
  formals := ["a", "b"]
  body := call "if" [call "<" [.symbol "a", .symbol "b"], .symbol "b", .symbol "a"]

/-- The smaller of two numbers. -/
def min : Function where
  name := "min"
  formals := ["a", "b"]
  body := call "if" [call "<" [.symbol "a", .symbol "b"], .symbol "a", .symbol "b"]

/-- The results of a function on the elements of a list. -/
def map : Function where
  name := "map"
  formals := ["f", "lst"]
  body := call "if" [call "null?" [.symbol "lst"],
    quoteDatum (.list []),
    call "cons" [call "f" [call "car" [.symbol "lst"]],
      call "map" [.symbol "f", call "cdr" [.symbol "lst"]]]]

/-- The elements of a list that a function keeps. -/
def filter : Function where
  name := "filter"
  formals := ["keep?", "lst"]
  body := call "if" [call "null?" [.symbol "lst"],
    quoteDatum (.list []),
    call "if" [call "keep?" [call "car" [.symbol "lst"]],
      call "cons" [call "car" [.symbol "lst"],
        call "filter" [.symbol "keep?", call "cdr" [.symbol "lst"]]],
      call "filter" [.symbol "keep?", call "cdr" [.symbol "lst"]]]]

/-- The fold of a list from the left. -/
def foldl : Function where
  name := "foldl"
  formals := ["f", "acc", "lst"]
  body := call "if" [call "null?" [.symbol "lst"],
    .symbol "acc",
    call "foldl" [.symbol "f", call "f" [call "car" [.symbol "lst"], .symbol "acc"],
      call "cdr" [.symbol "lst"]]]

/-- The fold of a list from the right. -/
def foldr : Function where
  name := "foldr"
  formals := ["f", "acc", "lst"]
  body := call "if" [call "null?" [.symbol "lst"],
    .symbol "acc",
    call "f" [call "car" [.symbol "lst"],
      call "foldr" [.symbol "f", .symbol "acc", call "cdr" [.symbol "lst"]]]]

/-- The elements of two lists. -/
def append : Function where
  name := "append"
  formals := ["a", "b"]
  body := call "if" [call "null?" [.symbol "a"],
    .symbol "b",
    call "cons" [call "car" [.symbol "a"],
      call "append" [call "cdr" [.symbol "a"], .symbol "b"]]]

/-- The elements of a list, the last one first. -/
def reverse : Function where
  name := "reverse"
  formals := ["lst"]
  body := call "foldl" [.symbol "cons", quoteDatum (.list []), .symbol "lst"]

/-- The element of a list at a place. -/
def listRef : Function where
  name := "list-ref"
  formals := ["lst", "n"]
  body := call "if" [call "=" [.symbol "n", .integer 0],
    call "car" [.symbol "lst"],
    call "list-ref" [call "cdr" [.symbol "lst"], call "-" [.symbol "n", .integer 1]]]

/-- The functions of the bundled prelude in the order of their definitions. -/
def functions : List Function :=
  [isZero, abs, max, min, map, filter, foldl, foldr, append, reverse, listRef]

/-- The forms of the functions have no identities. -/
theorem map_bare_forms : (functions.map Function.form).map Value.bare =
    functions.map Function.form := by
  simp only [functions, Function.form, isZero, abs, max, min, map, filter, foldl, foldr, append,
    reverse, listRef, call, quoteDatum, List.map_cons, List.map_nil, Value.bare]

section Text

set_option maxRecDepth 10000

/-- The characters of the prelude's text, and what they are read as. -/
theorem exists_chars : ∃ chars : List Char, bundledPrelude = chars.map .scalar ∧
    (parse (chars.map .scalar)).toOption.map (fun forms =>
      Value.equalItems forms (functions.map Function.form)) = some true := by
  refine ⟨_, congrArg (List.map CodePoint.scalar) String.toList_ofList, ?_⟩
  decide +kernel

end Text

/-- The bundled prelude is read as the definitions of its functions. -/
theorem parse_bundledPrelude : parse bundledPrelude = .ok (functions.map Function.form) := by
  obtain ⟨chars, htext, hequal⟩ := exists_chars
  rw [← htext] at hequal
  cases hforms : parse bundledPrelude with
  | error e =>
    rw [hforms] at hequal
    cases hequal
  | ok forms =>
    rw [hforms] at hequal
    have hdatum := datum_of_parse hforms
    have hbare := Value.map_eq_of_equalItems (f := Value.bare)
      (fun v hv w => (hdatum v hv).readable.bare_eq_of_equal) (Option.some.inj hequal)
    rw [map_bare_forms, List.map_congr_left fun v hv => (hdatum v hv).bare, List.map_id'] at hbare
    rw [hbare]

end Prelude

end SmallLisp
