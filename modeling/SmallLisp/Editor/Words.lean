import SmallLisp.Failure
import SmallLisp.Primitive
import SmallLisp.Table
import SmallLisp.Text.Blank
import SmallLisp.Text.Lines
/-!
What stands at a position of a document, and the signatures that describe it.

Columns count characters in a line that may end at any Unicode line boundary.  A line or a column
below zero counts from the end.
-/

namespace SmallLisp.Editor

/-- A line of a text, if there are so many.  A negative index counts from the last line. -/
def lineAt (text : Text) (line : Int) : Except Failure (Option (Text)) :=
  let lines := Text.lines text
  match line with
  | .ofNat n => .ok lines[n]?
  | .negSucc n =>
      if n < lines.length then .ok lines[lines.length - (n + 1)]? else .error .outsideText

/-- The text of a line before a column; empty if there is no such line. -/
def linePrefix (text : Text) (line column : Int) : Except Failure (Text) := do
  let characters := (← lineAt text line).getD []
  return characters.take (Text.itemsBefore characters.length column)

/-- Whether a character ends a word under the cursor. -/
def isDelimiter (c : CodePoint) : Bool :=
  (" \t()[]'\n\r" : Text).contains c

/-- A word, if it has any character. -/
def wordOf? (characters : Text) : Option Text :=
  if characters.isEmpty then none else some characters

/-- The word around a column of a line and the column where it starts.  A column beyond the end of
the line has none.  A negative column counts from the end; there the word starts at the column, and
what is found beyond the end goes on at the start of the line. -/
def wordIn (characters : Text) : Int → Except Failure (Option Text × Int)
  | .ofNat column =>
      if characters.length < column then .error .outsideText
      else
        let left := ((characters.take column).reverse.takeWhile (!isDelimiter ·)).reverse
        let right := (characters.drop column).takeWhile (!isDelimiter ·)
        .ok (wordOf? (left ++ right), (column - left.length : Nat))
  | .negSucc n =>
      if characters.length ≤ n then .error .outsideText
      else
        let start := characters.length - (n + 1)
        let run := (characters.drop start ++ characters).takeWhile (!isDelimiter ·)
        let stop := Text.itemsBefore characters.length (.negSucc n + run.length)
        .ok (wordOf? ((characters.take stop).drop start), .negSucc n)

/-- The word around a position, if there is one, and the column where it starts. -/
def wordAt (text : Text) (line column : Int) : Except Failure (Option Text × Int) := do
  match ← lineAt text line with
  | none => return (none, column)
  | some characters => wordIn characters column

/-- Whether a character is an opening bracket. -/
def isOpeningBracket (c : CodePoint) : Bool :=
  c == '(' || c == '['

/-- Whether a character ends the name of a callee. -/
def endsCallee (c : CodePoint) : Bool :=
  Text.isBlank c || ("()[]" : Text).contains c

/-- The name after the last opening bracket of a text, if there is a bracket and a name. -/
def calleeName? (text : Text) : Option Text :=
  if text.any isOpeningBracket then
    let tail := (text.reverse.takeWhile (!isOpeningBracket ·)).reverse
    let name := (Text.trim tail).takeWhile (!endsCallee ·)
    if name.isEmpty then none else some name
  else none

/-- The signatures of the primitive functions. -/
def primitiveSignatures : Table Text Text :=
  Primitive.catalog.map fun p => (p.name, p.signature)

/-- The signatures of the special forms. -/
def specialSignatures : Table Text Text :=
  [("quote", "(quote datum)"),
   ("define", "(define name expr)"),
   ("lambda", "(lambda (params ...) body)"),
   ("if", "(if test then else)")]

/-- The words of a signature after the name, without the outer brackets. -/
def signatureWords (signature : Text) : List Text :=
  (Text.words (signature.drop 1).dropLast).drop 1

example : (wordAt "(car x)\n" 0 2).toOption = some (some (Text.ofString "car"), 1) := by
  decide +kernel

example : calleeName? "(if (car x) [cons a" = some "cons" := by decide +kernel

end SmallLisp.Editor
