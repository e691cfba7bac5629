import SmallLisp.Editor.Scan
import SmallLisp.Reading
import SmallLisp.Table
import SmallLisp.Text.Lines
/-!
The index of a document: what it seems to define, and which of its brackets have no partner.

The index is made from the pieces of the text without evaluating anything, so that it exists for
unfinished text too.  The reader is consulted for its error alone.
-/

namespace SmallLisp.Editor

open Text (Position positionOf)

/-- What a name is defined as. -/
inductive DefinitionKind
  | variable
  | function
deriving DecidableEq, Repr

/-- The word for a kind of definition. -/
def DefinitionKind.word : DefinitionKind → Text
  | .variable => "var"
  | .function => "function"

/-- A definition in a document and the place of its name. -/
structure Definition where
  kind : DefinitionKind
  position : Position
deriving DecidableEq, Repr

/-- The index of a document. -/
structure Index where
  /-- The definitions by name; a name that is defined again keeps its place in the table. -/
  definitions : Table Text Definition
  /-- Opening brackets less closing ones. -/
  balance : Int
  /-- The brackets without a partner, the closing ones first. -/
  unmatched : List Position
  /-- The wording of the reader's error. -/
  readingError : Option Text
deriving Repr

/-- Whether a piece is an opening bracket. -/
def Piece.isOpener (p : Piece) : Bool :=
  p.text == "(" || p.text == "["

/-- Whether a piece is a closing bracket. -/
def Piece.isCloser (p : Piece) : Bool :=
  p.text == ")" || p.text == "]"

/-- Whether a piece is a word. -/
def Piece.isWord (p : Piece) : Bool :=
  !(p.isOpener || p.isCloser || p.text == "'")

/-- The kind of a definition from what follows its name. -/
def kindOf : List Piece → DefinitionKind
  | opener :: head :: _ =>
      if opener.isOpener && head.text == "lambda" then .function else .variable
  | _ => .variable

/-- The name that an opening bracket defines and its kind, from the pieces after the bracket. -/
def defined? : List Piece → Option (Piece × DefinitionKind)
  | head :: name :: rest =>
      if head.text == "define" && name.isWord then some (name, kindOf rest) else none
  | _ => none

/-- The definitions of a document's pieces, added to those before. -/
def addDefinitions (text : Text) :
    List Piece → Table Text Definition → Table Text Definition
  | [], table => table
  | p :: rest, table =>
      match if p.isOpener then defined? rest else none with
      | some (name, kind) =>
          addDefinitions text rest
            (table.insert name.text { kind, position := positionOf text name.start })
      | none => addDefinitions text rest table

/-- Brackets without a partner: the offsets of the closing ones, and of the opening ones with the
latest first. -/
structure Loose where
  closers : Array Nat := #[]
  openers : List Nat := []
deriving DecidableEq, Repr

/-- One more piece.  A closing bracket of either shape pairs with the latest open one. -/
def Loose.step (loose : Loose) (p : Piece) : Loose :=
  if p.isOpener then { loose with openers := p.start :: loose.openers }
  else if p.isCloser then
    match loose.openers with
    | [] => { loose with closers := loose.closers.push p.start }
    | _ :: outer => { loose with openers := outer }
  else loose

/-- The offsets of the brackets without a partner: closing ones first, each in text order. -/
def looseBrackets (pieces : List Piece) : List Nat :=
  let loose := pieces.foldl Loose.step {}
  loose.closers.toList ++ loose.openers.reverse

/-- Opening brackets less closing ones. -/
def balanceOf (pieces : List Piece) : Int :=
  (pieces.countP Piece.isOpener : Int) - pieces.countP Piece.isCloser

/-- The wording of the reader's error in a text.  Other failures of the reader leave no index. -/
def readingErrorOf (text : Text) : Except Failure (Option Text) :=
  match parse text with
  | .ok _ => .ok none
  | .error (.fault fault) => .ok (some fault.message)
  | .error failure => .error failure

/-- The index of a text. -/
def Index.ofText (text : Text) : Except Failure Index := do
  let readingError ← readingErrorOf text
  let pieces := scan text
  return {
    definitions := addDefinitions text pieces []
    balance := balanceOf pieces
    unmatched := (looseBrackets pieces).map (positionOf text)
    readingError }

end SmallLisp.Editor
