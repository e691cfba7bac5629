import SmallLisp.Value
import SmallLisp.Text.Decimal
/-!
Tokens, and the values that single atoms stand for.
-/

namespace SmallLisp

/-- The kinds of tokens.  A stream that does not come from source text may hold tokens of other
kinds, which the reader refuses. -/
inductive TokenKind
  | symbol
  | quote
  | opener
  | closer
  | other (name : Text)
deriving DecidableEq, Repr

/-- A token: its kind and its text. -/
structure Token where
  kind : TokenKind
  text : Text
deriving DecidableEq, Repr

/-- The closing bracket of an opening one. -/
def closerOf? (opener : Text) : Option Text :=
  if opener = "(" then some ")" else if opener = "[" then some "]" else none

/-- The boolean that a literal writes, in upper or lower case. -/
def literal? (text : Text) : Option Bool :=
  let lower : Text := text.map CodePoint.toLower
  if lower = "#t" || lower = "#true" then some true
  else if lower = "#f" || lower = "#false" then some false
  else none

/-- The value of an atom: an integer, a literal if it starts with a hash sign, else a symbol. -/
def readAtom (text : Text) : Except Failure Value :=
  if text.isInteger then
    text.integerOf?.elim (.error .integerTooLong) fun n => .ok (.integer n)
  else if text.head? = some (.scalar '#') then
    (literal? text).elim (.error (.fault (.unknownLiteral text))) fun b => .ok (.boolean b)
  else Value.symbolOf text

end SmallLisp
