/-!
Texts: lists of code points.

A code point is a character or a surrogate without a partner.  Text that is kept as bytes has no
such surrogates, but a string in JSON may have them, and the language takes them for ordinary
characters.  Main statement: code points are told apart by their numbers.
-/

namespace SmallLisp

/-- A code point: a character, or a surrogate by its distance from U+D800. -/
inductive CodePoint
  | scalar (c : Char)
  | surrogate (index : Fin 2048)
deriving DecidableEq, Repr

/-- A text. -/
abbrev Text := List CodePoint

instance : Coe Char CodePoint := ⟨.scalar⟩

namespace CodePoint

/-- The number of a code point. -/
def toNat : CodePoint → Nat
  | .scalar c => c.toNat
  | .surrogate index => 0xD800 + index

instance : Hashable CodePoint := ⟨fun p => hash p.toNat⟩

/-- The code point that a UTF-16 unit is by itself. -/
def ofUnit (unit : Nat) : CodePoint :=
  if h : 0xD800 ≤ unit ∧ unit < 0xE000 then .surrogate ⟨unit - 0xD800, by omega⟩
  else .scalar (Char.ofNat unit)

/-- The character, if it is one. -/
def scalar? : CodePoint → Option Char
  | .scalar c => some c
  | .surrogate _ => none

/-- The code point with an ASCII letter in lower case. -/
def toLower : CodePoint → CodePoint
  | .scalar c => .scalar c.toLower
  | .surrogate index => .surrogate index

/-- Whether a code point is an ASCII digit. -/
def isAsciiDigit (p : CodePoint) : Bool :=
  48 ≤ p.toNat && p.toNat ≤ 57

end CodePoint

namespace Text

/-- The text of a string. -/
def ofString (s : String) : Text :=
  s.toList.map .scalar

/-- The string of a text, with the replacement character for surrogates. -/
def lossyString (text : Text) : String :=
  String.ofList (text.map fun p => p.scalar?.getD '\uFFFD')

/-- The string of a text, if it has no surrogates. -/
def string? (text : Text) : Option String :=
  (text.mapM CodePoint.scalar?).map String.ofList

/-- Texts one after the other, with a separator between them. -/
def join (separator : Text) (texts : List Text) : Text :=
  List.intercalate separator texts

/-- Whether a text comes before another one or equals it, by the numbers of their code points. -/
def atMost (a b : Text) : Bool :=
  !List.lex b a fun p q => p.toNat < q.toNat

end Text

instance : Coe String Text := ⟨Text.ofString⟩

example : Text.atMost "a\uE000" [.scalar 'a', .surrogate 0] = false := by decide

end SmallLisp
