import SmallLisp.Text.Printable
/-!
Texts in quotes, as a reader of diagnostics sees them.
-/

namespace SmallLisp.Text

/-- The lower-case hexadecimal digit of a value below sixteen. -/
def hexDigit (n : Nat) : CodePoint :=
  .scalar (Char.ofNat (if n < 10 then 48 + n else 87 + n))

/-- The last `width` hexadecimal digits of a number. -/
def hexDigits : (width : Nat) → Nat → Text
  | 0, _ => []
  | width + 1, n => hexDigits width (n / 16) ++ [hexDigit (n % 16)]

/-- The quote mark for a text: a single quote, unless the text has single quotes and no double
quotes. -/
def quoteMark (text : Text) : Char :=
  if text.contains '\'' && !text.contains '"' then '"' else '\''

/-- One code point of a text quoted with `mark`.  A surrogate is not printable. -/
def quotedPoint (mark : Char) (c : CodePoint) : Text :=
  if c = '\\' || c = mark then [.scalar '\\', c]
  else if c = '\n' then "\\n"
  else if c = '\r' then "\\r"
  else if c = '\t' then "\\t"
  else if isPrintable c then [c]
  else if c.toNat < 0x100 then "\\x" ++ hexDigits 2 c.toNat
  else if c.toNat < 0x10000 then "\\u" ++ hexDigits 4 c.toNat
  else "\\U" ++ hexDigits 8 c.toNat

/-- A text in quotes, on one line and with nothing unprintable in it. -/
def quoted (text : Text) : Text :=
  let mark := quoteMark text
  .scalar mark :: text.flatMap (quotedPoint mark) ++ [.scalar mark]

example : quoted "it's" = "\"it's\"" := by decide +kernel

example : quoted "a\n\u00A0" = "'a\\n\\xa0'" := by decide +kernel

end SmallLisp.Text
