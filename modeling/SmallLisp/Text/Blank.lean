import SmallLisp.Text
/-!
Blank characters, and the parts of a text between them.
-/

namespace SmallLisp.Text

/-- Unicode white space, and the four information separators U+001C to U+001F. -/
def isBlank (c : CodePoint) : Bool :=
  let n := c.toNat
  (0x09 ≤ n && n ≤ 0x0D) || (0x1C ≤ n && n ≤ 0x20) || n == 0x85 || n == 0xA0 || n == 0x1680
    || (0x2000 ≤ n && n ≤ 0x200A) || n == 0x2028 || n == 0x2029 || n == 0x202F || n == 0x205F
    || n == 0x3000

/-- The items without the leading and trailing ones that satisfy `p`. -/
def stripBy {α : Type} (p : α → Bool) (items : List α) : List α :=
  ((items.dropWhile p).reverse.dropWhile p).reverse

/-- The items without the trailing ones that satisfy `p`. -/
def stripEndBy {α : Type} (p : α → Bool) (items : List α) : List α :=
  (items.reverse.dropWhile p).reverse

/-- A text without its blank ends. -/
def trim (text : Text) : Text :=
  stripBy isBlank text

/-- The runs of characters that are not blank. -/
def words (text : Text) : List Text :=
  (text.splitOnP isBlank).filter (!·.isEmpty)

example : trim " \u2003a b\n" = "a b" := by decide

example : words " a  b " = (["a", "b"] : List Text) := by decide

end SmallLisp.Text
