import SmallLisp.Text
/-!
Decimal integers in text.  Any Unicode decimal digit is read; ASCII digits are written.  A text of
more than `maxDigits` digits is neither read nor written.
-/

namespace SmallLisp.Text

/-- The zeros of Unicode's decimal digit blocks.  Each is followed by the digits one to nine of
its script. -/
def digitZeros : List Nat :=
  [0x30, 0x660, 0x6f0, 0x7c0, 0x966, 0x9e6, 0xa66, 0xae6, 0xb66, 0xbe6, 0xc66, 0xce6, 0xd66,
   0xde6, 0xe50, 0xed0, 0xf20, 0x1040, 0x1090, 0x17e0, 0x1810, 0x1946, 0x19d0, 0x1a80, 0x1a90,
   0x1b50, 0x1bb0, 0x1c40, 0x1c50, 0xa620, 0xa8d0, 0xa900, 0xa9d0, 0xa9f0, 0xaa50, 0xabf0,
   0xff10, 0x104a0, 0x10d30, 0x11066, 0x110f0, 0x11136, 0x111d0, 0x112f0, 0x11450, 0x114d0,
   0x11650, 0x116c0, 0x11730, 0x118e0, 0x11950, 0x11c50, 0x11d50, 0x11da0, 0x16a60, 0x16ac0,
   0x16b50, 0x1d7ce, 0x1d7d8, 0x1d7e2, 0x1d7ec, 0x1d7f6, 0x1e140, 0x1e2f0, 0x1e950, 0x1fbf0]

/-- The value of a decimal digit of any script. -/
def digitValue? (c : CodePoint) : Option Nat :=
  (digitZeros.find? fun start => start ≤ c.toNat && c.toNat < start + 10).map (c.toNat - ·)

/-- Whether a character is a decimal digit of any script. -/
def isDigit (c : CodePoint) : Bool :=
  (digitValue? c).isSome

/-- The number that decimal digits write. -/
def valueOfDigits (digits : Text) : Nat :=
  digits.foldl (fun value c => 10 * value + (digitValue? c).getD 0) 0

/-- An optional sign, as whether it is a minus, and what follows it. -/
def splitSign : Text → Bool × Text
  | .scalar '-' :: rest => (true, rest)
  | .scalar '+' :: rest => (false, rest)
  | text => (false, text)

/-- The integer with a given sign and magnitude. -/
def signed (negative : Bool) (magnitude : Nat) : Int :=
  if negative then -(magnitude : Int) else magnitude

/-- Whether a text is an optional sign followed by digits, at least one. -/
def isInteger (text : Text) : Bool :=
  let digits := (splitSign text).2
  !digits.isEmpty && digits.all isDigit

/-- The most digits that a decimal text of an integer has. -/
def maxDigits : Nat := 4300

/-- The integer that a text with an optional sign writes; none if it has more than `maxDigits`
digits, leading zeros counted. -/
def integerOf? (text : Text) : Option Int :=
  let (negative, digits) := splitSign text
  if digits.length ≤ maxDigits then some (signed negative (valueOfDigits digits)) else none

/-- The decimal text of an integer; none if it has more than `maxDigits` digits. -/
def integerText? (n : Int) : Option Text :=
  if n.natAbs < Nat.pow 10 maxDigits then some (ofString (toString n)) else none

example : integerOf? "-007" = some (-7) := by decide

example : isInteger "+٣" = true := by decide

example : isInteger "+" = false := by decide

end SmallLisp.Text
