import SmallLisp.Json
import SmallLisp.Text.Decimal
/-!
JSON tokens of a text.

Text that is no token is kept as one bad token, so that what comes before it is still read first.
-/

namespace SmallLisp

/-- A JSON token. -/
inductive JsonToken
  | leftBrace | rightBrace | leftBracket | rightBracket | colon | comma
  /-- A string, a number or a constant. -/
  | scalar (v : JsonValue)
  /-- An integer with too many digits. -/
  | longInteger
  /-- Text that is no token. -/
  | bad
deriving Inhabited

namespace JsonToken

/-- The value of a hexadecimal digit. -/
def hexValue? (c : CodePoint) : Option Nat :=
  let n := c.toNat
  if 48 ≤ n && n ≤ 57 then some (n - 48)
  else if 97 ≤ n && n ≤ 102 then some (n - 87)
  else if 65 ≤ n && n ≤ 70 then some (n - 55)
  else none

/-- The UTF-16 unit that four hexadecimal digits write. -/
def unitOf? (a b c d : CodePoint) : Option Nat := do
  return ((16 * (← hexValue? a) + (← hexValue? b)) * 16 + (← hexValue? c)) * 16 + (← hexValue? d)

/-- The character of a high and a low surrogate. -/
def pairChar (high low : Nat) : Char :=
  Char.ofNat (0x10000 + (high - 0xD800) * 0x400 + (low - 0xDC00))

/-- The letters of the escapes of one character, with what they stand for. -/
def escapes : Table CodePoint CodePoint :=
  [('"', '"'), ('\\', '\\'), ('/', '/'), ('b', '\x08'), ('f', '\x0c'), ('n', '\n'), ('r', '\r'),
   ('t', '\t')]

/-- What a position in a string is after. -/
inductive StringMode
  | plain
  | backslash
  /-- The digits of a unit so far. -/
  | unit (digits : Text)

/-- A string being read: its code points, the latest first, and a high surrogate that waits for its
low one. -/
structure StringScan where
  read : Text := []
  high : Option Nat := none
  mode : StringMode := .plain

namespace StringScan

/-- A high surrogate that no low one follows stands alone. -/
def settle (s : StringScan) : StringScan :=
  match s.high with
  | some high => { s with read := .ofUnit high :: s.read, high := none }
  | none => s

/-- One more code point. -/
def push (s : StringScan) (p : CodePoint) : StringScan :=
  let s := s.settle
  { s with read := p :: s.read, mode := .plain }

/-- One more UTF-16 unit. -/
def pushUnit (s : StringScan) (unit : Nat) : StringScan :=
  match s.high with
  | some high =>
      if 0xDC00 ≤ unit && unit < 0xE000 then
        { read := .scalar (pairChar high unit) :: s.read }
      else if 0xD800 ≤ unit && unit < 0xDC00 then
        { read := .ofUnit high :: s.read, high := some unit }
      else s.push (.ofUnit unit)
  | none =>
      if 0xD800 ≤ unit && unit < 0xDC00 then { s with high := some unit, mode := .plain }
      else s.push (.ofUnit unit)

/-- One more character of the text, up to the closing quote. -/
def step? (s : StringScan) (c : CodePoint) : Option StringScan :=
  match s.mode with
  | .plain =>
      if c = '\\' then some { s with mode := .backslash }
      else if c.toNat < 0x20 then none
      else some (s.push c)
  | .backslash =>
      if c = 'u' then some { s with mode := .unit [] } else (escapes.lookup c).map s.push
  | .unit digits =>
      match digits with
      | [p, q, r] => (unitOf? p q r c).map s.pushUnit
      | _ => some { s with mode := .unit (digits ++ [c]) }

/-- Whether a quote would end the string here. -/
def isPlain (s : StringScan) : Bool :=
  s.mode matches .plain

end StringScan

/-- The rest of a string and what follows its closing quote. -/
def scanString (s : StringScan) : Text → Option (Text × Text)
  | [] => none
  | c :: rest =>
      if c = '"' && s.isPlain then some (s.settle.read.reverse, rest)
      else
        match s.step? c with
        | some s => scanString s rest
        | none => none

/-- The ASCII digits that a text starts with, and what follows them. -/
def splitDigits (text : Text) : Text × Text :=
  (text.takeWhile CodePoint.isAsciiDigit, text.dropWhile CodePoint.isAsciiDigit)

/-- A fraction with at least one digit, if the text starts with one. -/
def splitFraction (text : Text) : Text × Text :=
  match text with
  | .scalar '.' :: rest =>
      let (digits, after) := splitDigits rest
      if digits.isEmpty then ([], text) else (digits, after)
  | _ => ([], text)

/-- A power of ten with at least one digit, if the text starts with one. -/
def splitPower (text : Text) : Option Int × Text :=
  match text with
  | c :: rest =>
      if c = 'e' || c = 'E' then
        let (negative, unsigned) := Text.splitSign rest
        let (digits, after) := splitDigits unsigned
        if digits.isEmpty then (none, text)
        else (some (Text.signed negative (Text.valueOfDigits digits)), after)
      else (none, text)
  | [] => (none, text)

/-- The whole part of a number: a zero, or digits that start with another one. -/
def splitWhole (text : Text) : Text × Text :=
  match text with
  | .scalar '0' :: rest => ("0", rest)
  | _ => splitDigits text

/-- The number that a text starts with, given whether a minus stands before it. -/
def scanNumber (negative : Bool) (text : Text) : JsonToken × Text :=
  let (whole, afterWhole) := splitWhole text
  let (fraction, afterFraction) := splitFraction afterWhole
  let (power, rest) := splitPower afterFraction
  if whole.isEmpty then (.bad, [])
  else if fraction.isEmpty && power.isNone then
    if whole.length ≤ Text.maxDigits then
      (.scalar (.integer (Text.signed negative (Text.valueOfDigits whole))), rest)
    else (.longInteger, rest)
  else
    let magnitude := Number.nearestFloat (Text.valueOfDigits (whole ++ fraction))
      (power.getD 0 - fraction.length)
    (.scalar (.float (if negative then -magnitude else magnitude)), rest)

/-- The constants. -/
def constants : List (Text × JsonValue) :=
  [("null", .null), ("true", .boolean true), ("false", .boolean false),
   ("NaN", .float (0.0 / 0.0)), ("Infinity", .float (1.0 / 0.0)),
   ("-Infinity", .float (-1.0 / 0.0))]

/-- The first token of a text that starts with neither a blank nor nothing, and the rest. -/
def scan (c : CodePoint) (rest : Text) : JsonToken × Text :=
  let text := c :: rest
  match c with
  | .scalar '\x7b' => (.leftBrace, rest)
  | .scalar '\x7d' => (.rightBrace, rest)
  | .scalar '[' => (.leftBracket, rest)
  | .scalar ']' => (.rightBracket, rest)
  | .scalar ':' => (.colon, rest)
  | .scalar ',' => (.comma, rest)
  | .scalar '"' =>
      match scanString {} rest with
      | some (string, rest) => (.scalar (.string string), rest)
      | none => (.bad, [])
  | _ =>
      match constants.find? fun (word, _) => word.isPrefixOf text with
      | some (word, v) => (.scalar v, text.drop word.length)
      | none => if c = '-' then scanNumber true rest else scanNumber false text

/-- The tokens among the first `fuel` tokens and blanks of a text. -/
def scanAll : (fuel : Nat) → Text → List JsonToken
  | 0, _ => []
  | _, [] => []
  | fuel + 1, c :: rest =>
      if c = ' ' || c = '\t' || c = '\n' || c = '\r' then scanAll fuel rest
      else
        let (token, rest) := scan c rest
        token :: scanAll fuel rest

/-- The tokens of a text.  Each takes at least one character. -/
def ofText (text : Text) : List JsonToken :=
  scanAll text.length text

end JsonToken

end SmallLisp
