import SmallLisp.Number.Shortest
import SmallLisp.Table
import SmallLisp.Text.Quoted
/-!
JSON values and their two texts.

`JsonValue.shown` is the text in which the server speaks of a value that it does not understand.
`jsonString` writes a text as JSON in ASCII.
-/

namespace SmallLisp

/-- A JSON value.  Numbers without a fraction or a power of ten are integers. -/
inductive JsonValue
  | null
  | boolean (b : Bool)
  | integer (n : Int)
  | float (x : Float)
  | string (text : Text)
  | array (items : List JsonValue)
  | object (fields : List (Text × JsonValue))
deriving Inhabited

namespace JsonValue

/-- The value of a key. -/
def get? : JsonValue → Text → Option JsonValue
  | .object fields, key => fields.lookup key
  | _, _ => none

/-- Whether a value is a given string. -/
def isString : JsonValue → Text → Bool
  | .string text, wanted => text == wanted
  | _, _ => false

mutual

/-- The text of a value inside another: strings are quoted, and the constants are `None`, `True`
and `False`. -/
def inner : JsonValue → Text
  | .null => "None"
  | .boolean b => if b then "True" else "False"
  | .integer n => toString n
  | .float x => Number.floatText x
  | .string text => text.quoted
  | .array items => "[" ++ Text.join ", " (innerItems items) ++ "]"
  | .object fields => "\x7b" ++ Text.join ", " (innerFields fields) ++ "\x7d"

/-- The texts of the elements of an array. -/
def innerItems : List JsonValue → List Text
  | [] => []
  | v :: rest => inner v :: innerItems rest

/-- The texts of the fields of an object. -/
def innerFields : List (Text × JsonValue) → List Text
  | [] => []
  | (key, v) :: rest => (key.quoted ++ ": " ++ inner v) :: innerFields rest

end

/-- The text of a value that stands alone: a string is its own text. -/
def shown : JsonValue → Text
  | .string text => text
  | v => inner v

end JsonValue

/-- A UTF-16 unit as a JSON escape. -/
def unitEscape (unit : Nat) : Text :=
  "\\u" ++ Text.hexDigits 4 unit

/-- One code point of a JSON string in ASCII.  Characters beyond U+FFFF take two units. -/
def jsonPoint (c : CodePoint) : Text :=
  let n := c.toNat
  if c = '"' || c = '\\' then [.scalar '\\', c]
  else if c = '\n' then "\\n"
  else if c = '\r' then "\\r"
  else if c = '\t' then "\\t"
  else if n = 8 then "\\b"
  else if n = 12 then "\\f"
  else if 0x20 ≤ n && n < 0x7F then [c]
  else if n < 0x10000 then unitEscape n
  else
    unitEscape (0xD800 + (n - 0x10000) / 0x400) ++ unitEscape (0xDC00 + (n - 0x10000) % 0x400)

/-- A JSON string in ASCII. -/
def jsonString (text : Text) : Text :=
  "\"" ++ text.flatMap jsonPoint ++ "\""

example : jsonString "é\"" = "\"\\u00e9\\\"\"" := by decide +kernel

end SmallLisp
