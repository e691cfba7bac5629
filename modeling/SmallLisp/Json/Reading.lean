import SmallLisp.Failure
import SmallLisp.Json.Token
/-!
JSON values from tokens, by a machine with a stack of open arrays and objects.
-/

namespace SmallLisp

/-- How deep arrays and objects may be nested. -/
def jsonDepth : Nat := 1000

/-- An array or an object that is not closed yet.  An object waits for the value of a key. -/
inductive JsonContext
  | array (items : Array JsonValue)
  | object (fields : Table Text JsonValue) (key : Text)

/-- What may come next. -/
inductive JsonExpectation
  | value
  | valueOrEnd
  | key
  | keyOrEnd
  | colon
  | separator
  | nothing (v : JsonValue)

/-- Why there is no value. -/
inductive JsonFault
  | malformed
  | limit (failure : Failure)

/-- The open contexts, innermost first, and what may come next. -/
structure JsonMachine where
  contexts : List JsonContext := []
  expectation : JsonExpectation := .value

namespace JsonMachine

/-- A finished value goes to the innermost context. -/
def deliver (v : JsonValue) : List JsonContext → JsonMachine
  | [] => { expectation := .nothing v }
  | .array items :: outer =>
      { contexts := .array (items.push v) :: outer, expectation := .separator }
  | .object fields key :: outer =>
      { contexts := .object (Table.insert key v fields) key :: outer
        expectation := .separator }

/-- One more context. -/
def enter (context : JsonContext) (expectation : JsonExpectation) (contexts : List JsonContext) :
    Except JsonFault JsonMachine :=
  if contexts.length < jsonDepth then .ok { contexts := context :: contexts, expectation }
  else .error (.limit .nestingTooDeep)

/-- A token where a value may start. -/
def startValue (contexts : List JsonContext) : JsonToken → Except JsonFault JsonMachine
  | .scalar v => .ok (deliver v contexts)
  | .longInteger => .error (.limit .integerTooLong)
  | .leftBracket => enter (.array #[]) .valueOrEnd contexts
  | .leftBrace => enter (.object [] []) .keyOrEnd contexts
  | _ => .error .malformed

/-- A token where a key has to stand. -/
def startKey : List JsonContext → JsonToken → Except JsonFault JsonMachine
  | .object fields _ :: outer, .scalar (.string key) =>
      .ok { contexts := .object fields key :: outer, expectation := .colon }
  | _, _ => .error .malformed

/-- One more token. -/
def step (m : JsonMachine) (token : JsonToken) : Except JsonFault JsonMachine :=
  match m.expectation, token, m.contexts with
  | .valueOrEnd, .rightBracket, .array items :: outer => .ok (deliver (.array items.toList) outer)
  | .value, _, _ | .valueOrEnd, _, _ => startValue m.contexts token
  | .keyOrEnd, .rightBrace, .object fields _ :: outer => .ok (deliver (.object fields) outer)
  | .key, _, _ | .keyOrEnd, _, _ => startKey m.contexts token
  | .colon, .colon, _ => .ok { m with expectation := .value }
  | .separator, .comma, .array _ :: _ => .ok { m with expectation := .value }
  | .separator, .comma, .object _ _ :: _ => .ok { m with expectation := .key }
  | .separator, .rightBracket, .array items :: outer => .ok (deliver (.array items.toList) outer)
  | .separator, .rightBrace, .object fields _ :: outer => .ok (deliver (.object fields) outer)
  | _, _, _ => .error .malformed

/-- The value after all tokens. -/
def finish (m : JsonMachine) : Except JsonFault JsonValue :=
  match m.expectation with
  | .nothing v => .ok v
  | _ => .error .malformed

end JsonMachine

/-- The value that a text writes. -/
def JsonValue.parse (text : Text) : Except JsonFault JsonValue := do
  let m ← (JsonToken.ofText text).foldlM JsonMachine.step {}
  m.finish

end SmallLisp
