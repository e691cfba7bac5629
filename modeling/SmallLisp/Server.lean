import SmallLisp.Json.Reading
import SmallLisp.Session
/-!
The evaluation server: requests and answers are JSON objects, one on a line.

All requests of all clients are evaluated one after the other in one session.
-/

namespace SmallLisp

/-- The answer to a request. -/
inductive Response
  /-- The text of the last value, if there is one. -/
  | result (shown : Option Text)
  | error (text : Text)
deriving DecidableEq, Repr

/-- A response as a line of JSON. -/
def Response.line : Response → Text
  | .result none => "\x7b\"ok\": true, \"result\": null\x7d\n"
  | .result (some shown) => "\x7b\"ok\": true, \"result\": " ++ jsonString shown ++ "\x7d\n"
  | .error text => "\x7b\"ok\": false, \"error\": " ++ jsonString text ++ "\x7d\n"

namespace Server

/-- What a client is told of a failure of its code.  Other failures leave the server.  Of a
`RecursionError` only the name is kept: the text that follows it depends on where the stack ran
out. -/
def errorText? : Failure → Option Text
  | .fault error => some error.report
  | .nestingTooDeep => some "RecursionError"
  | _ => none

/-- What a request line asks for. -/
inductive Order
  | evaluate (code : Text)
  | refuse (reason : Text)

/-- The order of a line that holds no JSON.  The reason that follows these words is left out:
it quotes the decoder in use. -/
def invalidRequest : Order :=
  .refuse "Invalid request"

/-- The order of a request. -/
def orderOf (request : JsonValue) : Order :=
  let command := (request.get? "cmd").getD .null
  if command.isString "eval" then
    match request.get? "code" with
    | none => .evaluate []
    | some (.string code) => .evaluate code
    | some _ => .refuse "Invalid request: code must be a string"
  else .refuse ("Unknown cmd: " ++ command.shown)

/-- The order of a request line in UTF-8. -/
def readOrder (line : ByteArray) : Except Failure Order :=
  match String.fromUTF8? line with
  | none => .ok invalidRequest
  | some text =>
      match JsonValue.parse text with
      | .ok request => .ok (orderOf request)
      | .error .malformed => .ok invalidRequest
      | .error (.limit failure) => .error failure

/-- The response to evaluated code. -/
def respond (result : Except Failure (Option Value)) (store : Store) : Except Failure Response :=
  match result with
  | .ok none => .ok (.result none)
  | .ok (some v) => (v.display store).map fun shown => .result (some shown)
  | .error failure => (errorText? failure).elim (.error failure) fun text => .ok (.error text)

/-- The response to a request line, and the session after it. -/
def handle (line : ByteArray) (session : Session) : Except Failure Response × Session :=
  match readOrder line with
  | .error failure => (.error failure, session)
  | .ok (.refuse reason) => (.ok (.error reason), session)
  | .ok (.evaluate code) =>
      let (result, session) := session.evaluateLast false code
      (respond result session.store, session)

/-- ASCII blanks, which may stand around a request. -/
def isMargin (byte : UInt8) : Bool :=
  byte == 32 || (9 ≤ byte && byte ≤ 13)

/-- A connection: the bytes of the line that has not ended yet. -/
structure Connection where
  pending : List UInt8 := []

/-- The lines that end in a further chunk of bytes, and the connection after it. -/
def Connection.receive (connection : Connection) (chunk : List UInt8) :
    List (List UInt8) × Connection :=
  let pieces := (connection.pending ++ chunk).splitOn 10
  (pieces.dropLast, { pending := pieces.getLast?.getD [] })

/-- What a client has been sent, the failure that ended its connection, and the session. -/
structure Exchange where
  sent : List Response := []
  failure : Option Failure := none
  session : Session

/-- The responses to request lines.  Blank lines have none. -/
def answerLines : List (List UInt8) → Session → Exchange
  | [], session => { session }
  | line :: rest, session =>
      let request := Text.stripBy isMargin line
      if request.isEmpty then answerLines rest session
      else
        match handle ⟨request.toArray⟩ session with
        | (.error failure, session) => { failure := some failure, session }
        | (.ok response, session) =>
            let others := answerLines rest session
            { others with sent := response :: others.sent }

/-- The exchange with a client that sends chunks of bytes. -/
def converse (connection : Connection) : List (List UInt8) → Session → Exchange
  | [], session => { session }
  | chunk :: rest, session =>
      let (lines, next) := connection.receive chunk
      let first := answerLines lines session
      if first.failure.isSome then first
      else
        let others := converse next rest first.session
        { others with sent := first.sent ++ others.sent }

end Server

/-- The text that a client has been sent. -/
def Server.Exchange.text (exchange : Server.Exchange) : Text :=
  exchange.sent.flatMap Response.line

end SmallLisp
