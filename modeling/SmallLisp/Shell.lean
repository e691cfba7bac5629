import SmallLisp.Session
/-!
The interactive shell.

Lines are collected until the brackets of the text so far are balanced; then the text is evaluated
and each value is echoed.  A line `end` that does not continue anything, or the end of the input,
ends the conversation.
-/

namespace SmallLisp

/-- What the user is told of a failure.  Failures other than errors of the language and too deep
nesting are not reported: they end the conversation. -/
def Failure.report? : Failure → Option Text
  | .fault error => some error.report
  | .nestingTooDeep => some "MinirackError: maximum recursion depth exceeded"
  | _ => none

/-- What a shell writes. -/
inductive ShellEvent
  /-- A line of greeting. -/
  | greeting (text : Text)
  /-- A request for a line, which may continue the lines before. -/
  | prompt (continuing : Bool)
  /-- A value. -/
  | echo (shown : Text)
  /-- A failure. -/
  | report (text : Text)
  /-- The end of the input. -/
  | farewell
deriving DecidableEq, Repr

/-- An event as text. -/
def ShellEvent.text : ShellEvent → Text
  | .greeting text => text ++ "\n"
  | .prompt continuing => if continuing then "  > " else ">>> "
  | .echo shown => "==> " ++ shown ++ "\n"
  | .report text => text ++ "\n"
  | .farewell => "\n"

/-- Events as text, one after the other. -/
def ShellEvent.joinedText (events : List ShellEvent) : Text :=
  events.flatMap ShellEvent.text

/-- A session and the lines that wait for their brackets to be closed. -/
structure Shell where
  session : Session
  buffer : Text := []

/-- What a shell has written, the session it leaves, and the failure that ended it, if one did. -/
structure Conversation where
  events : List ShellEvent
  failure : Option Failure := none
  session : Session

/-- The text of a conversation. -/
def Conversation.output (c : Conversation) : Text :=
  ShellEvent.joinedText c.events

namespace Shell

/-- The echoes of the values of a text, and the report of the failure that ended it.  A failure
that is not reported is returned. -/
def runSource (tracing : Bool) (source : Text) (session : Session) :
    List ShellEvent × Option Failure × Session :=
  let (run, session) := session.evaluateAll tracing (fun s v => v.display s) source
  let echoes := run.results.map ShellEvent.echo
  match run.failure with
  | none => (echoes, none, session)
  | some failure =>
      match failure.report? with
      | some text => (echoes ++ [.report text], none, session)
      | none => (echoes, some failure, session)

/-- One more line: it waits if brackets are open, else the text so far is evaluated. -/
def enter (shell : Shell) (tracing : Bool) (line : Text) :
    List ShellEvent × Option Failure × Shell :=
  let source := shell.buffer ++ line ++ "\n"
  if needsMore source then ([], none, { shell with buffer := source })
  else
    let (events, failure, session) := runSource tracing source shell.session
    (events, failure, { session })

/-- Whether a line ends the conversation. -/
def endedBy (shell : Shell) (line : Text) : Bool :=
  shell.buffer.isEmpty && line.trim = "end"

/-- The request for the next line. -/
def promptEvent (shell : Shell) : ShellEvent :=
  .prompt !shell.buffer.isEmpty

/-- The conversation over the given lines. -/
def converse (tracing : Bool) : List Text → Shell → Conversation
  | [], shell => { events := [shell.promptEvent, .farewell], session := shell.session }
  | line :: rest, shell =>
      if shell.endedBy line then { events := [shell.promptEvent], session := shell.session }
      else
        match shell.enter tracing line with
        | (events, some failure, next) =>
            { events := shell.promptEvent :: events, failure, session := next.session }
        | (events, none, next) =>
            let c := converse tracing rest next
            { c with events := shell.promptEvent :: events ++ c.events }

/-- The conversation over the given lines, after a greeting unless that is empty. -/
def greetAndConverse (tracing : Bool) (greeting : Option Text) (lines : List Text)
    (session : Session) : Conversation :=
  let c := converse tracing lines { session }
  match greeting with
  | none | some [] => c
  | some text => { c with events := .greeting text :: c.events }

/-- The lines of an input: each ends at a line feed, the last one also at the end. -/
def inputLines (input : Text) : List Text :=
  let pieces := input.splitOn (.scalar '\n')
  if pieces.getLast? = some [] then pieces.dropLast else pieces

/-- A line without the carriage returns at its end. -/
def withoutReturns (line : Text) : Text :=
  Text.stripEndBy (· == .scalar '\r') line

end Shell

end SmallLisp
