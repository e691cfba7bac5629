import SmallLisp.Arguments
import SmallLisp.Settings
import SmallLisp.Shell
/-!
The command: it loads the prelude, evaluates the given files in order and then starts a shell.

The first file that cannot be opened or evaluated ends the command with code one.
-/

namespace SmallLisp

/-- How the command ends. -/
inductive Ending
  | exit (code : Nat)
  /-- A failure that the command does not report. -/
  | failed (failure : Failure)
deriving DecidableEq, Repr

namespace Command

/-- The greeting of the shell. -/
def greeting : Text := "minirack :: type 'end' to quit"

/-- The lines of a trace as they appear on the error output. -/
def traceText (lines : List Text) : Text :=
  lines.flatMap fun line => "      " ++ line ++ "\n"

/-- The line of a report on the error output, if there is one. -/
def reportText (report : Option Text) : Text :=
  report.elim [] (· ++ "\n")

/-- The evaluation of files: the echoes, and the report or the failure that ended it. -/
structure FileRun where
  events : List ShellEvent := []
  report : Option Text := none
  failure : Option Failure := none
  session : Session

/-- The evaluation of a source text as a file. -/
def runText (tracing : Bool) (source : Text) (session : Session) : FileRun :=
  let (run, session) := session.evaluateAll tracing (fun s v => v.display s) source
  let report := run.failure.bind Failure.report?
  { events := run.results.map ShellEvent.echo
    report
    failure := if report.isSome then none else run.failure
    session }

/-- The evaluation of the file of a given name. -/
def runFile (tracing : Bool) (files : FileSource) (name : Text) (session : Session) : FileRun :=
  let path := Path.ofText name
  if name.byteCount?.isNone then { failure := some .surrogateInPath, session }
  else if name.contains '\x00' then { failure := some .nullInPath, session }
  else
    match files path with
    | .error fault => { report := some (fault.report path), session }
    | .ok bytes =>
        match textOfBytes bytes with
        | .error failure => { failure := some failure, session }
        | .ok source => runText tracing source session

/-- The evaluation of files in order, up to the first that does not succeed. -/
def runFiles (tracing : Bool) (files : FileSource) : List Text → Session → FileRun
  | [], session => { session }
  | name :: rest, session =>
      let first := runFile tracing files name session
      match first.report, first.failure with
      | some text, _ => { first with report := some (name ++ ": " ++ text) }
      | none, some _ => first
      | none, none =>
          let others := runFiles tracing files rest first.session
          { others with events := first.events ++ others.events }

/-- What the command has written, how it ends if it does not go on, and the session. -/
structure Progress where
  stdout : Text := []
  stderr : Text := []
  ending : Option Ending := none
  session : Session

/-- The command up to the point where the shell starts. -/
def prepare (request : Request) (env : Environment) (files : FileSource) : Progress :=
  let tracing := request.debug || env.tracing
  match if request.noPrelude then .ok none else env.prelude files with
  | .error failure => { ending := some (.failed failure), session := .empty }
  | .ok prelude =>
      let (failure, session) := Session.start tracing prelude
      let run : FileRun :=
        if failure.isSome then { failure, session }
        else runFiles tracing files request.files session
      let (trace, session) := run.session.takeLog
      { stdout := ShellEvent.joinedText run.events
        stderr := traceText trace ++ reportText run.report
        ending :=
          match run.failure, run.report with
          | some failure, _ => some (.failed failure)
          | none, some _ => some (.exit 1)
          | none, none => if request.noRepl then some (.exit 0) else none
        session }

/-- The whole command, with the lines of the standard input given. -/
def run (request : Request) (env : Environment) (files : FileSource) (input : List Text) :
    Progress :=
  let before := prepare request env files
  if before.ending.isSome then before
  else
    let tracing := request.debug || env.tracing
    let c := Shell.greetAndConverse tracing (some greeting) input before.session
    let (trace, session) := c.session.takeLog
    { stdout := before.stdout ++ c.output
      stderr := before.stderr ++ traceText trace
      ending := some (c.failure.elim (.exit 0) .failed)
      session }

end Command

end SmallLisp
