import SmallLisp.CommandLine
/-!
The command as a program: files, environment variables and the terminal.
-/

namespace SmallLisp.Terminal

/-- How the command is called. -/
def usage : String :=
  "usage: minirack [-h] [--debug] [--no-prelude] [--no-repl] [files ...]"

/-- The fault of a file that the operating system does not open. -/
def faultOf : IO.Error → FileFault
  | .inappropriateType _ code _ => if code == 21 then .isADirectory else .notADirectory
  | .illegalOperation code _ => if code == 21 then .isADirectory else .missing
  | .invalidArgument _ code _ => if code == 36 then .nameTooLong else .missing
  | _ => .missing

/-- The outcome of opening the file at a path. -/
def fetch (path : Path) : IO (Path × Except FileFault ByteArray) := do
  try
    return (path, .ok (← IO.FS.readBinFile path.text.lossyString))
  catch e => return (path, .error (faultOf e))

/-- The paths that a request may open. -/
def pathsOf (request : Request) (env : Environment) : List Path :=
  let preludes := env.preludeRoots.filterMap fun root =>
    match root with
    | .bundled => none
    | .directory path => some (path.child preludeFile)
  preludes ++ request.files.map Path.ofText

/-- What a failure that the command does not report says at last. -/
def lastWords : Failure → Text
  | .fault fault => fault.report
  | .nestingTooDeep => "nested too deep"
  | .integerTooLong => "an integer has too many digits"
  | .emptyName => "a symbol has no name"
  | .unknownBracket => "a bracket is not known"
  | .outsideText => "a place lies outside its text"
  | .notUtf8 => "a file is not text in UTF-8"
  | .nullInPath => "a path has a null character"
  | .surrogateInPath => "a path has a surrogate"
  | .pathTooLong => "a path is too long"
  | .missingArgument => "an argument is missing"

/-- The code with which the program ends. -/
def finish (ending : Ending) : IO UInt32 := do
  match ending with
  | .exit code => return code.toUInt32
  | .failed failure =>
      IO.eprintln (lastWords failure).lossyString
      return 1

/-- The rest of a conversation with the user. -/
partial def converse (tracing : Bool) (shell : Shell) : IO UInt32 := do
  let stdout ← IO.getStdout
  stdout.putStr shell.promptEvent.text.lossyString
  stdout.flush
  let input ← (← IO.getStdin).getLine
  if input.isEmpty then
    stdout.putStr ShellEvent.farewell.text.lossyString
    return 0
  let line := (Shell.inputLines input).headD []
  if shell.endedBy line then return 0
  let (events, failure, next) := shell.enter tracing line
  stdout.putStr (ShellEvent.joinedText events).lossyString
  let (trace, session) := next.session.takeLog
  IO.eprint (Command.traceText trace).lossyString
  match failure with
  | some failure => finish (.failed failure)
  | none => converse tracing { next with session }

/-- A request carried out. -/
def run (request : Request) : IO UInt32 := do
  let values ← Environment.names.mapM fun name => return (name, ← IO.getEnv name.lossyString)
  let env := Environment.ofLookup fun name => (values.lookup name).join.map Text.ofString
  let fetched ← (pathsOf request env).mapM fetch
  let files : FileSource := fun path => (fetched.lookup path).getD (.error .missing)
  let progress := Command.prepare request env files
  IO.print progress.stdout.lossyString
  IO.eprint progress.stderr.lossyString
  match progress.ending with
  | some ending => finish ending
  | none =>
      IO.println Command.greeting.lossyString
      converse (request.debug || env.tracing) { session := progress.session }

end SmallLisp.Terminal

open SmallLisp in
/-- The program. -/
def main (arguments : List String) : IO UInt32 := do
  match Invocation.ofArguments (arguments.map Text.ofString) with
  | .run request => Terminal.run request
  | .help =>
      IO.println Terminal.usage
      return 0
  | .misuse =>
      IO.eprintln Terminal.usage
      return 2
