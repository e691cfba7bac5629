import SmallLisp.Text.Decimal
/-!
Command line arguments.

A flag may be cut short as long as one flag alone starts that way.  File names stand together in
one place; after `--` everything is a file name.
-/

namespace SmallLisp

/-- What the arguments ask for. -/
structure Request where
  files : List Text := []
  debug : Bool := false
  noPrelude : Bool := false
  noRepl : Bool := false
deriving DecidableEq, Repr

/-- The flags. -/
inductive Flag
  | help | debug | noPrelude | noRepl
deriving DecidableEq, Repr

/-- The names of the flags. -/
def Flag.names : List (Text × Flag) :=
  [("-h", .help), ("--help", .help), ("--debug", .debug), ("--no-prelude", .noPrelude),
   ("--no-repl", .noRepl)]

/-- The outcome of reading the arguments. -/
inductive Invocation
  | run (request : Request)
  | help
  | misuse
deriving DecidableEq, Repr

/-- What a single argument is. -/
inductive Argument
  | file
  /-- A flag, and whether a value is attached to it. -/
  | switch (flag : Flag) (valued : Bool)
  /-- A flag that is not known. -/
  | unknown
  /-- The start of several flags. -/
  | ambiguous
  /-- The mark `--` after which everything is a file name. -/
  | separator
deriving DecidableEq, Repr

namespace Argument

/-- Whether a text is a negative number, with or without a fraction. -/
def isNegativeNumber (text : Text) : Bool :=
  let text := if text.getLast? = some (.scalar '\n') then text.dropLast else text
  match text with
  | .scalar '-' :: digits =>
      let whole := digits.takeWhile Text.isDigit
      match digits.dropWhile Text.isDigit with
      | [] => !whole.isEmpty
      | .scalar '.' :: fraction => !fraction.isEmpty && fraction.all Text.isDigit
      | _ => false
  | _ => false

/-- Whether what is attached to the short flag only repeats the flag. -/
def repeatsShortFlag (attached : Text) : Bool :=
  !attached.isEmpty && attached.all (· == .scalar 'h')

/-- The flags that a text starts, up to an equals sign, as the flag and whether a value follows. -/
def candidates (text : Text) : List (Flag × Bool) :=
  let name := text.takeWhile (· != .scalar '=')
  match text with
  | .scalar '-' :: .scalar '-' :: _ =>
      let matching := Flag.names.filter fun (flagName, _) => name.isPrefixOf flagName
      matching.map fun (_, flag) => (flag, text.contains '=')
  | .scalar '-' :: .scalar 'h' :: attached => [(.help, !repeatsShortFlag attached)]
  | _ => []

/-- What an argument before any `--` is. -/
def classify (text : Text) : Argument :=
  let name := text.takeWhile (· != .scalar '=')
  match text with
  | [.scalar '-', .scalar '-'] => .separator
  | .scalar '-' :: .scalar 'h' :: .scalar '=' :: attached =>
      .switch .help (!repeatsShortFlag attached)
  | .scalar '-' :: _ :: _ =>
      match Flag.names.lookup (name), candidates text with
      | some flag, _ => .switch flag (text.contains '=')
      | none, [(flag, valued)] => .switch flag valued
      | none, _ :: _ :: _ => .ambiguous
      | none, [] =>
          if isNegativeNumber text || text.contains ' ' then .file else .unknown
  | _ => .file

/-- What the arguments are, each with its text. -/
def classifyAll : List Text → List (Argument × Text)
  | [] => []
  | argument :: rest =>
      match classify argument with
      | .separator => (.separator, argument) :: rest.map fun text => (.file, text)
      | kind => (kind, argument) :: classifyAll rest

end Argument

namespace Invocation

/-- A request with one more flag. -/
def setFlag (request : Request) : Flag → Request
  | .help => request
  | .debug => { request with debug := true }
  | .noPrelude => { request with noPrelude := true }
  | .noRepl => { request with noRepl := true }

/-- Where the file names are: not met yet, being met, or past. -/
inductive FilesState
  | before | within | past
deriving DecidableEq, Repr

/-- The request that classified arguments make; `sound` says that nothing so far is misuse. -/
def collect (request : Request) (state : FilesState) (sound : Bool) :
    List (Argument × Text) → Invocation
  | [] => if sound then .run request else .misuse
  | (kind, text) :: rest =>
      match kind with
      | .ambiguous => .misuse
      | .unknown =>
          collect request (if state = .within then .past else state) false rest
      | .switch _ true => .misuse
      | .switch .help false => .help
      | .switch flag false =>
          collect (setFlag request flag) (if state = .within then .past else state) sound rest
      | .separator => collect request (if state = .past then .past else .within)
          (sound && state != .past) rest
      | .file => collect { request with files := request.files ++ [text] }
          (if state = .past then .past else .within) (sound && state != .past) rest

/-- The invocation that arguments make. -/
def ofArguments (arguments : List Text) : Invocation :=
  let classified := Argument.classifyAll arguments
  if classified.any (·.1 == .ambiguous) then .misuse
  else collect {} .before true classified

example : ofArguments ["--no-r", "a", "--", "--debug"]
    = .run { files := ["a", "--debug"], noRepl := true } := by decide +kernel

example : ofArguments ["a", "--debug", "b"] = .misuse := by decide +kernel

example : ofArguments ["-hh"] = .help ∧ ofArguments ["-hx"] = .misuse := by decide +kernel

end Invocation

end SmallLisp
