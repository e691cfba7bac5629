import SmallLisp.Files
import SmallLisp.Prelude
import SmallLisp.Text.Blank
import SmallLisp.Text.Decimal
/-!
Settings from environment variables: where the prelude lies, whether evaluation is traced, and the
address of the server.
-/

namespace SmallLisp

/-- The environment variables that matter. -/
structure Environment where
  preludePath : Option Text := none
  debug : Option Text := none
  host : Option Text := none
  port : Option Text := none

/-- A place to look for the prelude. -/
inductive PreludeRoot
  | bundled
  | directory (path : Path)
deriving DecidableEq, Repr

/-- The file name of a prelude. -/
def preludeFile : Text := "core.rkt"

namespace Environment

/-- The names of the variables. -/
def names : List Text :=
  ["MINIRACK_PRELUDE_PATH", "MINIRACK_DEBUG", "MINIRACK_REPL_HOST", "MINIRACK_REPL_PORT"]

/-- The environment, given the value of each variable. -/
def ofLookup (lookup : Text → Option Text) : Environment :=
  { preludePath := lookup "MINIRACK_PRELUDE_PATH"
    debug := lookup "MINIRACK_DEBUG"
    host := lookup "MINIRACK_REPL_HOST"
    port := lookup "MINIRACK_REPL_PORT" }

/-- The value of a variable that is set to something. -/
def nonEmpty? (value : Option Text) : Option Text :=
  value.filter (!·.isEmpty)

/-- The paths of a list with colons between them.  Blank ones do not count. -/
def pathsOf (text : Text) : List Path :=
  let pieces := (text.splitOn (.scalar ':')).map Text.trim
  (pieces.filter (!·.isEmpty)).map Path.ofText

/-- The paths in a variable, or the defaults where it is not set. -/
def pathsOr (value : Option Text) (defaults : List Path) : List Path :=
  (nonEmpty? value).elim defaults pathsOf

/-- The places to look for the prelude, in order. -/
def preludeRoots (env : Environment) : List PreludeRoot :=
  (nonEmpty? env.preludePath).elim [.bundled] fun text =>
    (pathsOf text).map PreludeRoot.directory

/-- Whether evaluation is traced. -/
def tracing (env : Environment) : Bool :=
  let value := (env.debug.getD []).trim.map CodePoint.toLower
  (["1", "true", "yes", "on"] : List Text).contains value

/-- The digits of an integer that may have single underscores between them. -/
def digitsOf? : Text → Option (Text)
  | [] => none
  | [c] => if Text.isDigit c then some [c] else none
  | c :: .scalar '_' :: rest => if Text.isDigit c then (digitsOf? rest).map (c :: ·) else none
  | c :: rest => if Text.isDigit c then (digitsOf? rest).map (c :: ·) else none

/-- Blank characters, the four information separators excepted. -/
def isMargin (c : CodePoint) : Bool :=
  Text.isBlank c && !(0x1C ≤ c.toNat && c.toNat ≤ 0x1F)

/-- The integer in a setting, or none if the text is not that of an integer. -/
def integerOf? (text : Text) : Option Int := do
  let (negative, rest) := Text.splitSign (Text.stripBy isMargin text)
  let digits ← digitsOf? rest
  if digits.length ≤ Text.maxDigits then
    some (Text.signed negative (Text.valueOfDigits digits))
  else none

/-- The host and the port of the server; no port if the variable holds no integer. -/
def address (env : Environment) : Text × Option Int :=
  ((nonEmpty? env.host).getD "127.0.0.1", (nonEmpty? env.port).elim (some 8765) integerOf?)

/-- Whether there is a file at a path.  A path that is too long is a failure. -/
def isFile (source : FileSource) (path : Path) : Except Failure Bool :=
  match source path with
  | .ok _ => .ok true
  | .error .nameTooLong => .error .pathTooLong
  | .error _ => .ok false

/-- The first of several places where the prelude is. -/
def firstPrelude (source : FileSource) : List PreludeRoot → Except Failure (Option PreludeRoot)
  | [] => .ok none
  | .bundled :: _ => .ok (some .bundled)
  | .directory path :: rest => do
      if ← isFile source (path.child preludeFile) then return some (.directory path)
      else firstPrelude source rest

/-- The place where the prelude is found first. -/
def preludeRoot (env : Environment) (source : FileSource) : Except Failure (Option PreludeRoot) :=
  firstPrelude source env.preludeRoots

/-- The source of the prelude, if there is one. -/
def prelude (env : Environment) (source : FileSource) : Except Failure (Option Text) := do
  match ← env.preludeRoot source with
  | none => return none
  | some .bundled => return some bundledPrelude
  | some (.directory path) =>
      match source (path.child preludeFile) with
      | .ok bytes => (textOfBytes bytes).map some
      | .error _ => return none

example : integerOf? " +1_0 " = some 10 := by decide +kernel

example : integerOf? "1__0" = none := by decide +kernel

end Environment

end SmallLisp
