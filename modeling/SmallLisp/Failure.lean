import SmallLisp.Text
/-!
Why reading, evaluating and rendering stop.

A `Fault` is an error that the language defines: it has a kind and a message, and the front ends
report it.  A `Failure` is a fault or one of the limits under which everything runs.
-/

namespace SmallLisp

/-- The kinds of errors that the language defines. -/
inductive FaultKind
  | unreadable
  | invalidSymbol
  | unbound
  | emptyList
  | malformedForm
  | notAFunction
  | arity
  | wrongType
  | zeroDivision
deriving DecidableEq, Repr

/-- The name of a kind of error in reports. -/
def FaultKind.label : FaultKind → Text
  | .unreadable => "MinirackSyntaxError"
  | .invalidSymbol => "MinirackInvalidSymbol"
  | .unbound => "MinirackUnboundVariable"
  | .emptyList => "MinirackEmptyListEvaluation"
  | .malformedForm => "MinirackMalformedForm"
  | .notAFunction => "MinirackNotAFunction"
  | .arity => "MinirackArityError"
  | .wrongType => "MinirackTypeError"
  | .zeroDivision => "MinirackZeroDivisionError"

/-- The errors that the language defines, by cause.  A field `shown` is the display text of the
value at fault. -/
inductive Fault
  /-- A character that starts no token, and its offset. -/
  | unexpectedCharacter (offset : Nat) (character : CodePoint)
  /-- An atom that starts with a hash sign and is no literal. -/
  | unknownLiteral (text : Text)
  /-- A quote mark at the end of the text. -/
  | nothingQuoted
  /-- An opening bracket that nothing closes. -/
  | unclosed (opener : Text)
  /-- A closing bracket of the wrong shape. -/
  | mismatched (opener expected found : Text)
  /-- A closing bracket that closes nothing. -/
  | strayCloser (closer : Text)
  /-- A token of a kind that the reader does not know. -/
  | unknownToken (kind text : Text)
  /-- A definition under something that is not a symbol. -/
  | notASymbol (shown : Text)
  | unboundVariable (shown : Text)
  /-- An assignment to a name that no frame binds. -/
  | unboundAssignment (shown : Text)
  | emptyListEvaluated
  | defineIncomplete
  | defineTarget (shown : Text)
  | ifParts
  | lambdaParts (count : Nat)
  | lambdaParameters (shown : Text)
  | lambdaParameter (shown : Text)
  | quoteParts (count : Nat)
  | notAFunction (shown : Text)
  /-- A call with too few or too many arguments. -/
  | argumentCount (function : Text) (expected : Nat) (orMore : Bool) (given : Nat)
  /-- An operation on integers that meets something else. -/
  | integersExpected (operation shown : Text)
  | listExpected (operation shown : Text)
  | nonEmptyListExpected (operation shown : Text)
  /-- A list whose rest is not a list. -/
  | improperTail (shown : Text)
  /-- A datum that is no expression. -/
  | notAnExpression (shown : Text)
  | divisionByZero (operation : Text)
deriving DecidableEq, Repr

/-- The kind of an error. -/
def Fault.kind : Fault → FaultKind
  | .unexpectedCharacter .. | .unknownLiteral .. | .nothingQuoted | .unclosed .. | .mismatched ..
  | .strayCloser .. | .unknownToken .. => .unreadable
  | .notASymbol .. => .invalidSymbol
  | .unboundVariable .. | .unboundAssignment .. => .unbound
  | .emptyListEvaluated => .emptyList
  | .defineIncomplete | .defineTarget .. | .ifParts | .lambdaParts .. | .lambdaParameters ..
  | .lambdaParameter .. | .quoteParts .. => .malformedForm
  | .notAFunction .. => .notAFunction
  | .argumentCount .. => .arity
  | .integersExpected .. | .listExpected .. | .nonEmptyListExpected .. | .improperTail ..
  | .notAnExpression .. => .wrongType
  | .divisionByZero .. => .zeroDivision

/-- The wording of an error. -/
def Fault.message : Fault → Text
  | .unexpectedCharacter offset c => s!"Unexpected char at {offset}: '" ++ [c] ++ "'"
  | .unknownLiteral text => "Unknown literal: " ++ text
  | .nothingQuoted => "Expected an expression after quote"
  | .unclosed opener => "Unmatched '" ++ opener ++ "'"
  | .mismatched opener expected found =>
      "Expected '" ++ expected ++ "' to close '" ++ opener ++ "', got '" ++ found ++ "'"
  | .strayCloser closer => "Unexpected '" ++ closer ++ "'"
  | .unknownToken kind text => "Unknown token: " ++ kind ++ " " ++ text
  | .notASymbol shown => "Cannot define " ++ shown ++ " as a symbol"
  | .unboundVariable shown => "Unbound variable: " ++ shown
  | .unboundAssignment shown => "Cannot set unbound variable " ++ shown
  | .emptyListEvaluated => "Can't evaluate the empty list: ()"
  | .defineIncomplete => "define requires a name and an expression"
  | .defineTarget shown => "define target must be a symbol, got " ++ shown
  | .ifParts => "if requires a test, a consequent and an alternate"
  | .lambdaParts count =>
      s!"lambda requires a parameter list and a single body, got {count} parts"
  | .lambdaParameters shown => "lambda parameters must be a list, got " ++ shown
  | .lambdaParameter shown => "lambda parameter must be a symbol, got " ++ shown
  | .quoteParts count => s!"quote expects exactly 1 argument, got {count}"
  | .notAFunction shown => "Can't call " ++ shown ++ " as a function"
  | .argumentCount function expected orMore given =>
      "Wrong number of arguments to " ++ function ++ ": expected "
        ++ (if orMore then "at least " else "") ++ s!"{expected}, got {given}"
  | .integersExpected operation shown => operation ++ " expects integers, got " ++ shown
  | .listExpected operation shown => operation ++ " expects a list, got " ++ shown
  | .nonEmptyListExpected operation shown =>
      operation ++ " expects a non-empty list, got " ++ shown
  | .improperTail shown => "The cdr of a pair must be a list, got " ++ shown
  | .notAnExpression shown => "Cannot evaluate " ++ shown
  | .divisionByZero operation => operation ++ ": division by zero"

/-- An error as the front ends report it: its kind and its wording. -/
def Fault.report (fault : Fault) : Text :=
  fault.kind.label ++ ": " ++ fault.message

/-- Why a step of the system stops without a result. -/
inductive Failure
  /-- An error that the language defines. -/
  | fault (fault : Fault)
  /-- Source, evaluation or a value nested beyond the limit. -/
  | nestingTooDeep
  /-- An integer with more digits than a decimal text may have. -/
  | integerTooLong
  /-- A symbol without a name. -/
  | emptyName
  /-- An opening token that is not a bracket. -/
  | unknownBracket
  /-- A place outside its text or its line. -/
  | outsideText
  /-- Bytes that are not the UTF-8 encoding of a text. -/
  | notUtf8
  /-- A path with a null character in it. -/
  | nullInPath
  /-- A path with a surrogate in it that stands for no byte. -/
  | surrogateInPath
  /-- A path in which a name, or the whole, is too long. -/
  | pathTooLong
  /-- An argument that the arity check should have demanded. -/
  | missingArgument
deriving DecidableEq, Repr

example : (Fault.argumentCount "f" 2 true 1).report
    = "MinirackArityError: Wrong number of arguments to f: expected at least 2, got 1" := by
  decide +kernel

end SmallLisp
