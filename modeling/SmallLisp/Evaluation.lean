import SmallLisp.Primitive.Application
/-!
Evaluation of expressions in a store of frames.

An evaluation keeps the store that it has made so far when it fails.  `evaluate` has a depth, which
bounds how deep evaluations may be nested, and lists in what they show, trace and compare.  The
rules themselves are in `evaluateStep`, which takes the evaluation of parts and the view of values
as parameters.
-/

namespace SmallLisp

/-- A computation on the store that may fail.  The store is kept in both cases. -/
abbrev Evaluation := EStateM Failure Store

/-- How deep evaluations may be nested in each other.  What is left in the outermost one is the
limit for showing and comparing. -/
def evaluationDepth : Nat := nestingLimit + 1

namespace Evaluation

/-- A result that depends on the store and leaves it unchanged. -/
def observe {α : Type} (f : Store → Except Failure α) : Evaluation α := fun s =>
  match f s with
  | .ok a => .ok a s
  | .error e => .error e s

/-- A failure by a fault that shows no value. -/
def fail {α : Type} (fault : Fault) : Evaluation α :=
  throw (.fault fault)

/-- A failure by a fault that shows a value. -/
def failOn {α : Type} (view : Store → View) (v : Value) (fault : Text → Fault) : Evaluation α :=
  observe fun s => failShowing (view s) v fault

end Evaluation

open Evaluation

/-- The forms that are not calls. -/
inductive SpecialForm
  | quote | define | lambda | conditional
deriving DecidableEq, Repr

/-- The special form that a head symbol introduces. -/
def SpecialForm.ofName? (name : Text) : Option SpecialForm :=
  if name = "quote" then some .quote
  else if name = "define" then some .define
  else if name = "lambda" then some .lambda
  else if name = "if" then some .conditional
  else none

/-- One line of the trace: a label and the tagged text of a value. -/
def trace (view : Store → View) (tracing : Bool) (label : Text) (v : Value) : Evaluation Unit := do
  if tracing then
    let text ← observe fun s => (view s).detailed v
    modify (·.record (label ++ text))

/-- The names that a list of parameters consists of. -/
def parameterNames (view : Store → View) : List Value → Evaluation (List Text)
  | [] => pure []
  | .symbol name :: rest => do return name :: (← parameterNames view rest)
  | v :: _ => failOn view v .lambdaParameter

/-- The frame of a call of a closure: a child of the frame in which the closure was made, with the
parameters bound to the arguments from left to right. -/
def extendFrame (identity : Nat) (formals : List Text) (body : Value) (frame : FrameId)
    (args : List Value) : Evaluation FrameId := do
  if args.length = formals.length then
    let f := (← get).nextFrame
    modify (·.push (Frame.defineAll { parent := some frame } (formals.zip args)))
    return f
  else
    let name := Value.functionName (← get) (.closure identity formals body frame)
    fail (.argumentCount name formals.length false args.length)

/-- A value with an identity of its own, if it is a list that has none. -/
def identify (v : Value) : Evaluation Value := do
  let identity := (← get).nextIdentity
  modify (·.takeIdentity)
  return v.identified identity

section Rules

variable (view : Store → View) (eval : Value → FrameId → Evaluation Value) (tracing : Bool)

/-- The call of a value on evaluated arguments.  A list that a primitive makes gets an identity. -/
def applyWith (function : Value) (args : List Value) : Evaluation Value :=
  match function with
  | .closure identity formals body frame => do
      let f ← extendFrame identity formals body frame args
      trace view tracing "Applying: " function
      eval body f
  | .primitive _ p => do
      let v ← observe fun s => p.applyWith (view s) args
      identify v
  | _ => failOn view function .notAFunction

/-- The values of expressions, from left to right. -/
def evaluateArguments (f : FrameId) : List Value → Evaluation (List Value)
  | [] => pure []
  | e :: rest => do
      let v ← eval e f
      let vs ← evaluateArguments f rest
      return v :: vs

/-- The value of a special form with the given parts after its name. -/
def SpecialForm.evaluateWith (form : SpecialForm) (parts : List Value) (f : FrameId) :
    Evaluation Value :=
  match form with
  | .quote =>
      match parts with
      | [datum] => pure datum
      | _ => fail (.quoteParts parts.length)
  | .define =>
      match parts with
      | .symbol name :: e :: _ => do
          let v ← eval e f
          modify (·.define f name v)
          return v
      | target :: _ :: _ => failOn view target .defineTarget
      | _ => fail .defineIncomplete
  | .lambda =>
      match parts with
      | [.list parameters _, body] => do
          let formals ← parameterNames view parameters
          let identity := (← get).nextIdentity
          modify (·.takeIdentity)
          return .closure identity formals body f
      | [parameters, _] => failOn view parameters .lambdaParameters
      | _ => fail (.lambdaParts parts.length)
  | .conditional =>
      match parts with
      | [test, consequent, alternate] => do
          let t ← eval test f
          eval (if t.isTrue then consequent else alternate) f
      | _ => fail .ifParts

/-- The value of a call: the head is evaluated first and has to be a function, then the arguments
from left to right, then the function is applied. -/
def evaluateCall (head : Value) (parts : List Value) (f : FrameId) : Evaluation Value := do
  let function ← eval head f
  if function.isFunction then
    let args ← evaluateArguments eval f parts
    applyWith view eval tracing function args
  else failOn view function .notAFunction

/-- The special form that a head introduces, if it is the name of one. -/
def specialHead? : Value → Option SpecialForm
  | .symbol name => SpecialForm.ofName? name
  | _ => none

/-- The value of a list as an expression.  A special form is one whatever its name is bound to. -/
def evaluateList (f : FrameId) : List Value → Evaluation Value
  | [] => fail .emptyListEvaluated
  | head :: parts =>
      match specialHead? head with
      | some form => form.evaluateWith view eval parts f
      | none => evaluateCall view eval tracing head parts f

/-- The value of an expression, with the evaluation of its parts given. -/
def evaluateStep (e : Value) (f : FrameId) : Evaluation Value := do
  trace view tracing "Evaluating: " e
  match e with
  | .list items _ => evaluateList view eval tracing f items
  | .symbol name => observe fun s => s.lookup f name
  | .integer _ | .boolean _ | .primitive .. | .closure .. => pure e
  | .foreign text => fail (.notAnExpression (foreignText text))

end Rules

/-- The value of an expression in a frame, with evaluations nested at most `depth` deep.  What is
left of the depth bounds the lists that are shown, traced or compared. -/
def evaluate (tracing : Bool) : (depth : Nat) → Value → FrameId → Evaluation Value
  | 0 => fun _ _ => throw .nestingTooDeep
  | depth + 1 => evaluateStep (Store.view depth) (evaluate tracing depth) tracing

/-- The value of an expression at the full depth. -/
def evaluateIn (tracing : Bool) (e : Value) (f : FrameId) : Evaluation Value :=
  evaluate tracing evaluationDepth e f

/-- The call of a value on evaluated arguments, the body at the full depth. -/
def apply (tracing : Bool) (function : Value) (args : List Value) : Evaluation Value :=
  applyWith (Store.view evaluationDepth) (evaluate tracing evaluationDepth) tracing function args

/-- The nearest frame of the chain that binds a datum.  A datum that is no symbol is bound nowhere,
but one that is nested too deep cannot be looked for. -/
def findDatum (f : FrameId) (name : Value) : Evaluation (Option FrameId) :=
  match name with
  | .symbol text => observe fun s => .ok (s.find? f text)
  | _ => if name.isNestedWithin nestingLimit then pure none else throw .nestingTooDeep

/-- The value of a datum as a name. -/
def lookupDatum (f : FrameId) (name : Value) : Evaluation Value := do
  match name with
  | .symbol text => observe fun s => s.lookup f text
  | _ =>
      discard (findDatum f name)
      failOn (Store.view nestingLimit) name .unboundVariable

/-- A binding made from outside the language, under a datum that has to be a symbol. -/
def defineDatum (f : FrameId) (name v : Value) : Evaluation Unit :=
  match name with
  | .symbol name => modify (·.define f name v)
  | _ => failOn (Store.view nestingLimit) name .notASymbol

/-- An assignment made from outside the language to a name that the frame can see. -/
def assignDatum (f : FrameId) (name v : Value) : Evaluation Unit := do
  match name with
  | .symbol text =>
      match (← get).set? f text v with
      | some s => set s
      | none => failOn (Store.view nestingLimit) name .unboundAssignment
  | _ =>
      discard (findDatum f name)
      failOn (Store.view nestingLimit) name .unboundAssignment

/-- A table of data with one more pair.  A key that is nested too deep cannot be looked for. -/
def insertDatum (key v : Value) (table : Table Value Value) : Except Failure (Table Value Value) :=
  if key.isNestedWithin nestingLimit then .ok (table.insert key v) else .error .nestingTooDeep

/-- The bindings of a table of data, made one after the other. -/
def defineTable (f : FrameId) (table : Table Value Value) : Evaluation Unit :=
  table.forM fun (key, v) => defineDatum f key v

end SmallLisp
