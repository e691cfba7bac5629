import SmallLisp.Proofs.Evaluation.Outcome
import SmallLisp.Proofs.Limit
/-!
The rules of evaluation as a relation, without any limit on depth.

A derivation relates an expression, a frame and a store to a result and the store that is left.
There is no rule for what never ends.
-/

namespace SmallLisp

/-- The failure of a rule that words a message about a value: if an integer in the value has too
many digits, there is no message. -/
def Value.blame (s : Store) (v : Value) (fault : Text → Fault) : Failure :=
  match v.text? s with
  | some text => .fault (fault text)
  | none => .integerTooLong

mutual

/-- `Evaluates e f s r s'`: the evaluation of `e` in frame `f`, begun in store `s`, ends with the
result `r` and leaves store `s'`. -/
inductive Evaluates : Value → FrameId → Store → Except Failure Value → Store → Prop
  | bound {name : Text} {v : Value} {f : FrameId} {s : Store} :
      s.lookup? f name = some v → Evaluates (.symbol name) f s (.ok v) s
  | unbound {name : Text} {f : FrameId} {s : Store} : s.lookup? f name = none →
      Evaluates (.symbol name) f s (.error (.fault (.unboundVariable name))) s
  | integer (n : Int) (f : FrameId) (s : Store) :
      Evaluates (.integer n) f s (.ok (.integer n)) s
  | boolean (b : Bool) (f : FrameId) (s : Store) :
      Evaluates (.boolean b) f s (.ok (.boolean b)) s
  | primitive (identity : Nat) (p : Primitive) (f : FrameId) (s : Store) :
      Evaluates (.primitive identity p) f s (.ok (.primitive identity p)) s
  | closure (identity : Nat) (formals : List Text) (body : Value) (frame f : FrameId) (s : Store) :
      Evaluates (.closure identity formals body frame) f s
        (.ok (.closure identity formals body frame)) s
  | foreign (text : Option Text) (f : FrameId) (s : Store) :
      Evaluates (.foreign text) f s (.error (.fault (.notAnExpression (foreignText text)))) s
  | emptyList (identity : Option Nat) (f : FrameId) (s : Store) :
      Evaluates (.list [] identity) f s (.error (.fault .emptyListEvaluated)) s
  | quote (datum : Value) (identity : Option Nat) (f : FrameId) (s : Store) :
      Evaluates (.list [.symbol "quote", datum] identity) f s (.ok datum) s
  | quoteParts {parts : List Value} (identity : Option Nat) (f : FrameId) (s : Store) :
      parts.length ≠ 1 → Evaluates (.list (.symbol "quote" :: parts) identity) f s
        (.error (.fault (.quoteParts parts.length))) s
  | define {name : Text} {e v : Value} (rest : List Value) (identity : Option Nat) {f : FrameId}
      {s s' : Store} : Evaluates e f s (.ok v) s' →
      Evaluates (.list (.symbol "define" :: .symbol name :: e :: rest) identity) f s (.ok v)
        (s'.define f name v)
  | defineFails {name : Text} {e : Value} {failure : Failure} (rest : List Value)
      (identity : Option Nat) {f : FrameId} {s s' : Store} :
      Evaluates e f s (.error failure) s' →
      Evaluates (.list (.symbol "define" :: .symbol name :: e :: rest) identity) f s
        (.error failure) s'
  | defineTarget {target : Value} (e : Value) (rest : List Value) (identity : Option Nat)
      (f : FrameId) (s : Store) : (∀ name, target ≠ .symbol name) →
      Evaluates (.list (.symbol "define" :: target :: e :: rest) identity) f s
        (.error (target.blame s .defineTarget)) s
  | defineIncomplete {parts : List Value} (identity : Option Nat) (f : FrameId) (s : Store) :
      parts.length < 2 → Evaluates (.list (.symbol "define" :: parts) identity) f s
        (.error (.fault .defineIncomplete)) s
  | lambda (names : List Text) (body : Value) (identity identity' : Option Nat) (f : FrameId)
      (s : Store) :
      Evaluates (.list [.symbol "lambda", .list (names.map .symbol) identity', body] identity) f s
        (.ok (.closure s.nextIdentity names body f)) s.takeIdentity
  | lambdaParameter (names : List Text) {v : Value} (rest : List Value) (body : Value)
      (identity identity' : Option Nat) (f : FrameId) (s : Store) : (∀ name, v ≠ .symbol name) →
      Evaluates (.list [.symbol "lambda", .list (names.map .symbol ++ v :: rest) identity', body]
        identity) f s (.error (v.blame s .lambdaParameter)) s
  | lambdaParameters {parameters : Value} (body : Value) (identity : Option Nat) (f : FrameId)
      (s : Store) : (∀ items identity', parameters ≠ .list items identity') →
      Evaluates (.list [.symbol "lambda", parameters, body] identity) f s
        (.error (parameters.blame s .lambdaParameters)) s
  | lambdaParts {parts : List Value} (identity : Option Nat) (f : FrameId) (s : Store) :
      parts.length ≠ 2 → Evaluates (.list (.symbol "lambda" :: parts) identity) f s
        (.error (.fault (.lambdaParts parts.length))) s
  | ifTrue {test consequent : Value} (alternate : Value) (identity : Option Nat) {f : FrameId}
      {s s' s'' : Store} {r : Except Failure Value} : Evaluates test f s (.ok (.boolean true)) s' →
      Evaluates consequent f s' r s'' →
      Evaluates (.list [.symbol "if", test, consequent, alternate] identity) f s r s''
  | ifOther {test alternate t : Value} (consequent : Value) (identity : Option Nat) {f : FrameId}
      {s s' s'' : Store} {r : Except Failure Value} : Evaluates test f s (.ok t) s' →
      t ≠ .boolean true → Evaluates alternate f s' r s'' →
      Evaluates (.list [.symbol "if", test, consequent, alternate] identity) f s r s''
  | ifFails {test : Value} (consequent alternate : Value) {failure : Failure}
      (identity : Option Nat) {f : FrameId} {s s' : Store} :
      Evaluates test f s (.error failure) s' →
      Evaluates (.list [.symbol "if", test, consequent, alternate] identity) f s
        (.error failure) s'
  | ifParts {parts : List Value} (identity : Option Nat) (f : FrameId) (s : Store) :
      parts.length ≠ 3 → Evaluates (.list (.symbol "if" :: parts) identity) f s
        (.error (.fault .ifParts)) s
  | headFails {head : Value} (parts : List Value) {failure : Failure} (identity : Option Nat)
      {f : FrameId} {s s' : Store} : (∀ form : SpecialForm, head ≠ .symbol form.name) →
      Evaluates head f s (.error failure) s' →
      Evaluates (.list (head :: parts) identity) f s (.error failure) s'
  | notAFunction {head v : Value} (parts : List Value) (identity : Option Nat) {f : FrameId}
      {s s' : Store} : (∀ form : SpecialForm, head ≠ .symbol form.name) →
      Evaluates head f s (.ok v) s' → v.isFunction = false →
      Evaluates (.list (head :: parts) identity) f s (.error (v.blame s' .notAFunction)) s'
  | argumentFails {head function : Value} {parts : List Value} {failure : Failure}
      (identity : Option Nat) {f : FrameId} {s s' s'' : Store} :
      (∀ form : SpecialForm, head ≠ .symbol form.name) → Evaluates head f s (.ok function) s' →
      function.isFunction = true → EvaluatesAll parts f s' (.error failure) s'' →
      Evaluates (.list (head :: parts) identity) f s (.error failure) s''
  | call {head function : Value} {parts args : List Value} (identity : Option Nat) {f : FrameId}
      {s s' s'' s''' : Store} {r : Except Failure Value} :
      (∀ form : SpecialForm, head ≠ .symbol form.name) → Evaluates head f s (.ok function) s' →
      function.isFunction = true → EvaluatesAll parts f s' (.ok args) s'' →
      Applies function args s'' r s''' →
      Evaluates (.list (head :: parts) identity) f s r s'''

/-- The evaluation of several expressions from left to right, up to the first that fails. -/
inductive EvaluatesAll :
    List Value → FrameId → Store → Except Failure (List Value) → Store → Prop
  | nil (f : FrameId) (s : Store) : EvaluatesAll [] f s (.ok []) s
  | cons {e v : Value} {rest vs : List Value} {f : FrameId} {s s' s'' : Store} :
      Evaluates e f s (.ok v) s' → EvaluatesAll rest f s' (.ok vs) s'' →
      EvaluatesAll (e :: rest) f s (.ok (v :: vs)) s''
  | firstFails {e : Value} (rest : List Value) {failure : Failure} {f : FrameId} {s s' : Store} :
      Evaluates e f s (.error failure) s' → EvaluatesAll (e :: rest) f s (.error failure) s'
  | restFails {e v : Value} {rest : List Value} {failure : Failure} {f : FrameId}
      {s s' s'' : Store} : Evaluates e f s (.ok v) s' →
      EvaluatesAll rest f s' (.error failure) s'' →
      EvaluatesAll (e :: rest) f s (.error failure) s''

/-- The call of a function on values: the body of a closure in a new frame on the frame in which the
closure was made, or the primitive. -/
inductive Applies : Value → List Value → Store → Except Failure Value → Store → Prop
  | closure {identity : Nat} {formals : List Text} {body : Value} {frame : FrameId}
      {args : List Value} {s s' : Store} {r : Except Failure Value} :
      args.length = formals.length →
      Evaluates body s.nextFrame (s.push (calleeFrame formals frame args)) r s' →
      Applies (.closure identity formals body frame) args s r s'
  | closureCount {identity : Nat} {formals : List Text} {body : Value} {frame : FrameId}
      {args : List Value} (s : Store) : args.length ≠ formals.length →
      Applies (.closure identity formals body frame) args s
        (.error (.fault (.argumentCount
          (Value.functionName s (.closure identity formals body frame))
          formals.length false args.length))) s
  | primitive {identity : Nat} {p : Primitive} {args : List Value} {v : Value} {s : Store} :
      p.applyWith s.wholeView args = .ok v →
      Applies (.primitive identity p) args s (.ok (v.identified s.nextIdentity)) s.takeIdentity
  | primitiveFails {identity : Nat} {p : Primitive} {args : List Value} {failure : Failure}
      {s : Store} : p.applyWith s.wholeView args = .error failure →
      Applies (.primitive identity p) args s (.error failure) s

end

end SmallLisp
