import SmallLisp.Display
/-!
What the primitive functions compute.

A call first checks the number of its arguments, then their kinds, then the divisors.  Integer
operations name the leftmost argument that is no integer.
-/

namespace SmallLisp

/-- The failure of a fault that shows a value.  If the value has no text, that is the failure. -/
def failShowing {α : Type} (view : View) (v : Value) (fault : Text → Fault) :
    Except Failure α := do
  let shown ← view.display v
  .error (.fault (fault shown))

namespace Operation

/-- The integers that all the arguments are. -/
def integers (view : View) (op : Operation) : List Value → Except Failure (List Int)
  | [] => .ok []
  | .integer n :: rest => (integers view op rest).map (n :: ·)
  | v :: _ => failShowing view v (.integersExpected op.name)

/-- The elements of the list that an argument is. -/
def listItems (view : View) (op : Operation) : Value → Except Failure (List Value)
  | .list items _ => .ok items
  | v => failShowing view v (.listExpected op.name)

/-- The first element and the rest of the non-empty list that an argument is. -/
def nonEmptyList (view : View) (op : Operation) : Value → Except Failure (Value × List Value)
  | .list (x :: xs) _ => .ok (x, xs)
  | v => failShowing view v (.nonEmptyListExpected op.name)

/-- A number divided by several others in turn, each quotient truncated toward zero. -/
def divideBy : Int → List Int → Except Failure Int
  | n, [] => .ok n
  | n, d :: rest =>
      if d = 0 then .error (.fault (.divisionByZero divide.name)) else divideBy (n.tdiv d) rest

/-- An operation on exactly two integers. -/
def onTwo (f : Int → Int → Except Failure Value) : List Int → Except Failure Value
  | [a, b] => f a b
  | _ => .error .missingArgument

/-- A comparison of exactly two integers. -/
def comparing (f : Int → Int → Bool) : List Int → Except Failure Value :=
  onTwo fun a b => .ok (.boolean (f a b))

/-- The result of an operation on its arguments. -/
def run (view : View) (op : Operation) (args : List Value) : Except Failure Value :=
  match op, args with
  | .add, _ => do
      let numbers ← integers view op args
      return .integer (numbers.foldl (· + ·) 0)
  | .subtract, _ => do
      match ← integers view op args with
      | [] => .error .missingArgument
      | [n] => return .integer (-n)
      | n :: rest => return .integer (rest.foldl (· - ·) n)
  | .multiply, _ => do
      let numbers ← integers view op args
      return .integer (numbers.foldl (· * ·) 1)
  | .divide, _ => do
      match ← integers view op args with
      | [] => .error .missingArgument
      | n :: rest => return .integer (← divideBy n rest)
  | .modulo, _ => do
      let numbers ← integers view op args
      onTwo (fun a b =>
        if b = 0 then .error (.fault (.divisionByZero op.name)) else .ok (.integer (a.fmod b)))
        numbers
  | .same, _ => do comparing (· == ·) (← integers view op args)
  | .different, _ => do comparing (· != ·) (← integers view op args)
  | .less, _ => do comparing (· < ·) (← integers view op args)
  | .atMost, _ => do comparing (· ≤ ·) (← integers view op args)
  | .greater, _ => do comparing (· > ·) (← integers view op args)
  | .atLeast, _ => do comparing (· ≥ ·) (← integers view op args)
  | .equal, [a, b] => do return .boolean (← view.compare a b)
  | .not, v :: _ => .ok (.boolean !v.isTrue)
  | .and, _ => .ok (.boolean (args.all Value.isTrue))
  | .or, _ => .ok (.boolean (args.any Value.isTrue))
  | .cons, [x, rest] => do
      let items ← listItems view op rest
      return .list (x :: items)
  | .car, v :: _ => do
      let (first, _) ← nonEmptyList view op v
      return first
  | .cdr, v :: _ => do
      let (_, rest) ← nonEmptyList view op v
      return .list rest
  | .list, _ => .ok (.list args)
  | .length, v :: _ => do
      let items ← listItems view op v
      return .integer items.length
  | .isNull, v :: _ => .ok (.boolean (v matches .list [] _))
  | .isPair, v :: _ => .ok (.boolean (v matches .list (_ :: _) _))
  | .isList, v :: _ => .ok (.boolean (v matches .list _ _))
  | .isSymbol, v :: _ => .ok (.boolean (v matches .symbol _))
  | .isNumber, v :: _ => .ok (.boolean (v matches .integer _))
  | .isBoolean, v :: _ => .ok (.boolean (v matches .boolean _))
  | .isProcedure, v :: _ => .ok (.boolean v.isFunction)
  | _, _ => .error .missingArgument

end Operation

/-- A call of a primitive function under a view of values. -/
def Primitive.applyWith (view : View) (p : Primitive) (args : List Value) :
    Except Failure Value :=
  if p.accepts args.length then p.operation.run view args
  else .error (.fault (.argumentCount p.name p.arity p.variadic args.length))

/-- A call of a primitive function from outside an evaluation. -/
def Primitive.apply (s : Store) (p : Primitive) (args : List Value) : Except Failure Value :=
  p.applyWith (s.view nestingLimit) args

/-- The list of a first element and a rest, which has to be a list. -/
def Value.pair (s : Store) (first rest : Value) : Except Failure Value :=
  match rest with
  | .list items _ => .ok (.list (first :: items))
  | _ => failShowing (s.view nestingLimit) rest .improperTail

end SmallLisp
