import SmallLisp.Text
/-!
Primitive functions: their names, their parameters and the catalog that a global frame starts with.
-/

namespace SmallLisp

/-- The operations behind the primitive functions. -/
inductive Operation
  | add | subtract | multiply | divide | modulo
  | same | different | less | atMost | greater | atLeast
  | equal
  | not | and | or
  | cons | car | cdr | list | length
  | isNull | isPair | isList | isSymbol | isNumber | isBoolean | isProcedure
deriving DecidableEq, Repr

/-- The name of an operation in programs and messages. -/
def Operation.name : Operation → Text
  | .add => "+"
  | .subtract => "-"
  | .multiply => "*"
  | .divide => "/"
  | .modulo => "modulo"
  | .same => "="
  | .different => "!="
  | .less => "<"
  | .atMost => "<="
  | .greater => ">"
  | .atLeast => ">="
  | .equal => "equal?"
  | .not => "not"
  | .and => "and"
  | .or => "or"
  | .cons => "cons"
  | .car => "car"
  | .cdr => "cdr"
  | .list => "list"
  | .length => "length"
  | .isNull => "null?"
  | .isPair => "pair?"
  | .isList => "list?"
  | .isSymbol => "symbol?"
  | .isNumber => "number?"
  | .isBoolean => "boolean?"
  | .isProcedure => "procedure?"

/-- A named operation.  The parameters are required; a `rest` name stands for any number of
further arguments. -/
structure Primitive where
  name : Text
  parameters : List Text
  rest : Option Text
  operation : Operation
deriving DecidableEq, Repr

namespace Primitive

/-- The number of required arguments. -/
def arity (p : Primitive) : Nat :=
  p.parameters.length

/-- Whether further arguments are allowed. -/
def variadic (p : Primitive) : Bool :=
  p.rest.isSome

/-- Whether a call with this many arguments is allowed. -/
def accepts (p : Primitive) (count : Nat) : Bool :=
  if p.variadic then p.arity ≤ count else count == p.arity

/-- The words of a call: the name and the parameters. -/
def signature (p : Primitive) : Text :=
  let rest := p.rest.toList.map fun name : Text => name ++ " ..."
  "(" ++ Text.join " " (p.name :: p.parameters ++ rest) ++ ")"

/-- The primitive of an operation, under the operation's name. -/
def ofOperation (parameters : List Text) (rest : Option Text) (operation : Operation) :
    Primitive :=
  { name := operation.name, parameters, rest, operation }

/-- The primitives of every global frame, in the order in which they are defined. -/
def catalog : List Primitive :=
  [ofOperation [] (some "n") .add,
   ofOperation ["n"] (some "m") .subtract,
   ofOperation [] (some "n") .multiply,
   ofOperation ["n", "d"] (some "more") .divide,
   ofOperation ["n", "d"] none .modulo,
   ofOperation ["a", "b"] none .same,
   ofOperation ["a", "b"] none .different,
   ofOperation ["a", "b"] none .less,
   ofOperation ["a", "b"] none .atMost,
   ofOperation ["a", "b"] none .greater,
   ofOperation ["a", "b"] none .atLeast,
   ofOperation ["a", "b"] none .equal,
   ofOperation ["x"] none .not,
   ofOperation [] (some "x") .and,
   ofOperation [] (some "x") .or,
   ofOperation ["x", "lst"] none .cons,
   ofOperation ["lst"] none .car,
   ofOperation ["lst"] none .cdr,
   ofOperation [] (some "x") .list,
   ofOperation ["lst"] none .length,
   ofOperation ["x"] none .isNull,
   ofOperation ["x"] none .isPair,
   ofOperation ["x"] none .isList,
   ofOperation ["x"] none .isSymbol,
   ofOperation ["x"] none .isNumber,
   ofOperation ["x"] none .isBoolean,
   ofOperation ["x"] none .isProcedure]

theorem catalog_names_nodup : (catalog.map Primitive.name).Nodup := by decide

example : (ofOperation ["n"] (some "m") .subtract).signature = "(- n m ...)" := by decide +kernel

end Primitive

end SmallLisp
