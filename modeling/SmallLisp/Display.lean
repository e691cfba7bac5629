import SmallLisp.Store
import SmallLisp.Text.Decimal
import SmallLisp.Text.Quoted
/-!
The three texts of a value.

`display` is what is echoed, `detailed` is the tagged form of the trace, and `inspect` shows how a
value is built.  A closure is shown by the name under which its own frames bind it at that moment,
so all three need the store.  They fail on an integer with too many digits and on lists nested too
deep, and on nothing else.  What an evaluation itself shows and compares goes through a `View`.
-/

namespace SmallLisp

/-- The decimal text of an integer. -/
def integerText (n : Int) : Except Failure Text :=
  (Text.integerText? n).elim (.error .integerTooLong) .ok

/-- The text of a boolean. -/
def booleanText (b : Bool) : Text :=
  if b then "#t" else "#f"

/-- The text of a function of a given name. -/
def functionText (name : Text) : Text :=
  "#<function:" ++ name ++ ">"

/-- A foreign datum in quotes, or `None` for nothing. -/
def foreignText (text : Option Text) : Text :=
  text.elim "None" Text.quoted

/-- Texts between parentheses, with spaces between them. -/
def parenthesized (texts : List Text) : Text :=
  "(" ++ Text.join " " texts ++ ")"

namespace Value

/-- The name of a function: a primitive carries its own, a closure has the one under which its
defining frame or an ancestor of that binds it.  Other values have none. -/
def functionName (s : Store) (v : Value) : Text :=
  match v with
  | .primitive _ p => p.name
  | .closure _ _ _ frame => (s.nameOf? frame v).getD "anonymous"
  | _ => ""

/-- The text of a value as it is echoed, in lists nested at most `depth` deep. -/
def displayWithin (s : Store) : (depth : Nat) → Value → Except Failure Text
  | 0, _ => .error .nestingTooDeep
  | _ + 1, .symbol name => .ok name
  | _ + 1, .integer n => integerText n
  | _ + 1, .boolean b => .ok (booleanText b)
  | depth + 1, .list items _ => do
      let texts ← items.mapM (displayWithin s depth)
      return parenthesized texts
  | _ + 1, .primitive _ p => .ok (functionText p.name)
  | _ + 1, .closure identity formals body frame =>
      .ok (functionText (functionName s (.closure identity formals body frame)))
  | _ + 1, .foreign text => .ok (text.getD "None")

/-- The text of a value as it is echoed. -/
def display (s : Store) (v : Value) : Except Failure Text :=
  displayWithin s nestingLimit v

/-- The bindings that a frame shows: all but the primitives, in lists nested at most `depth`
deep. -/
def shownBindings (s : Store) (depth : Nat) : List (Text × Value) → Except Failure (List Text)
  | [] => .ok []
  | (_, .primitive ..) :: rest => shownBindings s depth rest
  | (name, v) :: rest => do
      let text ← displayWithin s depth v
      let texts ← shownBindings s depth rest
      return (name ++ "=" ++ text) :: texts

end Value

namespace Store

/-- The bindings of one frame, in lists nested at most `depth` deep. -/
def bindingsTextWithin (s : Store) (depth : Nat) (f : FrameId) : Except Failure Text := do
  let texts ← Value.shownBindings s depth ((s.frames[f]?.map Frame.bindings).getD [])
  return "Frame:\x7b" ++ Text.join ", " texts ++ "\x7d"

/-- The bindings of one frame and whether it has a parent, in lists nested at most `depth` deep. -/
def frameTextWithin (s : Store) (depth : Nat) (f : FrameId) : Except Failure Text := do
  let text ← s.bindingsTextWithin depth f
  return if (s.parent? f).isSome then text ++ " -> ..." else text

/-- The bindings of one frame, and whether it has a parent. -/
def frameText (s : Store) (f : FrameId) : Except Failure Text :=
  s.frameTextWithin nestingLimit f

/-- The bindings of every frame of a chain. -/
def chainText (s : Store) (f : FrameId) : Except Failure Text := do
  let texts ← (s.chain f).mapM (s.bindingsTextWithin nestingLimit)
  return "<Frame chain: " ++ Text.join " -> " texts ++ ">"

end Store

namespace Value

/-- The tagged text of a value, in lists nested at most `depth` deep.  The body and the frame of a
closure are nested in it as the elements of a list are. -/
def detailedWithin (s : Store) : (depth : Nat) → Value → Except Failure Text
  | 0, _ => .error .nestingTooDeep
  | _ + 1, .symbol name => .ok ("[SYM " ++ name ++ "]")
  | _ + 1, .integer n => do return "[INT " ++ (← integerText n) ++ "]"
  | _ + 1, .boolean b => .ok ("[BOOL " ++ booleanText b ++ "]")
  | _ + 1, .list [] _ => .ok "[List]"
  | depth + 1, .list items _ => do
      let texts ← items.mapM (detailedWithin s depth)
      return "[List " ++ Text.join " " texts ++ "]"
  | _ + 1, .primitive _ p => .ok ("[Primitive:" ++ p.name ++ "]")
  | depth + 1, .closure identity formals body frame => do
      let name := functionName s (.closure identity formals body frame)
      let bodyText ← displayWithin s depth body
      let frameText ← s.frameTextWithin depth frame
      return "[Func:" ++ name ++ " " ++ parenthesized formals ++ " " ++ bodyText ++ " "
        ++ frameText ++ "]"
  | _ + 1, .foreign text => .ok (foreignText text)

/-- The tagged text of a value.  A closure shows its parameters, its body and its frame. -/
def detailed (s : Store) (v : Value) : Except Failure Text :=
  detailedWithin s nestingLimit v

/-- The text of how a value is built, in pairs nested at most `depth` deep.  The rest of a list is
nested in it as its elements are. -/
def inspectWithin (s : Store) : (depth : Nat) → Value → Except Failure Text
  | 0, _ => .error .nestingTooDeep
  | _ + 1, .symbol name => .ok ("Symbol(" ++ Text.quoted name ++ ")")
  | _ + 1, .integer n => integerText n
  | _ + 1, .boolean b => .ok (booleanText b)
  | _ + 1, .list [] _ => .ok "()"
  | depth + 1, .list (x :: xs) _ => do
      let first ← inspectWithin s depth x
      let rest ← inspectWithin s depth (.list xs)
      return "Cons(" ++ first ++ ", " ++ rest ++ ")"
  | _ + 1, .primitive _ p => .ok (functionText p.name)
  | _ + 1, .closure identity formals body frame =>
      .ok (functionText (functionName s (.closure identity formals body frame)))
  | _ + 1, .foreign text => .ok (foreignText text)

/-- The text of how a value is built: symbols are named, lists are chains of pairs. -/
def inspect (s : Store) (v : Value) : Except Failure Text :=
  inspectWithin s nestingLimit v

end Value

/-- How values are shown in messages and in the trace, and compared by primitives. -/
structure View where
  display : Value → Except Failure Text
  detailed : Value → Except Failure Text
  compare : Value → Value → Except Failure Bool

/-- The view in which lists may be nested at most `depth` deep. -/
def Store.view (depth : Nat) (s : Store) : View where
  display := Value.displayWithin s depth
  detailed := Value.detailedWithin s depth
  compare := Value.compareWithin depth

end SmallLisp
