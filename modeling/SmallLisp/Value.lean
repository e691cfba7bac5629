import SmallLisp.Failure
import SmallLisp.Primitive
/-!
Values, which are also the expressions: code and data share one type.

Lists are proper by construction.  A function has an identity, and equality tells functions apart
by nothing else.  A list that a program makes has an identity too.  It takes no part in equality:
it lets a comparison pass over a list that both sides share.  A list that was read has none: a
comparison of such a list with itself looks into it and can meet the nesting limit, where one that
sees the sharing would answer at once.
-/

namespace SmallLisp

/-- The place of a frame in the store. -/
abbrev FrameId := Nat

/-- How deep lists may be nested in each other to be shown or compared. -/
def nestingLimit : Nat := 1000

/-- A value or an expression. -/
inductive Value
  | symbol (name : Text)
  | integer (n : Int)
  | boolean (b : Bool)
  /-- A list.  One that was read has no identity. -/
  | list (items : List Value) (identity : Option Nat := none)
  /-- A native function. -/
  | primitive (identity : Nat) (function : Primitive)
  /-- A function made by a lambda form, with the frame in which it was made. -/
  | closure (identity : Nat) (formals : List Text) (body : Value) (frame : FrameId)
  /-- A datum that an embedding program passes in: a text, or nothing. -/
  | foreign (text : Option Text)
deriving Repr, Inhabited

namespace Value

/-- The symbol of a name; a name has at least one character. -/
def symbolOf (name : Text) : Except Failure Value :=
  if name.isEmpty then .error .emptyName else .ok (.symbol name)

/-- Only the literal true counts as true. -/
def isTrue : Value → Bool
  | .boolean b => b
  | _ => false

theorem isTrue_iff {v : Value} : v.isTrue = true ↔ v = .boolean true := by
  cases v <;> simp [isTrue]

/-- Whether a value can be called. -/
def isFunction : Value → Bool
  | .primitive .. | .closure .. => true
  | _ => false

mutual

/-- Structural equality: lists by their elements, functions by identity, and never across
kinds. -/
def equal : Value → Value → Bool
  | .symbol a, .symbol b => a == b
  | .integer a, .integer b => a == b
  | .boolean a, .boolean b => a == b
  | .list xs _, .list ys _ => equalItems xs ys
  | .primitive i _, .primitive j _ => i == j
  | .closure i _ _ _, .closure j _ _ _ => i == j
  | .foreign a, .foreign b => a == b
  | _, _ => false

/-- Equal lengths and equal elements. -/
def equalItems : List Value → List Value → Bool
  | [], [] => true
  | x :: xs, y :: ys => equal x y && equalItems xs ys
  | _, _ => false

end

mutual

/-- A hash that equal values share. -/
def hash : Value → UInt64
  | .symbol name => mixHash 1 (Hashable.hash name)
  | .integer n => mixHash 2 (Hashable.hash n)
  | .boolean b => mixHash 3 (Hashable.hash b)
  | .list items _ => hashItems items
  | .primitive identity _ => mixHash 5 (Hashable.hash identity)
  | .closure identity _ _ _ => mixHash 6 (Hashable.hash identity)
  | .foreign text => mixHash 7 (Hashable.hash text)

/-- The hash of a list from those of its elements. -/
def hashItems : List Value → UInt64
  | [] => 4
  | x :: xs => mixHash (hash x) (hashItems xs)

end

mutual

theorem hash_eq_of_equal : ∀ {a b : Value}, equal a b = true → hash a = hash b
  | .symbol a, .symbol b, h => by simp_all [equal, hash]
  | .integer a, .integer b, h => by simp_all [equal, hash]
  | .boolean a, .boolean b, h => by simp_all [equal, hash]
  | .list xs _, .list ys _, h => by
      simp only [equal] at h
      simp only [hash]
      exact hashItems_eq_of_equalItems h
  | .primitive i _, .primitive j _, h => by simp_all [equal, hash]
  | .closure i _ _ _, .closure j _ _ _, h => by simp_all [equal, hash]
  | .foreign a, .foreign b, h => by simp_all [equal, hash]

theorem hashItems_eq_of_equalItems :
    ∀ {xs ys : List Value}, equalItems xs ys = true → hashItems xs = hashItems ys
  | [], [], _ => rfl
  | x :: xs, y :: ys, h => by
      simp only [equalItems, Bool.and_eq_true] at h
      simp only [hashItems, hash_eq_of_equal h.1, hashItems_eq_of_equalItems h.2]

end

/-- Values are compared structurally. -/
instance : BEq Value := ⟨equal⟩

/-- Whether two lists are known to be one and the same, by their identities.  Of lists that were
read this is not known. -/
def isSame : Option Nat → Option Nat → Bool
  | some i, some j => i == j
  | _, _ => false

/-- The comparison of elements in pairs, up to the first that differ. -/
def compareItems (compare : Value → Value → Except Failure Bool) :
    List Value → List Value → Except Failure Bool
  | x :: xs, y :: ys => do if ← compare x y then compareItems compare xs ys else .ok false
  | [], [] => .ok true
  | _, _ => .ok false

/-- The comparison of two values, in lists nested at most `depth` deep.  A list that both sides
share is not looked into. -/
def compareWithin : (depth : Nat) → Value → Value → Except Failure Bool
  | 0, _, _ => .error .nestingTooDeep
  | depth + 1, .list xs i, .list ys j =>
      if isSame i j then .ok true else compareItems (compareWithin depth) xs ys
  | _ + 1, a, b => .ok (equal a b)

/-- The comparison of two values. -/
def compare (a b : Value) : Except Failure Bool :=
  compareWithin nestingLimit a b

/-- A comparison with a function looks at nothing but identities. -/
theorem compare_of_isFunction (a : Value) {b : Value} (h : b.isFunction = true) :
    a.compare b = .ok (a.equal b) := by
  cases b <;> simp [isFunction] at h <;> cases a <;> rfl

/-- Whether lists are nested at most `depth` deep. -/
def isNestedWithin : (depth : Nat) → Value → Bool
  | 0, _ => false
  | depth + 1, .list items _ => items.all (isNestedWithin depth)
  | _ + 1, _ => true

/-- The value with an identity, if it is a list that has none. -/
def identified (identity : Nat) : Value → Value
  | .list items none => .list items (some identity)
  | v => v

example : equal (.list [.integer 1]) (.list [.integer 1]) = true := by decide

example : equal (.integer 1) (.list [.integer 1]) = false := by decide

end Value

end SmallLisp
