import SmallLisp.Text
/-!
File paths in normal form: no empty parts, no parts `.`, and at most two leading slashes.  Parts
`..` are kept, because what they lead to depends on the files.
-/

namespace SmallLisp

/-- The number of bytes that a code point takes in the name of a file.  A surrogate from U+DC80 to
U+DCFF stands for one byte that is not UTF-8, and no other surrogate is in the name of a file. -/
def CodePoint.byteCount? : CodePoint → Option Nat
  | .scalar c => some c.utf8Size
  | .surrogate index => if 0x480 ≤ index.val && index.val < 0x500 then some 1 else none

/-- The number of bytes that a text takes in the name of a file. -/
def Text.byteCount? (text : Text) : Option Nat :=
  (text.mapM CodePoint.byteCount?).map fun counts => counts.foldl (· + ·) 0

/-- A path: its leading slashes and the parts between slashes. -/
structure Path where
  root : Text := []
  parts : List Text
deriving DecidableEq, Repr

namespace Path

/-- The leading slashes that count: two stay two, any other number is one. -/
def rootOf (text : Text) : Text :=
  let slashes := text.takeWhile (· == .scalar '/')
  if slashes.length ≤ 2 then slashes else "/"

/-- The path that a text writes. -/
def ofText (text : Text) : Path :=
  let parts := text.splitOn (.scalar '/')
  { root := rootOf text, parts := parts.filter fun part => part != "" && part != "." }

/-- The text of a path; the path of no parts is `.`. -/
def text (path : Path) : Text :=
  if path.root.isEmpty && path.parts.isEmpty then "." else path.root ++ Text.join "/" path.parts

/-- The path of a name in the directory at a path. -/
def child (path : Path) (name : Text) : Path :=
  { path with parts := path.parts ++ [name] }

example : (ofText "a//./b/").text = "a/b" := by decide +kernel

example : (ofText "").text = "." := by decide +kernel

end Path

end SmallLisp
