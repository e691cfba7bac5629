import SmallLisp.Text.Blank
/-!
The pieces of a text as an editor sees it, with their places.

Unlike the lexer, this scan never fails: a double quote is part of a word.
-/

namespace SmallLisp.Editor

/-- A bracket, a quote mark or a word, from character `start` up to character `stop`. -/
structure Piece where
  text : Text
  start : Nat
  stop : Nat
deriving DecidableEq, Repr

/-- The characters that end a word besides the blank ones. -/
def wordEnds : Text := "()[]';"

/-- Whether a character can be part of a word. -/
def isWordChar (c : CodePoint) : Bool :=
  !(Text.isBlank c || wordEnds.contains c)

/-- What a scan is in the middle of. -/
inductive ScanMode
  | between
  /-- A word, by its characters so far, the latest first, and its start. -/
  | word (read : Text) (start : Nat)
  | comment
deriving DecidableEq, Repr

/-- A scan of the first `offset` characters of a text. -/
structure Scan where
  offset : Nat := 0
  mode : ScanMode := .between
  pieces : Array Piece := #[]
deriving DecidableEq, Repr

namespace Scan

/-- The end of a word, if the scan is in one. -/
def flush (s : Scan) : Scan :=
  match s.mode with
  | .word read start =>
      let piece : Piece := { text := read.reverse, start, stop := s.offset }
      { s with mode := .between, pieces := s.pieces.push piece }
  | _ => s

/-- A character that does not continue anything. -/
def start (s : Scan) (c : CodePoint) : Scan :=
  if Text.isBlank c then s
  else if c = ';' then { s with mode := .comment }
  else if isWordChar c then { s with mode := .word [c] s.offset }
  else
    let piece : Piece := { text := [c], start := s.offset, stop := s.offset + 1 }
    { s with pieces := s.pieces.push piece }

/-- One more character. -/
def step (s : Scan) (c : CodePoint) : Scan :=
  let s' :=
    match s.mode with
    | .between => s.start c
    | .word read start =>
        if isWordChar c then { s with mode := .word (c :: read) start } else s.flush.start c
    | .comment => if c = '\n' then { s with mode := .between } else s
  { s' with offset := s.offset + 1 }

end Scan

/-- The pieces of a text in order. -/
def scan (text : Text) : List Piece :=
  (text.foldl Scan.step {}).flush.pieces.toList

example : scan "(a ;b\n\"" = [⟨"(", 0, 1⟩, ⟨"a", 1, 2⟩, ⟨"\"", 6, 7⟩] := by decide +kernel

end SmallLisp.Editor
