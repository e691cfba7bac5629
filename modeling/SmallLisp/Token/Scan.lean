import SmallLisp.Token
import SmallLisp.Text.Blank
/-!
Tokens of source text.

The scan is a fold over the characters of the text, so the scan of a text that continues another is
the scan of the rest from where the first one stopped.  The tokens found before a character that
starts no token are kept beside the failure.
-/

namespace SmallLisp

/-- The characters that end an atom besides the blank ones. -/
def atomEnds : Text := "()[]';\""

/-- Whether a character can be part of an atom. -/
def isAtomChar (c : CodePoint) : Bool :=
  !(Text.isBlank c || atomEnds.contains c)

/-- What a scan is in the middle of. -/
inductive ScanMode
  | between
  /-- An atom, by its characters so far, the latest first. -/
  | atom (read : Text)
  | comment
deriving DecidableEq, Repr

/-- A scan of the first `offset` characters of a text. -/
structure Scan where
  offset : Nat := 0
  mode : ScanMode := .between
  tokens : Array Token := #[]
  failure : Option Failure := none
deriving DecidableEq, Repr

namespace Scan

/-- One more token. -/
def push (s : Scan) (kind : TokenKind) (text : Text) : Scan :=
  { s with tokens := s.tokens.push { kind, text } }

/-- The end of an atom, if the scan is in one. -/
def flush (s : Scan) : Scan :=
  match s.mode with
  | .atom read => { s.push .symbol read.reverse with mode := .between }
  | _ => s

/-- A character that does not continue anything. -/
def start (s : Scan) (c : CodePoint) : Scan :=
  if Text.isBlank c then s
  else if c = ';' then { s with mode := .comment }
  else if c = '\'' then s.push .quote "'"
  else if c = '(' || c = '[' then s.push .opener [c]
  else if c = ')' || c = ']' then s.push .closer [c]
  else if c = '"' then { s with failure := some (.fault (.unexpectedCharacter s.offset c)) }
  else { s with mode := .atom [c] }

/-- One more character.  After a failure the scan stands still. -/
def step (s : Scan) (c : CodePoint) : Scan :=
  if s.failure.isSome then s
  else
    let s' :=
      match s.mode with
      | .between => s.start c
      | .atom read =>
          if isAtomChar c then { s with mode := .atom (c :: read) } else s.flush.start c
      | .comment => if c = '\n' then { s with mode := .between } else s
    { s' with offset := s.offset + 1 }

/-- The scan of more text. -/
def run (s : Scan) (text : Text) : Scan :=
  text.foldl step s

theorem run_append (s : Scan) (a b : Text) : s.run (a ++ b) = (s.run a).run b :=
  List.foldl_append

end Scan

/-- The tokens of a text up to its end or its first failure. -/
structure Lexed where
  tokens : List Token
  failure : Option Failure
deriving DecidableEq, Repr

/-- The tokens of a source text. -/
def lex (source : Text) : Lexed :=
  let s := (Scan.run {} source).flush
  { tokens := s.tokens.toList, failure := s.failure }

/-- Opening brackets less closing ones. -/
def bracketDepth (tokens : List Token) : Int :=
  tokens.foldl (fun depth t =>
    match t.kind with
    | .opener => depth + 1
    | .closer => depth - 1
    | _ => depth) 0

/-- Whether a text has more opening than closing brackets, so that more input can complete it.
A text that has no tokens cannot be completed. -/
def needsMore (source : Text) : Bool :=
  let lexed := lex source
  lexed.failure.isNone && 0 < bracketDepth lexed.tokens

example : (lex "(a'b ; c\n\"").tokens
    = [⟨.opener, "("⟩, ⟨.symbol, "a"⟩, ⟨.quote, "'"⟩, ⟨.symbol, "b"⟩] := by decide +kernel

example : (lex "a \"").failure = some (.fault (.unexpectedCharacter 2 '"')) := by decide +kernel

end SmallLisp
