import SmallLisp.Text
/-!
Lines of a text: the lines that an editor counts by line feeds, the lines that end at any Unicode
line boundary, and line ends written as line feeds.
-/

namespace SmallLisp.Text

/-- A place in a text: a line and a column in it, both counted from zero. -/
structure Position where
  line : Nat
  column : Nat
deriving DecidableEq, Repr

/-- The position after one more character. -/
def Position.advance (p : Position) (c : CodePoint) : Position :=
  if c = '\n' then { line := p.line + 1, column := 0 } else { p with column := p.column + 1 }

/-- The position `offset` characters on from `p`, in the text that starts at `p`. -/
def positionFrom (p : Position) : Text → (offset : Nat) → Position
  | _, 0 => p
  | [], offset + 1 => { p with column := p.column + (offset + 1) }
  | c :: rest, offset + 1 => positionFrom (p.advance c) rest offset

/-- The position `offset` characters into a text.  Lines end at line feeds; an offset beyond the
text lies on its last line. -/
def positionOf (text : Text) (offset : Nat) : Position :=
  positionFrom ⟨0, 0⟩ text offset

/-- The position of an offset is the position of the rest of it after a first part of the text. -/
theorem positionFrom_append (p : Position) (a b : Text) (offset : Nat) :
    positionFrom p (a ++ b) (a.length + offset)
      = positionFrom (positionFrom p a a.length) b offset := by
  induction a generalizing p with
  | nil => simp [positionFrom]
  | cons c a ih =>
    have hlen : (c :: a).length + offset = (a.length + offset) + 1 := by simp; omega
    rw [hlen, List.cons_append, positionFrom, ih, List.length_cons, positionFrom]

/-- The number of items before an index.  A negative index counts from the end. -/
def itemsBefore (length : Nat) : Int → Nat
  | .ofNat n => n
  | .negSucc n => length - (n + 1)

/-- The position of an offset that may be negative.  A negative offset is an index from the end: it
is on the line of that index, and its column is its own distance from the start of that line. -/
def signedPositionOf (text : Text) : (offset : Int) → Nat × Int
  | .ofNat offset => ((positionOf text offset).line, (positionOf text offset).column)
  | .negSucc n =>
      let before := itemsBefore text.length (.negSucc n)
      let p := positionOf text before
      (p.line, .negSucc n - (before - p.column : Nat))

/-- Line feed, vertical tab, form feed, carriage return, the separators U+001C to U+001E, next
line, line separator and paragraph separator. -/
def isLineBreak (c : CodePoint) : Bool :=
  let n := c.toNat
  (0x0A ≤ n && n ≤ 0x0D) || (0x1C ≤ n && n ≤ 0x1E) || n == 0x85 || n == 0x2028 || n == 0x2029

/-- The lines of a text, each with its line break; a carriage return and a line feed after it
are one break. -/
def lines : Text → List Text
  | [] => []
  | .scalar '\r' :: .scalar '\n' :: rest =>
      [.scalar '\r', .scalar '\n'] :: lines rest
  | c :: rest =>
      if isLineBreak c then [c] :: lines rest
      else
        match lines rest with
        | [] => [[c]]
        | first :: others => (c :: first) :: others

/-- The lines are the text cut up, with nothing lost. -/
theorem flatten_lines (text : Text) : (lines text).flatten = text := by
  fun_induction lines text with
  | case1 => rfl
  | case2 rest ih => simp [ih]
  | case3 c rest _ _ ih => simp [ih]
  | case4 c rest _ _ h ih => rw [h] at ih; simp at ih; simp [← ih]
  | case5 c rest _ _ first others h ih => rw [h] at ih; simpa using ih

/-- The text with each carriage return, or carriage return and line feed, as one line feed. -/
def withLineFeeds : Text → Text
  | [] => []
  | .scalar '\r' :: .scalar '\n' :: rest => .scalar '\n' :: withLineFeeds rest
  | c :: rest => (if c = '\r' then .scalar '\n' else c) :: withLineFeeds rest

example : positionOf "a\nbc\n" 4 = ⟨1, 2⟩ := by decide

example : positionOf "a\nbc\n" 7 = ⟨2, 2⟩ := by decide

example : lines "a\r\n\nb" = (["a\r\n", "\n", "b"] : List Text) := by decide

end SmallLisp.Text
