/-!
The shortest decimal that reads back as a given binary floating-point number.

A finite number is `m * 2 ^ q`.  The reals that round to it form an interval around it, whose ends
belong to it exactly if `m` is even.  The grids `10 ^ p` are tried from coarse to fine; the first
that has a point in the interval gives the digits, and of two points the nearer one.
-/

namespace SmallLisp.Number

/-- A positive rational number. -/
structure Ratio where
  numerator : Nat
  denominator : Nat

/-- The number `n * 2 ^ q`. -/
def Ratio.ofBinary (n : Nat) (q : Int) : Ratio :=
  if 0 ≤ q then { numerator := n * Nat.pow 2 q.toNat, denominator := 1 }
  else { numerator := n, denominator := Nat.pow 2 (-q).toNat }

/-- The number in units of `10 ^ p`. -/
def Ratio.inUnits (x : Ratio) (p : Int) : Ratio :=
  if 0 ≤ p then { x with denominator := x.denominator * Nat.pow 10 p.toNat }
  else { x with numerator := x.numerator * Nat.pow 10 (-p).toNat }

/-- The interval of the reals that round to a number, with the number itself. -/
structure Rounding where
  lower : Ratio
  value : Ratio
  upper : Ratio
  closed : Bool

/-- The leading binary digit of a number at full precision, which its bits do not show. -/
def hiddenBit : Nat := Nat.pow 2 52

/-- The exponent of the least binary place. -/
def leastExponent : Int := -1074

/-- The interval of `m * 2 ^ q`.  Below a power of two the numbers lie twice as close. -/
def Rounding.ofBinary (m : Nat) (q : Int) : Rounding :=
  let narrow := m == hiddenBit && leastExponent < q
  { lower := .ofBinary (if narrow then 4 * m - 1 else 4 * m - 2) (q - 2)
    value := .ofBinary (4 * m) (q - 2)
    upper := .ofBinary (4 * m + 2) (q - 2)
    closed := m % 2 == 0 }

/-- Whether `n` units of `10 ^ p` lie in an interval. -/
def Rounding.contains (r : Rounding) (n : Nat) (p : Int) : Bool :=
  let lower := r.lower.inUnits p
  let upper := r.upper.inUnits p
  let belowUpper := n * upper.denominator < upper.numerator
  let atUpper := n * upper.denominator == upper.numerator
  let aboveLower := lower.numerator < n * lower.denominator
  let atLower := lower.numerator == n * lower.denominator
  (belowUpper || (r.closed && atUpper)) && (aboveLower || (r.closed && atLower))

/-- The point of the grid `10 ^ p` in an interval that is nearest to its number, in units of the
grid. -/
def Rounding.pointOn? (r : Rounding) (p : Int) : Option Nat :=
  let value := r.value.inUnits p
  let below := value.numerator / value.denominator
  let excess := value.numerator % value.denominator
  match r.contains below p, r.contains (below + 1) p with
  | true, true =>
      let nearerBelow := 2 * excess < value.denominator
        || (2 * excess == value.denominator && below % 2 == 0)
      some (if nearerBelow then below else below + 1)
  | true, false => some below
  | false, true => some (below + 1)
  | false, false => none

/-- The first grid with a point in the interval among `count` grids from `10 ^ p` down, and the
point. -/
def Rounding.firstPoint? (r : Rounding) : (count : Nat) → Int → Option (Nat × Int)
  | 0, _ => none
  | count + 1, p =>
      match r.pointOn? p with
      | some n => some (n, p)
      | none => firstPoint? r count (p - 1)

/-- The digits and the exponent of the shortest decimal that reads back as `m * 2 ^ q`. -/
def shortest (m : Nat) (q : Int) : Nat × Int :=
  ((Rounding.ofBinary m q).firstPoint? 700 310).getD (0, 0)

/-- A floating-point number taken apart. -/
inductive Parts
  | finite (negative : Bool) (m : Nat) (q : Int)
  | infinite (negative : Bool)
  | notANumber
deriving DecidableEq, Repr

/-- The parts that the bits of a double-precision number encode. -/
def Parts.ofBits (bits : Nat) : Parts :=
  let negative := bits / Nat.pow 2 63 % 2 == 1
  let exponent : Nat := bits / hiddenBit % 2048
  let fraction : Nat := bits % hiddenBit
  if exponent == 2047 then if fraction == 0 then .infinite negative else .notANumber
  else if exponent == 0 then .finite negative fraction leastExponent
  else .finite negative (hiddenBit + fraction) (leastExponent + exponent - 1)

/-- Digits with a point after the first `place` of them, and at least one digit on each side. -/
def positional (digits : List Char) (place : Int) : List Char :=
  if place ≤ 0 then ['0', '.'] ++ List.replicate (-place).toNat '0' ++ digits
  else
    let place := place.toNat
    if digits.length ≤ place then
      digits ++ List.replicate (place - digits.length) '0' ++ ['.', '0']
    else digits.take place ++ '.' :: digits.drop place

/-- Digits with a point after the first and a power of ten of at least two digits. -/
def exponential (digits : List Char) (exponent : Int) : List Char :=
  let mantissa := if digits.length ≤ 1 then digits else digits.take 1 ++ '.' :: digits.drop 1
  let power := Nat.toDigits 10 exponent.natAbs
  let padding := if power.length < 2 then ['0'] else []
  mantissa ++ ['e', if exponent < 0 then '-' else '+'] ++ padding ++ power

/-- The text of a number: its shortest digits, positional from `0.0001` up to below `10 ^ 16` and
with a power of ten elsewhere. -/
def textOfParts : Parts → String
  | .notANumber => "nan"
  | .infinite negative => if negative then "-inf" else "inf"
  | .finite negative m q =>
      let magnitude :=
        if m == 0 then ['0', '.', '0']
        else
          let (n, p) := shortest m q
          let digits := Nat.toDigits 10 n
          let place := digits.length + p
          if -4 < place && place ≤ 16 then positional digits place
          else exponential digits (place - 1)
      String.ofList (if negative then '-' :: magnitude else magnitude)

/-- The text of a floating-point number. -/
def floatText (x : Float) : String :=
  textOfParts (.ofBits x.toBits.toNat)

/-- The floating-point number nearest to `n * 10 ^ e`. -/
def nearestFloat (n : Nat) (e : Int) : Float :=
  let size := (Nat.toDigits 10 n).length + e
  if n == 0 || size < -400 then 0.0
  else if 400 < size then 1.0 / 0.0
  else Float.ofScientific n (e < 0) e.natAbs

example : textOfParts (.ofBits 0x3FF8000000000000) = "1.5" := by decide +kernel

example : textOfParts (.ofBits 0x4341C37937E08000) = "1e+16" := by decide +kernel

example : textOfParts (.ofBits 1) = "5e-324" := by decide +kernel

end SmallLisp.Number
