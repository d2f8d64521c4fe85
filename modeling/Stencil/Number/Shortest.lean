/-
# `Stencil.Number.Shortest` — the fewest digits that read back

The decimal text of a floating-point number has as few digits as let it be read
back, and of the decimals with that many digits the nearest.

A finite number `m * 2 ^ q` is what every real between its two half-way points
rounds to; the half-way points themselves count when `m` is even.  For one digit,
two digits, and so on, the two neighbours of the number on the grid of decimals
with so many digits are tested against that interval, in exact arithmetic.  Some
grid with at most seventeen digits has a hit.
-/
import Stencil.Number.Binary64

namespace Stencil.Shortest

/-- The reals that round to a number, over a common denominator: the number
itself is `value / den`, the half-way points are `low / den` and `high / den`,
and `closed` says whether they count. -/
structure Interval where
  low : Nat
  value : Nat
  high : Nat
  den : Nat
  closed : Bool
deriving DecidableEq, Repr

/-- The interval of the positive number `m * 2 ^ q`.  Below a power of two the
numbers lie twice as dense, so the lower half-way point is nearer there. -/
def interval (m : Nat) (q : Int) : Interval :=
  let scale := scaleUp 2 (q - 2)
  let below := if m = Binary64.hidden && q > Binary64.minExponent then 1 else 2
  ⟨(4 * m - below) * scale, 4 * m * scale, (4 * m + 2) * scale, scaleUp 2 (2 - q), m % 2 == 0⟩

def Interval.holds (i : Interval) (num scale : Nat) : Bool :=
  if i.closed then i.low * scale ≤ num && num ≤ i.high * scale
  else i.low * scale < num && num < i.high * scale

def Interval.isBelow (i : Interval) (point : Int) : Bool :=
  i.value * scaleUp 10 (-point) < i.den * scaleUp 10 point

/-- The least `point` from `start` up, in at most `fuel` steps, such that the
number is below `10 ^ point`. -/
def Interval.pointFrom (i : Interval) (start : Int) : Nat → Int
  | 0 => start
  | fuel + 1 => if i.isBelow start then start else i.pointFrom (start + 1) fuel

/-- Where the decimal point stands: the least `point` such that the number is
below `10 ^ point`.  Its binary logarithm gives a first guess from below. -/
def Interval.point (i : Interval) : Int :=
  let log : Int := (Nat.log2 i.value : Int) - Nat.log2 i.den
  let start := (log - 1) * 30103 / 100000 - 1
  i.pointFrom start 6

/-- The decimal with `count` digits that lies in the interval, if there is one:
its digits as one number.  Of two, the nearer; of two as near, the even one. -/
def Interval.hit? (i : Interval) (point : Int) (count : Nat) : Option Nat :=
  let unit := point - count
  let scale := scaleUp 10 (-unit)
  let step := i.den * scaleUp 10 unit
  let num := i.value * scale
  let down := num / step
  let up := down + 1
  match i.holds (down * step) scale, i.holds (up * step) scale with
  | true, true =>
    let twice := 2 * (num % step)
    some (if twice < step || (twice == step && down % 2 == 0) then down else up)
  | true, false => some down
  | false, true => some up
  | false, false => none

/-- The first hit from `count` digits on, in at most `fuel` grids: its digits as
one number, and the power of ten that they count. -/
def Interval.firstHit? (i : Interval) (point : Int) (count : Nat) : Nat → Option (Nat × Int)
  | 0 => none
  | fuel + 1 =>
    match i.hit? point count with
    | some found => some (found, point - count)
    | none => i.firstHit? point (count + 1) fuel

def maxCount : Nat := 17

/-- The digits of a positive number `m * 2 ^ q` without trailing zeros, and the
place of the decimal point: digits `d₁d₂…` and point `p` stand for
`0.d₁d₂… * 10 ^ p`. -/
def digits (m : Nat) (q : Int) : List Char × Int :=
  let i := interval m q
  match i.firstHit? i.point 1 maxCount with
  | none => ([], 0)
  | some (found, unit) =>
    let shown := Nat.toDigits 10 found
    ((shown.reverse.dropWhile (· == '0')).reverse, unit + shown.length)

end Stencil.Shortest
