/-
# `Stencil.Number.FloatText` — floating-point numbers as decimal text

The digits are the fewest that read back.  They are laid out with a decimal point
among or beside them, and with an exponent where the number is very large or very
small.
-/
import Stencil.Number.Shortest

namespace Stencil

structure FloatLayout where
  /-- The least exponent of ten that is written without an exponent. -/
  leastPlain : Int
  /-- The least larger exponent that is written with an exponent again. -/
  leastLarge : Int
  /-- The least number of digits of an exponent. -/
  exponentWidth : Nat
deriving DecidableEq, Repr

namespace FloatLayout

def exponentText (l : FloatLayout) (e : Int) : List Char :=
  let shown := (toString e.natAbs).toList
  (if e < 0 then '-' else '+') :: List.replicate (l.exponentWidth - shown.length) '0' ++ shown

/-- Digits `d₁d₂…` that stand for `0.d₁d₂… * 10 ^ point`, with their decimal point.
Without an exponent there is always a digit on both sides of it. -/
def arrange (l : FloatLayout) (digits : List Char) (point : Int) : List Char :=
  let e := point - 1
  -- The exponent counts from behind the first digit.
  if e < l.leastPlain || l.leastLarge ≤ e then
    let fraction := digits.drop 1
    digits.take 1 ++ (if fraction.isEmpty then [] else '.' :: fraction) ++ 'e' :: l.exponentText e
  else if point ≤ 0 then
    '0' :: '.' :: List.replicate (-point).toNat '0' ++ digits
  else
    let whole := digits.take point.toNat
    let fraction := digits.drop point.toNat
    whole ++ List.replicate (point.toNat - whole.length) '0' ++
      '.' :: (if fraction.isEmpty then ['0'] else fraction)

def text (l : FloatLayout) (x : Binary64) : String :=
  let sign := if x.isNegative then ['-'] else []
  match x.kind with
  | .nan => "nan"
  | .infinite => String.ofList (sign ++ ['i', 'n', 'f'])
  | .finite 0 _ => String.ofList (sign ++ ['0', '.', '0'])
  | .finite m q =>
    let (digits, point) := Shortest.digits m q
    String.ofList (sign ++ l.arrange digits point)

end FloatLayout

/-- The layout of numbers in output and messages: plain from `0.0001` to below
`10 ^ 16`, and at least two digits in an exponent. -/
def plainFloat : FloatLayout := ⟨-4, 16, 2⟩

end Stencil
