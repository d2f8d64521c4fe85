/-
# `Stencil.Number.Binary64` — floating-point numbers as their 64 bits

A floating-point value is its bit pattern: a sign, eleven bits of exponent and
fifty-two bits of fraction.  A finite one has the magnitude `m * 2 ^ q` for a
natural number `m` below `2 ^ 53` and an exponent `q` from `-1074` up.  Nothing
is computed in floating point: comparison and rounding are exact arithmetic on
`m` and `q`.
-/

namespace Stencil

structure Binary64 where
  bits : UInt64
deriving DecidableEq, Repr

/-- The power of a base, as a factor that is one where the exponent is negative.  So
`base ^ exponent`, for any exponent, is `scaleUp base exponent` divided by
`scaleUp base (-exponent)`. -/
def scaleUp (base : Nat) (exponent : Int) : Nat := Nat.pow base exponent.toNat

namespace Binary64

def fractionBits : Nat := 52

/-- The implicit leading bit of a significand, as a number. -/
def hidden : Nat := 0x10000000000000

def signBit : Nat := 0x8000000000000000

def specialExponent : Nat := 0x7FF

def minExponent : Int := -1074

def isNegative (x : Binary64) : Bool := x.bits.toNat / signBit == 1

def exponentField (x : Binary64) : Nat := x.bits.toNat / hidden % (specialExponent + 1)

def fractionField (x : Binary64) : Nat := x.bits.toNat % hidden

/-- What a bit pattern stands for.  `finite` carries the magnitude
`significand * 2 ^ exponent`. -/
inductive Kind where
  | nan
  | infinite
  | finite (significand : Nat) (exponent : Int)
deriving DecidableEq, Repr

def kind (x : Binary64) : Kind :=
  if x.exponentField = specialExponent then
    if x.fractionField = 0 then .infinite else .nan
  else if x.exponentField = 0 then .finite x.fractionField minExponent
  else .finite (hidden + x.fractionField) (x.exponentField + minExponent - 1)

def isNaN (x : Binary64) : Bool := x.kind == .nan

/-- Numeric equality: nothing equals what is not a number, and the two zeros are
equal. -/
def equals (x y : Binary64) : Bool :=
  match x.kind, y.kind with
  | .nan, _ | _, .nan => false
  | .finite 0 _, .finite 0 _ => true
  | _, _ => x.bits == y.bits

def equalsInt (x : Binary64) (i : Int) : Bool :=
  match x.kind with
  | .nan | .infinite => false
  | .finite m q =>
    (m * scaleUp 2 q == i.natAbs * scaleUp 2 (-q)) &&
      (m == 0 || x.isNegative == decide (i < 0))

def ofMagnitudeBits (negative : Bool) (magnitude : Nat) : Binary64 :=
  ⟨UInt64.ofNat (magnitude + if negative then signBit else 0)⟩

def infinity (negative : Bool) : Binary64 :=
  ofMagnitudeBits negative (specialExponent * hidden)

def nan : Binary64 :=
  ofMagnitudeBits false (specialExponent * hidden + hidden / 2)

/-- The natural number nearest to `num / den`; a half goes to the even one. -/
def roundRatio (num den : Nat) : Nat :=
  let low := num / den
  let twice := 2 * (num % den)
  if twice < den || (twice == den && low % 2 == 0) then low else low + 1

/-- The number nearest to `num / den`, for a positive `den`.

The exponent is the least one that leaves the significand below `2 ^ 53`; the
fields are then one sum, in which a significand that was rounded up to the next
power of two carries into the exponent as it should. -/
def ofRatio (negative : Bool) (num den : Nat) : Binary64 :=
  if num = 0 then ofMagnitudeBits negative 0
  else
    let guess : Int := (Nat.log2 num : Int) - Nat.log2 den - fractionBits
    -- The logarithms are rounded down, so the guess is right or one too large.
    let fits (q : Int) : Bool := num * scaleUp 2 (-q) < den * scaleUp 2 q * (2 * hidden)
    let q := max minExponent (if fits (guess - 1) then guess - 1 else guess)
    let m := roundRatio (num * scaleUp 2 (-q)) (den * scaleUp 2 q)
    let magnitude := (q - minExponent).toNat * hidden + m
    if magnitude < specialExponent * hidden then ofMagnitudeBits negative magnitude
    else infinity negative

/-- The number nearest to `digits * 10 ^ exponent`.  A magnitude far outside the
range is decided by its size alone: `digits` lies between `10 ^ (3 * b / 10)` and
`10 ^ (b / 3 + 1)` where `b` is its binary logarithm. -/
def ofDecimal (negative : Bool) (digits : Nat) (exponent : Int) : Binary64 :=
  let log : Int := Nat.log2 digits
  if digits = 0 then ofMagnitudeBits negative 0
  else if exponent + 3 * log / 10 > 310 then infinity negative
  else if exponent + log / 3 + 1 < -330 then ofMagnitudeBits negative 0
  else ofRatio negative (digits * scaleUp 10 exponent) (scaleUp 10 (-exponent))

end Binary64

end Stencil
