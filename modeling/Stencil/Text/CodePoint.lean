/-
# `Stencil.Text.CodePoint` — the numbers of characters

A code point is a number that Unicode has room for.  Nearly all of them number a
character; the surrogates are the exception, and messages show them as escapes.  Two
surrogates next to each other, a high one and a low one, spell a character in 16-bit
units.
-/
import Stencil.Text.Quoted

namespace Stencil

/-- A code point: the number of a character or of a surrogate. -/
structure CodePoint where
  value : Nat
  value_le : value ≤ 0x10FFFF
deriving DecidableEq, Repr

/-- Why a number is not a code point: it is too large, or so large that it is not
even looked at. -/
inductive CodePointFault where
  | beyondRange
  | beyondWord
deriving DecidableEq, Repr

def CodePointFault.message : CodePointFault → String
  | beyondRange => "chr() arg not in range(0x110000)"
  | beyondWord => "Python int too large to convert to C int"

namespace CodePoint

/-- The numbers below this one are looked at. -/
def wordBound : Nat := 0x80000000

def ofNat (n : Nat) : Except CodePointFault CodePoint :=
  if h : n ≤ 0x10FFFF then .ok ⟨n, h⟩
  else .error (if n < wordBound then .beyondRange else .beyondWord)

def ofByte (b : UInt8) : CodePoint :=
  ⟨b.toNat, by have := b.toNat_lt; omega⟩

def ofChar (c : Char) : CodePoint :=
  ⟨c.toNat, by have := c.valid; unfold UInt32.isValidChar Nat.isValidChar at this; unfold Char.toNat; omega⟩

def ofUnit (unit : UInt16) : CodePoint :=
  ⟨unit.toNat, by have := unit.toNat_lt; omega⟩

/-- The code point that a high and a low surrogate spell together: each carries ten bits. -/
def ofPair (high low : UInt16) : CodePoint :=
  ⟨0x10000 + high.toNat % 0x400 * 0x400 + low.toNat % 0x400, by omega⟩

def isHighSurrogate (p : CodePoint) : Bool := 0xD800 ≤ p.value && p.value ≤ 0xDBFF

def isLowSurrogate (p : CodePoint) : Bool := 0xDC00 ≤ p.value && p.value ≤ 0xDFFF

def isSurrogate (p : CodePoint) : Bool := p.isHighSurrogate || p.isLowSurrogate

def escape (p : CodePoint) : List Char := '\\' :: 'u' :: Quoted.hexDigits 4 p.value

/-- A code point as messages show it: its character in quotes. -/
def shown (p : CodePoint) : String :=
  if p.isSurrogate then String.ofList ('\'' :: p.escape ++ ['\''])
  else Quoted.ofText (String.singleton (Char.ofNat p.value))

end CodePoint

end Stencil
