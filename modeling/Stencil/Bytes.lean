/-
# `Stencil.Bytes` — the byte strings that templates and bytecode are made of

Sources, bytecode and output are all byte strings.  They are lists, so that a
reader can be a function from a list to what it read and the rest of the list,
and a proof about a reader an induction on the list.

Two small formats live here because every layer shares them: the blank bytes
that separate the parts of a tag, and the length field of the bytecode, an
unsigned 32-bit number with its low byte first.
-/

namespace Stencil

abbrev Bytes := List UInt8

namespace Bytes

/-- The bytes that count as white space in a template: space, tab, carriage
return and line feed. -/
def isBlank (b : UInt8) : Bool :=
  b == 0x20 || b == 0x09 || b == 0x0D || b == 0x0A

def lengthFieldSize : Nat := 4

def lengthBound : Nat := 0x100000000

/-- The length field that stands for `n`, low byte first. -/
def lengthField (n : Nat) : Bytes :=
  [UInt8.ofNat n, UInt8.ofNat (n / 0x100), UInt8.ofNat (n / 0x10000), UInt8.ofNat (n / 0x1000000)]

def ofLittleEndian : Bytes → Nat
  | [] => 0
  | b :: rest => b.toNat + 0x100 * ofLittleEndian rest

/-- Why a number has no length field: it is too large for one, or no unsigned 64-bit
number at all. -/
inductive LengthFault where
  | beyondField
  | beyondWord
deriving DecidableEq, Repr

namespace LengthFault

def message : LengthFault → String
  | beyondField => s!"'I' format requires 0 <= number <= {lengthBound - 1}"
  | beyondWord => "argument out of range"

end LengthFault

/-- The numbers from zero up to this one, itself left out, are unsigned 64-bit numbers. -/
def wordBound : Nat := 0x10000000000000000

def checkedLengthField (n : Int) : Except LengthFault Bytes :=
  if n < 0 || wordBound ≤ n then .error .beyondWord
  else if lengthBound ≤ n then .error .beyondField
  else .ok (lengthField n.toNat)

theorem length_lengthField (n : Nat) : (lengthField n).length = lengthFieldSize := rfl

theorem ofLittleEndian_lengthField {n : Nat} (h : n < lengthBound) :
    ofLittleEndian (lengthField n) = n := by
  simp only [lengthField, lengthBound, ofLittleEndian, UInt8.toNat_ofNat', Nat.reducePow] at *
  omega

def hexDigit (n : Nat) : Char :=
  if n < 10 then Char.ofNat (0x30 + n) else Char.ofNat (0x57 + n)

def hex (bs : Bytes) : String :=
  String.ofList (bs.flatMap fun b => [hexDigit (b.toNat / 16), hexDigit (b.toNat % 16)])

end Bytes

end Stencil
