/-
# `Stencil.Package.Sha256` — the digest that seals a package

SHA-256.  A message is padded to whole blocks of sixteen 32-bit words; each block is
stretched to sixty-four words, which drive as many rounds on eight words of state; the
state after a block is added to the one before.  Words have their high byte first.
-/
import Stencil.Bytes

namespace Stencil.Sha256

structure State where
  a : UInt32
  b : UInt32
  c : UInt32
  d : UInt32
  e : UInt32
  f : UInt32
  g : UInt32
  h : UInt32
deriving DecidableEq, Repr

namespace State

def start : State :=
  ⟨0x6a09e667, 0xbb67ae85, 0x3c6ef372, 0xa54ff53a, 0x510e527f, 0x9b05688c, 0x1f83d9ab, 0x5be0cd19⟩

def add (s t : State) : State :=
  ⟨s.a + t.a, s.b + t.b, s.c + t.c, s.d + t.d, s.e + t.e, s.f + t.f, s.g + t.g, s.h + t.h⟩

def words (s : State) : List UInt32 := [s.a, s.b, s.c, s.d, s.e, s.f, s.g, s.h]

end State

def roundConstants : List UInt32 := [
  0x428a2f98, 0x71374491, 0xb5c0fbcf, 0xe9b5dba5, 0x3956c25b, 0x59f111f1, 0x923f82a4, 0xab1c5ed5,
  0xd807aa98, 0x12835b01, 0x243185be, 0x550c7dc3, 0x72be5d74, 0x80deb1fe, 0x9bdc06a7, 0xc19bf174,
  0xe49b69c1, 0xefbe4786, 0x0fc19dc6, 0x240ca1cc, 0x2de92c6f, 0x4a7484aa, 0x5cb0a9dc, 0x76f988da,
  0x983e5152, 0xa831c66d, 0xb00327c8, 0xbf597fc7, 0xc6e00bf3, 0xd5a79147, 0x06ca6351, 0x14292967,
  0x27b70a85, 0x2e1b2138, 0x4d2c6dfc, 0x53380d13, 0x650a7354, 0x766a0abb, 0x81c2c92e, 0x92722c85,
  0xa2bfe8a1, 0xa81a664b, 0xc24b8b70, 0xc76c51a3, 0xd192e819, 0xd6990624, 0xf40e3585, 0x106aa070,
  0x19a4c116, 0x1e376c08, 0x2748774c, 0x34b0bcb5, 0x391c0cb3, 0x4ed8aa4a, 0x5b9cca4f, 0x682e6ff3,
  0x748f82ee, 0x78a5636f, 0x84c87814, 0x8cc70208, 0x90befffa, 0xa4506ceb, 0xbef9a3f7, 0xc67178f2]

def rotate (x : UInt32) (count : UInt32) : UInt32 :=
  x >>> count ||| x <<< (32 - count)

/-- Stretches a block by `count` words; its words are given last one first. -/
def stretch (words : List UInt32) : Nat → List UInt32
  | 0 => words
  | count + 1 =>
    let x := words.getD 14 0
    let y := words.getD 1 0
    let sx := rotate x 7 ^^^ rotate x 18 ^^^ x >>> 3
    let sy := rotate y 17 ^^^ rotate y 19 ^^^ y >>> 10
    stretch ((words.getD 15 0 + sx + words.getD 6 0 + sy) :: words) count

def round (s : State) (step : UInt32 × UInt32) : State :=
  let se := rotate s.e 6 ^^^ rotate s.e 11 ^^^ rotate s.e 25
  let choice := (s.e &&& s.f) ^^^ (~~~s.e &&& s.g)
  let t := s.h + se + choice + step.1 + step.2
  let sa := rotate s.a 2 ^^^ rotate s.a 13 ^^^ rotate s.a 22
  let majority := (s.a &&& s.b) ^^^ (s.a &&& s.c) ^^^ (s.b &&& s.c)
  ⟨t + sa + majority, s.a, s.b, s.c, s.d + t, s.e, s.f, s.g⟩

def compress (s : State) (block : List UInt32) : State :=
  let words := (stretch block.reverse 48).reverse
  s.add ((roundConstants.zip words).foldl round s)

/-- The bytes of a number, high byte first, in `count` bytes. -/
def bigEndian (count n : Nat) : Bytes :=
  (List.range count).map fun i => UInt8.ofNat (n >>> (8 * (count - 1 - i)))

/-- A message filled up to whole blocks: a one bit, zeros, and its length in bits. -/
def pad (message : Bytes) : Bytes :=
  let zeros := (119 - message.length % 64) % 64
  message ++ 0x80 :: List.replicate zeros 0 ++ bigEndian 8 (8 * message.length)

def words : Bytes → List UInt32
  | a :: b :: c :: d :: rest =>
    (a.toUInt32 <<< 24 ||| b.toUInt32 <<< 16 ||| c.toUInt32 <<< 8 ||| d.toUInt32) :: words rest
  | _ => []

/-- The state after some words, in blocks of sixteen; what is left over is dropped. -/
def absorb (s : State) (words : List UInt32) : State :=
  match _left : words.drop 15 with
  | [] => s
  | _ :: rest => absorb (compress s (words.take 16)) rest
termination_by words.length
decreasing_by
  have := congrArg List.length _left
  simp only [List.length_drop, List.length_cons] at this
  omega

def digest (message : Bytes) : Bytes :=
  (absorb .start (words (pad message))).words.flatMap fun w => bigEndian 4 w.toNat

def digestSize : Nat := 32

theorem length_digest (message : Bytes) : (digest message).length = digestSize := by
  simp [digest, State.words, bigEndian, digestSize]

end Stencil.Sha256
