/-
# `Stencil.Text.Utf8` — characters as bytes and back

A byte string is cut into pieces from the left.  A piece is a character, or a
malformed run of bytes: the longest run that begins like a character and then
goes wrong, or one byte if it cannot begin a character at all.  Surrogates and
code points above `0x10FFFF` have no encoding, nor have overlong spellings.

Everything else reads the pieces: strict decoding asks for characters only and
else tells the first malformed run and where it stands, and lossy decoding puts
one replacement character for each malformed run.
-/
import Stencil.Bytes

namespace Stencil.Utf8

inductive Reason where
  | invalidStart
  | invalidContinuation
  | unexpectedEnd
deriving DecidableEq, Repr

structure Malformed where
  size : Nat
  reason : Reason
deriving DecidableEq, Repr

/-- A piece of a byte string: a character or a malformed run. -/
abbrev Piece := Except Malformed Char

def encode (s : String) : Bytes :=
  s.toList.flatMap String.utf8EncodeChar

/-- Is this a byte that continues a character, within the given bounds? -/
def isWithin (lo hi : UInt8) (b : UInt8) : Bool :=
  lo ≤ b && b ≤ hi

def tailBits (b : UInt8) : Nat := b.toNat % 64

/-- The bounds of the second byte after a first byte of a longer character.
They rule out overlong spellings, surrogates and what lies above `0x10FFFF`. -/
def secondBounds (b : UInt8) : UInt8 × UInt8 :=
  if b = 0xE0 then (0xA0, 0xBF)
  else if b = 0xED then (0x80, 0x9F)
  else if b = 0xF0 then (0x90, 0xBF)
  else if b = 0xF4 then (0x80, 0x8F)
  else (0x80, 0xBF)

/-- Reads the remaining `count` bytes of a character whose bytes so far are
`size` many and spell `code`.  The next byte has to lie within `bounds`, each
later one between `0x80` and `0xBF`. -/
def readTail (count size code : Nat) (bounds : UInt8 × UInt8) (bs : Bytes) : Piece × Bytes :=
  match count, bs with
  | 0, rest => (.ok (Char.ofNat code), rest)
  | _ + 1, [] => (.error ⟨size, .unexpectedEnd⟩, [])
  | n + 1, b :: rest =>
    if isWithin bounds.1 bounds.2 b then
      readTail n (size + 1) (code * 64 + tailBits b) (0x80, 0xBF) rest
    else (.error ⟨size, .invalidContinuation⟩, b :: rest)

def readPiece (b : UInt8) (rest : Bytes) : Piece × Bytes :=
  if b < 0x80 then (.ok (Char.ofNat b.toNat), rest)
  -- Behind `0xC0` and `0xC1` every spelling would be overlong.
  else if b < 0xC2 then (.error ⟨1, .invalidStart⟩, rest)
  else if b < 0xE0 then readTail 1 1 (b.toNat % 32) (secondBounds b) rest
  else if b < 0xF0 then readTail 2 1 (b.toNat % 16) (secondBounds b) rest
  else if b < 0xF5 then readTail 3 1 (b.toNat % 8) (secondBounds b) rest
  else (.error ⟨1, .invalidStart⟩, rest)

theorem length_readTail_le (count size code : Nat) (bounds : UInt8 × UInt8) (bs : Bytes) :
    (readTail count size code bounds bs).2.length ≤ bs.length := by
  fun_induction readTail count size code bounds bs <;> grind

theorem length_readPiece_le (b : UInt8) (rest : Bytes) :
    (readPiece b rest).2.length ≤ rest.length := by
  unfold readPiece
  repeat' split
  all_goals first | exact Nat.le_refl _ | exact length_readTail_le ..

/-- The pieces of a byte string, put in order behind those already found, which
are given last one first. -/
def collect (found : List Piece) : Bytes → List Piece
  | [] => found.reverse
  | b :: rest => collect ((readPiece b rest).1 :: found) (readPiece b rest).2
termination_by bs => bs.length
decreasing_by
  have := length_readPiece_le b rest
  simp only [List.length_cons]
  omega

def pieces (bs : Bytes) : List Piece := collect [] bs

theorem collect_eq (found : List Piece) (bs : Bytes) :
    collect found bs = found.reverse ++ collect [] bs := by
  match bs with
  | [] => simp [collect]
  | b :: rest =>
    have h := length_readPiece_le b rest
    rw [collect, collect, collect_eq (_ :: found), collect_eq [_]]
    simp
termination_by bs.length
decreasing_by all_goals simp_wf; omega

theorem pieces_cons (b : UInt8) (rest : Bytes) :
    pieces (b :: rest) = (readPiece b rest).1 :: pieces (readPiece b rest).2 := by
  rw [pieces, collect, collect_eq]
  rfl

theorem pieces_nil : pieces [] = [] := by
  simp [pieces, collect]

structure DecodeError where
  start : Nat
  run : Malformed
deriving DecidableEq, Repr

/-- Puts the characters of well-formed pieces in order behind those already
read, given last one first; `start` is the number of bytes read so far. -/
def gather (read : List Char) (start : Nat) : List Piece → Except DecodeError (List Char)
  | [] => .ok read.reverse
  | .ok c :: rest => gather (c :: read) (start + c.utf8Size) rest
  | .error run :: _ => .error ⟨start, run⟩

def decode (bs : Bytes) : Except DecodeError String :=
  (gather [] 0 (pieces bs)).map String.ofList

def decode? (bs : Bytes) : Option String :=
  (decode bs).toOption

/-- The text that a byte string spells, with a replacement character in the
place of each malformed run. -/
def decodeLossy (bs : Bytes) : String :=
  String.ofList ((pieces bs).map fun
    | .ok c => c
    | .error _ => '\uFFFD')

def Reason.message : Reason → String
  | .invalidStart => "invalid start byte"
  | .invalidContinuation => "invalid continuation byte"
  | .unexpectedEnd => "unexpected end of data"

end Stencil.Utf8
