/-
# `Stencil.Text.Basic` — texts, with lone surrogates or without

A text of the host is a row of code points.  Mostly they are characters, and then the
text is a string.  But half of a surrogate pair may stand by itself: an escape of a
JSON text puts it there.  Such a text can be kept, compared and shown, and only has no
bytes: to encode it fails at the first surrogates.
-/
import Stencil.Text.CodePoint
import Stencil.Text.Utf8

namespace Stencil

/-- A text.  Each has one form: it is `broken` only if a surrogate is among its code
points. -/
inductive Text where
  | whole (s : String)
  | broken (points : List CodePoint) (lone : points.any CodePoint.isSurrogate = true)
deriving DecidableEq, Repr

/-- The first surrogates that a text cannot be encoded for, and where they start. -/
structure LoneSurrogates where
  start : Nat
  run : List CodePoint
deriving DecidableEq, Repr

namespace LoneSurrogates

def ofPoints (points : List CodePoint) : LoneSurrogates :=
  let start := points.findIdx CodePoint.isSurrogate
  ⟨start, (points.drop start).takeWhile CodePoint.isSurrogate⟩

def message (e : LoneSurrogates) : String :=
  let place := match e.run with
    | [p] => "character " ++ p.shown ++ s!" in position {e.start}"
    | run =>
      let last := e.start + run.length - 1
      s!"characters in position {e.start}-{last}"
  "'utf-8' codec can't encode " ++ place ++ ": surrogates not allowed"

end LoneSurrogates

namespace Text

instance : Coe String Text := ⟨whole⟩

instance : Inhabited Text := ⟨whole ""⟩

def points : Text → List CodePoint
  | whole s => s.toList.map CodePoint.ofChar
  | broken points _ => points

/-- The text of code points.  Two halves that stand next to each other are not joined. -/
def ofPoints (points : List CodePoint) : Text :=
  if lone : points.any CodePoint.isSurrogate = true then broken points lone
  else whole (String.ofList (points.map fun p => Char.ofNat p.value))

/-- The texts of one code point each that a text consists of. -/
def characters : Text → List Text
  | whole s => s.toList.map fun c => whole (String.singleton c)
  | broken points _ => points.map fun p => ofPoints [p]

def encode : Text → Except LoneSurrogates Bytes
  | whole s => .ok (Utf8.encode s)
  | broken points _ => .error (.ofPoints points)

/-- A text in quotes; a surrogate is escaped. -/
def shown : Text → String
  | whole s => Quoted.ofText s
  | broken points _ =>
    let has (n : Nat) : Bool := points.any (·.value == n)
    let quote := Quoted.quoteFor (has 0x27) (has 0x22)
    let escaped := points.flatMap fun p =>
      if p.isSurrogate then p.escape else Quoted.escapeChar quote (Char.ofNat p.value)
    String.ofList (quote :: escaped ++ [quote])

end Text

end Stencil
