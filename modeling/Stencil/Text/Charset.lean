/-
# `Stencil.Text.Charset` — character sets for rendered text

Output is bytes.  A caller who wants text names a character set; bytes that are
not in it are refused, with the place of the first bad run.
-/
import Stencil.Text.Quoted
import Stencil.Text.Utf8

namespace Stencil

inductive Charset where
  | utf8
  | ascii
  | latin1
deriving DecidableEq, Repr

/-- Bytes that are not in a character set.  `run` holds the bad bytes, which start
at `start`. -/
structure CharsetError where
  charset : Charset
  start : Nat
  run : Bytes
  reason : String
deriving DecidableEq, Repr

namespace Charset

def name : Charset → String
  | utf8 => "utf-8"
  | ascii => "ascii"
  | latin1 => "latin-1"

def decode (charset : Charset) (data : Bytes) : Except CharsetError String :=
  match charset with
  | utf8 =>
    match Utf8.decode data with
    | .ok s => .ok s
    | .error e =>
      .error ⟨utf8, e.start, (data.drop e.start).take e.run.size, e.run.reason.message⟩
  | ascii =>
    match data.findIdx? (· ≥ 0x80) with
    | none => .ok (String.ofList (data.map fun b => Char.ofNat b.toNat))
    | some start => .error ⟨ascii, start, (data.drop start).take 1, "ordinal not in range(128)"⟩
  | latin1 => .ok (String.ofList (data.map fun b => Char.ofNat b.toNat))

end Charset

namespace CharsetError

def message (e : CharsetError) : String :=
  let place := match e.run with
    | [b] => "byte 0x" ++ String.ofList (Quoted.hexDigits 2 b.toNat) ++ s!" in position {e.start}"
    | run =>
      let last := e.start + run.length - 1
      s!"bytes in position {e.start}-{last}"
  "'" ++ e.charset.name ++ "' codec can't decode " ++ place ++ ": " ++ e.reason

end CharsetError

end Stencil
