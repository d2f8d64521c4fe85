/-
# `Stencil.Text.Quoted` — texts and byte strings in quotes

Messages show a text or a byte string between quotes, with escapes for what
cannot be shown.  The quotes are single ones, unless the content has single
quotes and no double ones; so the quote itself is escaped only where the content
has both.
-/
import Stencil.Bytes
import Stencil.Text.CharClass

namespace Stencil.Quoted

/-- The quote to put around a content, by whether it has single and double
quotes itself. -/
def quoteFor (hasSingle hasDouble : Bool) : Char :=
  if hasSingle && !hasDouble then '"' else '\''

/-- The lower-case hexadecimal digits of a number, at least `width` many. -/
def hexDigits (width n : Nat) : List Char :=
  let digits := (Nat.toDigits 16 n)
  List.replicate (width - digits.length) '0' ++ digits

/-- The escapes that a text and a byte string share. -/
def commonEscape? (quote : Char) (c : Char) : Option (List Char) :=
  if c = quote || c = '\\' then some ['\\', c]
  else if c = '\t' then some ['\\', 't']
  else if c = '\n' then some ['\\', 'n']
  else if c = '\r' then some ['\\', 'r']
  else none

def escapeChar (quote : Char) (c : Char) : List Char :=
  match commonEscape? quote c with
  | some escaped => escaped
  | none =>
    if CharClass.isPrintable c then [c]
    else if c.toNat < 0x100 then '\\' :: 'x' :: hexDigits 2 c.toNat
    else if c.toNat < 0x10000 then '\\' :: 'u' :: hexDigits 4 c.toNat
    else '\\' :: 'U' :: hexDigits 8 c.toNat

def escapeByte (quote : Char) (b : UInt8) : List Char :=
  match commonEscape? quote (Char.ofNat b.toNat) with
  | some escaped => escaped
  | none =>
    if 0x20 ≤ b && b ≤ 0x7E then [Char.ofNat b.toNat]
    else '\\' :: 'x' :: hexDigits 2 b.toNat

def ofText (s : String) : String :=
  let cs := s.toList
  let quote := quoteFor (cs.contains '\'') (cs.contains '"')
  String.ofList (quote :: cs.flatMap (escapeChar quote) ++ [quote])

def ofBytes (bs : Bytes) : String :=
  let quote := quoteFor (bs.contains 0x27) (bs.contains 0x22)
  String.ofList ('b' :: quote :: bs.flatMap (escapeByte quote) ++ [quote])

end Stencil.Quoted
