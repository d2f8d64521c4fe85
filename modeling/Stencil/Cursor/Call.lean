/-
# `Stencil.Cursor.Call` — calls on a cursor

A host reads source and bytecode by calls on a cursor, one after the other.  A call looks at what
lies ahead, moves the cursor, or reads; it fails or yields an answer, whose type depends on the
call.  A call that fails leaves the cursor where it had come to, and the next one starts there.

All numbers that a call is given count from zero up.
-/
import Stencil.Bytecode.Reader
import Stencil.Source.Reader

namespace Stencil

namespace Reader

variable {ε α κ : Type} {Answer : κ → Type}

def look (f : Cursor → α) : Reader ε α := fun c => .ok (f c) c

def move (f : Cursor → Cursor) : Reader ε Unit := fun c => .ok () (f c)

/-- The cursor after a reader, be it that the reader fails. -/
def after (r : Reader ε α) (c : Cursor) : Cursor :=
  match r c with
  | .ok _ c' | .error _ c' => c'

/-- The cursor after some calls, of which any may fail. -/
def afterAll (run : (call : κ) → Reader ε (Answer call)) (c : Cursor) (calls : List κ) : Cursor :=
  calls.foldl (fun c call => (run call).after c) c

end Reader

/-! ## Source -/

inductive SourceCall where
  | atEnd
  | peek (offset : Nat)
  | advance (count : Nat)
  | startsWith (bytes : Bytes)
  | readUntil (isDelimiter : UInt8 → Bool) (required : Bool)
  | skip (inClass : UInt8 → Bool)
  | skipBlanks
  | nextSignificant
  | expect (number : Nat)
  | readString
  | readTagString
  | closeTag
  | readTagName
  | readArguments
  | readBody (counting : Bool)

/-- Why a call on a cursor of source fails: by what the source says, or because the number of the
character to expect is no code point. -/
inductive SourceFault where
  | source (e : CompileError)
  | codePoint (e : CodePointFault)
deriving DecidableEq, Repr

namespace SourceCall

/-- What a call yields that does not fail. -/
def Answer : SourceCall → Type
  | atEnd | startsWith _ => Bool
  | peek _ | nextSignificant => Option UInt8
  | advance _ | skip _ | skipBlanks | expect _ | closeTag => Unit
  | readUntil _ _ | readString | readTagString | readTagName | readArguments | readBody _ => Bytes

def expectNumber (number : Nat) : Reader SourceFault Unit :=
  match CodePoint.ofNat number with
  | .ok expected => (SourceReader.expectCode expected).adaptExcept .source
  | .error e => throw (.codePoint e)

def run : (call : SourceCall) → Reader SourceFault call.Answer
  | atEnd => .look Cursor.atEnd
  | peek offset => .look (·.peek offset)
  | advance count => .move (·.advance count)
  | startsWith bytes => .look (·.startsWith bytes)
  | readUntil isDelimiter required =>
    (SourceReader.readUntil isDelimiter required).adaptExcept .source
  | skip inClass => .move (·.skip inClass)
  | skipBlanks => .move Cursor.skipBlanks
  | nextSignificant => .look Cursor.nextSignificant
  | expect number => expectNumber number
  | readString => SourceReader.readString.adaptExcept .source
  | readTagString => SourceReader.readTagString.adaptExcept .source
  | closeTag => SourceReader.closeTag.adaptExcept .source
  | readTagName => SourceReader.readTagName.adaptExcept .source
  | readArguments => SourceReader.readArguments.adaptExcept .source
  | readBody counting => (SourceReader.readBody counting).adaptExcept .source

def afterAll (source : Bytes) (start : Nat) (calls : List SourceCall) : Cursor :=
  Reader.afterAll run (.ofPosition source start) calls

end SourceCall

/-! ## Bytecode -/

inductive CodeCall where
  | atEnd
  | require (count : Nat)
  | seek (position : Nat)
  | peekByte
  | readByte
  | readBytes (count : Nat)
  | readLength
  | readClosed
  | readName
  | readPath
deriving DecidableEq, Repr

namespace CodeCall

def Answer : CodeCall → Type
  | atEnd => Bool
  | require _ | seek _ => Unit
  | peekByte | readByte => UInt8
  | readBytes _ | readClosed => Bytes
  | readLength => Nat
  | readName => String
  | readPath => List String

def run : (call : CodeCall) → CodeReader call.Answer
  | atEnd => .look Cursor.atEnd
  | require count => CodeReader.require count
  | seek position => CodeReader.seek position
  | peekByte => CodeReader.peekByte
  | readByte => CodeReader.readByte
  | readBytes count => CodeReader.readBytes count
  | readLength => CodeReader.readLength
  | readClosed => CodeReader.readClosed
  | readName => CodeReader.readName
  | readPath => CodeReader.readPath

def afterAll (code : Bytes) (start : Nat) (calls : List CodeCall) : Cursor :=
  Reader.afterAll run (.ofPosition code start) calls

end CodeCall

end Stencil
