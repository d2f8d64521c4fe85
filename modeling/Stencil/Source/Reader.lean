/-
# `Stencil.Source.Reader` — reading template source

The primitives by which the source of a template is read.  Each starts at the
cursor and leaves it just past what it has read, so that tags can chain them; one
that fails leaves the cursor where it had come to.

A tag ends with a parenthesis or with a body in braces.  Parentheses end at the
first closing one outside quotes.  A body ends at the brace that matches its first
one, or, where braces are not counted, at the first closing brace.
-/
import Stencil.Compile.Error
import Stencil.Cursor

namespace Stencil

abbrev SourceReader (α : Type) := Reader CompileError α

namespace Sign

def pound : UInt8 := 0x23
def quote : UInt8 := 0x22
def parenOpen : UInt8 := 0x28
def parenClose : UInt8 := 0x29
def braceOpen : UInt8 := 0x7B
def braceClose : UInt8 := 0x7D

end Sign

namespace Cursor

def peek (c : Cursor) (offset : Nat) : Option UInt8 := c.rest[offset]?

/-- The cursor `count` bytes further on, but not beyond the end. -/
def advance (c : Cursor) (count : Nat) : Cursor :=
  if c.position + count ≤ c.data.length then c.forward count
  else ofPosition c.data c.data.length

/-- Do these bytes lie ahead?  No bytes lie ahead anywhere but beyond the end. -/
def startsWith (c : Cursor) (bytes : Bytes) : Bool :=
  bytes.isPrefixOf c.rest && (!bytes.isEmpty || c.position ≤ c.data.length)

def skip (c : Cursor) (inClass : UInt8 → Bool) : Cursor :=
  c.forward (c.rest.takeWhile inClass).length

def skipBlanks (c : Cursor) : Cursor := c.skip Bytes.isBlank

def nextSignificant (c : Cursor) : Option UInt8 := c.skipBlanks.peek 0

theorem length_rest_skip_le (c : Cursor) (inClass : UInt8 → Bool) :
    (c.skip inClass).rest.length ≤ c.rest.length := by
  rw [skip, length_rest_forward]
  omega

end Cursor

namespace SourceReader

open EStateM (Result)

/-- Reads up to a delimiter, and the delimiter too.  Where there is none, fails if
one is required, and else reads all that lies ahead. -/
def readUntil (isDelimiter : UInt8 → Bool) (required : Bool) : SourceReader Bytes := fun c =>
  let found := c.rest.takeWhile (fun b => !isDelimiter b)
  match c.rest.drop found.length with
  | _ :: _ => .ok found (c.forward (found.length + 1))
  | [] =>
    let c := c.forward found.length
    if required then .error (.unexpectedEnd c.position) c else .ok found c

def skipBlanks : SourceReader Unit := fun c => .ok () c.skipBlanks

def expectByte (expected : UInt8) : SourceReader Unit := fun c =>
  if c.peek 0 = some expected then .ok () (c.forward 1)
  else .error (.missingByte (c.peek 0) (.ofByte expected)) c

/-- Reads the byte that a code point numbers.  A source holds no code point beyond the
bytes. -/
def expectCode (expected : CodePoint) : SourceReader Unit := fun c =>
  if expected.value < UInt8.size then expectByte (UInt8.ofNat expected.value) c
  else .error (.missingByte (c.peek 0) expected) c

def readString : SourceReader Bytes := do
  expectByte Sign.quote
  readUntil (· == Sign.quote) true

/-- Reads a string between quotes within the parentheses of a tag; where the source
ends instead, the tag is not closed. -/
def readTagString : SourceReader Bytes := fun c =>
  if c.atEnd then .error (.tagNotClosed c.position) c
  -- The fault is told where the string begins, not where the source ends.
  else match readString c with
  | .error (.unexpectedEnd _) c' => .error (.tagNotClosed c.position) c'
  | result => result

def closeTag : SourceReader Unit := fun c =>
  if c.atEnd then .error (.tagNotClosed c.position) c else expectByte Sign.parenClose c

/-- Reads the name of a tag, and the parenthesis that opens its arguments. -/
def readTagName : SourceReader Bytes := fun c =>
  let name := c.rest.takeWhile (fun b => !(Bytes.isBlank b || b == Sign.parenOpen))
  let c' := c.forward name.length
  match c.rest.drop name.length with
  | [] => .error (.tagNotOpened c'.position) c'
  | b :: _ =>
    if b = Sign.parenOpen then .ok name (c.forward (name.length + 1))
    else .error (.blankInTagName c'.position) c'

theorem consumes_expectByte (expected : UInt8) : Reader.Consumes (expectByte expected) := by
  intro c a c' h
  unfold expectByte at h
  split at h
  · cases h
    next hp =>
    have : c.rest ≠ [] := by
      intro hr
      simp [Cursor.peek, hr] at hp
    have := List.length_pos_iff.2 this
    rw [Cursor.length_rest_forward]
    omega
  · cases h

theorem onward_readUntil (isDelimiter : UInt8 → Bool) (required : Bool) :
    Reader.Onward (readUntil isDelimiter required) := by
  intro c a c' h
  simp only [readUntil] at h
  split at h
  · cases h
    rw [Cursor.length_rest_forward]
    omega
  · split at h <;> cases h
    rw [Cursor.length_rest_forward]
    omega

theorem consumes_readString : Reader.Consumes readString :=
  (consumes_expectByte _).bind fun _ => onward_readUntil _ _

theorem consumes_readTagString : Reader.Consumes readTagString := by
  intro c a c' h
  unfold readTagString at h
  split at h
  · cases h
  · split at h
    · cases h
    · exact consumes_readString _ _ _ h

theorem onward_closeTag : Reader.Onward closeTag := by
  intro c a c' h
  unfold closeTag at h
  split at h
  · cases h
  · exact (consumes_expectByte _).onward _ _ _ h

theorem consumes_readTagName : Reader.Consumes readTagName := by
  intro c a c' h
  simp only [readTagName] at h
  split at h
  · cases h
  · next hd =>
    split at h <;> cases h
    have := congrArg List.length hd
    simp only [List.length_drop, List.length_cons, Cursor.length_rest_forward] at this ⊢
    omega

/-- Reads the arguments of a tag and the parenthesis that closes them, behind what
has been read of them, last byte first.  Within quotes a parenthesis closes
nothing. -/
def readArgumentsFrom (found : Bytes) (c : Cursor) : Result CompileError Cursor Bytes :=
  match hc : c.rest with
  | [] => .error (.tagNotClosed c.position) c
  | b :: _ =>
    if b = Sign.parenClose then .ok found.reverse (c.past hc)
    else if b = Sign.quote then
      match _stringRead : readTagString c with
      | .error e c' => .error e c'
      | .ok s c' => readArgumentsFrom (Sign.quote :: s.reverseAux (Sign.quote :: found)) c'
    else readArgumentsFrom (b :: found) (c.past hc)
termination_by c.rest.length
decreasing_by
  · exact consumes_readTagString _ _ _ _stringRead
  · exact c.length_rest_past hc

def readArguments : SourceReader Bytes := readArgumentsFrom []

theorem consumes_readArguments : Reader.Consumes readArguments := by
  suffices ∀ found, Reader.Consumes (readArgumentsFrom found) from this []
  intro found c a c' h
  fun_induction readArgumentsFrom found c with
  | case1 => cases h
  | case2 =>
    cases h
    exact Cursor.length_rest_past _ _
  | case3 => cases h
  | case4 =>
    rename_i ih
    exact Nat.lt_trans (ih h) (consumes_readTagString _ _ _ (by assumption))
  | case5 _ c _ _ hc _ _ ih => exact Nat.lt_trans (ih h) (c.length_rest_past hc)

/-- How many bytes lie before the brace that closes a body, where `depth` braces of
the body are open, beyond the `count` bytes read so far.  Where braces are not
counted, none is ever open. -/
def closingIndex? (counting : Bool) (depth count : Nat) : Bytes → Option Nat
  | [] => none
  | b :: rest =>
    if b = Sign.braceOpen && counting then closingIndex? counting (depth + 1) (count + 1) rest
    else if b = Sign.braceClose then
      match depth with
      | 0 => some count
      | depth + 1 => closingIndex? counting depth (count + 1) rest
    else closingIndex? counting depth (count + 1) rest

def readBodyEnd (counting : Bool) : SourceReader Bytes := fun c =>
  match closingIndex? counting 0 0 c.rest with
  | some n => .ok (c.rest.take n) (c.forward (n + 1))
  | none => .error (.tagNotClosed c.position) (c.forward c.rest.length)

/-- Reads the body of a tag between braces, with blanks in front of it. -/
def readBody (counting : Bool) : SourceReader Bytes := do
  skipBlanks
  expectByte Sign.braceOpen
  readBodyEnd counting

theorem onward_skipBlanks : Reader.Onward skipBlanks := by
  rintro c _ c' ⟨⟩
  exact c.length_rest_skip_le _

theorem onward_readBodyEnd (counting : Bool) : Reader.Onward (readBodyEnd counting) := by
  intro c a c' h
  unfold readBodyEnd at h
  split at h <;> cases h
  rw [Cursor.length_rest_forward]
  omega

theorem consumes_readBody (counting : Bool) : Reader.Consumes (readBody counting) :=
  Reader.Onward.bindConsumes onward_skipBlanks fun _ =>
    (consumes_expectByte _).bind fun _ => onward_readBodyEnd _

end SourceReader

end Stencil
