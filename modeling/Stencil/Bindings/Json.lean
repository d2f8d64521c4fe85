/-
# `Stencil.Bindings.Json` — JSON texts as host values

A JSON text holds one value, with blanks around it.  Beyond the standard, `NaN` and the
two infinities are numbers.  A number with a fraction or an exponent is a floating-point
number, any other an integer.  A key that is repeated in an object keeps its place and
takes the later value.  Half of a surrogate pair that is escaped alone is kept.

The reader keeps a stack of the containers it is in.  A fault is placed by the text that
remains where it is found, and only told in lines and columns at the end.  For the
open containers the host has limited room.
-/
import Stencil.Value.Host

namespace Stencil.Json

inductive Fault where
  | byteOrderMark
  | expectingValue
  | expectingName
  | expectingColon
  | expectingComma
  | extraData
  | invalidControl
  | unterminatedString
  | invalidEscape
  | invalidUnicodeEscape
deriving DecidableEq, Repr

inductive Container where
  | array
  | object
deriving DecidableEq, Repr

inductive ReadError where
  | malformed (fault : Fault) (line column position : Nat)
  | tooManyDigits (e : TooManyDigits)
  | nestingTooDeep (innermost : Container)
deriving DecidableEq, Repr

def Fault.message : Fault → String
  | byteOrderMark => "Unexpected UTF-8 BOM (decode using utf-8-sig)"
  | expectingValue => "Expecting value"
  | expectingName => "Expecting property name enclosed in double quotes"
  | expectingColon => "Expecting ':' delimiter"
  | expectingComma => "Expecting ',' delimiter"
  | extraData => "Extra data"
  | invalidControl => "Invalid control character at"
  | unterminatedString => "Unterminated string starting at"
  | invalidEscape => "Invalid \\escape"
  | invalidUnicodeEscape => "Invalid \\uXXXX escape"

def Container.name : Container → String
  | array => "array"
  | object => "object"

def ReadError.message : ReadError → String
  | malformed fault line column position =>
    fault.message ++ s!": line {line} column {column} (char {position})"
  | tooManyDigits e => e.message
  | nestingTooDeep innermost =>
    "maximum recursion depth exceeded while decoding a JSON " ++ innermost.name ++
      " from a unicode string"

/-- A stop of the reader.  A fault comes with how many characters remain where it is. -/
inductive Stop where
  | fault (what : Fault) (remaining : Nat)
  | tooManyDigits (e : TooManyDigits)
  | nestingTooDeep (innermost : Container)
deriving DecidableEq, Repr

def isBlank (c : Char) : Bool :=
  c == ' ' || c == '\t' || c == '\n' || c == '\r'

def skipBlanks (cs : List Char) : List Char := cs.dropWhile isBlank

def hexValue? (c : Char) : Option Nat :=
  if c.isDigit then some (c.toNat - 0x30)
  else if 'a' ≤ c && c ≤ 'f' then some (c.toNat - 0x57)
  else if 'A' ≤ c && c ≤ 'F' then some (c.toNat - 0x37)
  else none

/-- The 16-bit unit that the first four characters spell in hexadecimal digits. -/
def fourHex? (cs : List Char) : Option UInt16 :=
  ((cs.take 4).mapM hexValue?).map fun digits =>
    digits.foldl (fun n d => 16 * n + UInt16.ofNat d) 0

/-- Reads the escape that four hexadecimal digits spell, behind the letter `u`; a second
such escape may complete a surrogate pair.  A character has to follow the digits, for a
string has to end.  Yields the code point and how many characters spell it. -/
def readUnicodeEscape (cs : List Char) : Except Stop (CodePoint × Nat) :=
  match if (cs.drop 4).isEmpty then none else fourHex? cs with
  -- Told where the letter stands.
  | none => .error (.fault .invalidUnicodeEscape (cs.length + 1))
  | some unit =>
    let point := CodePoint.ofUnit unit
    let after := cs.drop 4
    if point.isHighSurrogate && ['\\', 'u'].isPrefixOf after && !(after.drop 6).isEmpty then
      match fourHex? (after.drop 2) with
      | none => .error (.fault .invalidUnicodeEscape (after.drop 1).length)
      | some next =>
        if (CodePoint.ofUnit next).isLowSurrogate then .ok (.ofPair unit next, 10)
        else .ok (point, 4)
    else .ok (point, 4)

/-- Reads an escape that starts with `c`, behind the backslash.  Yields the code point
and how many characters spell it behind `c`. -/
def readEscape (c : Char) (cs : List Char) : Except Stop (CodePoint × Nat) :=
  match c with
  | '"' => .ok (.ofChar '"', 0)
  | '\\' => .ok (.ofChar '\\', 0)
  | '/' => .ok (.ofChar '/', 0)
  | 'b' => .ok (.ofChar '\x08', 0)
  | 'f' => .ok (.ofChar '\x0c', 0)
  | 'n' => .ok (.ofChar '\n', 0)
  | 'r' => .ok (.ofChar '\r', 0)
  | 't' => .ok (.ofChar '\t', 0)
  | 'u' => readUnicodeEscape cs
  | _ => .error (.fault .invalidEscape (cs.length + 2))

/-- Reads a string that is opened with its first quote, behind the code points already
read, which are given last one first. -/
def readString (found : List CodePoint) (opened cs : List Char) :
    Except Stop (Text × List Char) :=
  match cs with
  | [] => .error (.fault .unterminatedString opened.length)
  | '"' :: rest => .ok (.ofPoints found.reverse, rest)
  | ['\\'] => .error (.fault .unterminatedString opened.length)
  | '\\' :: c :: rest =>
    match readEscape c rest with
    | .error stop => .error stop
    | .ok (escaped, count) => readString (escaped :: found) opened (rest.drop count)
  | c :: rest =>
    if c ≤ '\x1f' then .error (.fault .invalidControl (rest.length + 1))
    else readString (.ofChar c :: found) opened rest
termination_by cs.length
decreasing_by all_goals simp only [List.length_cons, List.length_drop]; omega

theorem length_readString_lt {found : List CodePoint} {opened cs rest : List Char} {read : Text}
    (h : readString found opened cs = .ok (read, rest)) : rest.length < cs.length := by
  fun_induction readString found opened cs with
  | case1 => cases h
  | case2 =>
    cases h
    exact Nat.lt_succ_self _
  | case3 => cases h
  | case4 => cases h
  | case5 _ _ _ _ count _ ih =>
    have := ih h
    simp only [List.length_cons, List.length_drop] at this ⊢
    omega
  | case6 => cases h
  | case7 _ _ _ _ _ _ _ ih => exact Nat.lt_succ_of_lt (ih h)

/-- The exponent at the front of a text, behind the letter `e`, and how many characters
spell it; none if no digit does. -/
def readExponent? (cs : List Char) : Option (Int × Nat) :=
  let (negative, signs) : Bool × Nat := match cs with
    | '-' :: _ => (true, 1)
    | '+' :: _ => (false, 1)
    | _ => (false, 0)
  let digits := (cs.drop signs).takeWhile Char.isDigit
  if digits.isEmpty then none
  else
    let n : Int := Integer.ofDigits (digits.map fun c => c.toNat - 0x30)
    some (if negative then -n else n, signs + digits.length)

/-- The number at the front of a text, and how many characters spell it.  It has one
digit before the point if that is a zero.  A point without a digit behind it, and an
exponent without a digit, are not part of the number. -/
def readNumber (cs : List Char) : Except Stop (HostValue × Nat) :=
  let negative := cs.head? == some '-'
  let signs := if negative then 1 else 0
  let body := cs.drop signs
  let whole := if body.head? == some '0' then ['0'] else body.takeWhile Char.isDigit
  let values (digits : List Char) : List Nat := digits.map fun c => c.toNat - 0x30
  if whole.isEmpty then .error (.fault .expectingValue cs.length)
  else
    let afterWhole := body.drop whole.length
    let fraction := match afterWhole with
      | '.' :: rest => rest.takeWhile Char.isDigit
      | _ => []
    let point := if fraction.isEmpty then 0 else 1 + fraction.length
    let exponent := match afterWhole.drop point with
      | 'e' :: rest => readExponent? rest
      | 'E' :: rest => readExponent? rest
      | _ => none
    let count := signs + whole.length + point
    match exponent with
    | some (e, length) =>
      let digits := Integer.ofDigits (values (whole ++ fraction))
      .ok (.float (.ofDecimal negative digits (e - fraction.length)), count + 1 + length)
    | none =>
      if fraction.isEmpty then
        match Integer.naturalOfDigits (values whole) with
        | .ok n => .ok (.int (if negative then -(n : Int) else n), count)
        | .error e => .error (.tooManyDigits e)
      else
        let digits := Integer.ofDigits (values (whole ++ fraction))
        .ok (.float (.ofDecimal negative digits (-(fraction.length : Int))), count)

def words : List (String × HostValue) := [
  ("null", .absent),
  ("true", .bool true),
  ("false", .bool false),
  ("NaN", .float .nan),
  ("Infinity", .float (.infinity false)),
  ("-Infinity", .float (.infinity true))]

/-- The word or the number at the front of a text, and how many characters spell it. -/
def readScalar (cs : List Char) : Except Stop (HostValue × Nat) :=
  match words.find? fun word => word.1.toList.isPrefixOf cs with
  | some (word, v) => .ok (v, word.length)
  | none => readNumber cs

/-- A container that is open: the items of an array, or the entries of an object and the
key of the next one; each given last one first. -/
inductive Frame where
  | array (items : List HostValue)
  | object (entries : List (HostKey × HostValue)) (key : Text)

-- A container takes one call within those of the containers around it.
def maxNesting : Nat := 960

theorem length_skipBlanks_le (cs : List Char) : (skipBlanks cs).length ≤ cs.length :=
  (List.dropWhile_suffix _).length_le

theorem length_lt_of_skipBlanks {cs rest : List Char} {c : Char} (h : skipBlanks cs = c :: rest) :
    rest.length < cs.length := by
  have := length_skipBlanks_le cs
  rw [h] at this
  exact this

mutual

/-- Reads a value, and then what completes the open containers. -/
def readValue (stack : List Frame) (cs : List Char) : Except Stop (HostValue × List Char) :=
  match cs with
  | [] => .error (.fault .expectingValue 0)
  | '"' :: rest =>
    match _stringRead : readString [] ('"' :: rest) rest with
    | .error stop => .error stop
    | .ok (s, rest) => complete stack (.text s) rest
  | '\x7b' :: tail =>
    if maxNesting ≤ stack.length then .error (.nestingTooDeep .object)
    else match _blanksRead : skipBlanks tail with
    | '\x7d' :: rest => complete stack (.mapping []) rest
    | rest => readMember stack [] rest
  | '[' :: tail =>
    if maxNesting ≤ stack.length then .error (.nestingTooDeep .array)
    else match _blanksRead : skipBlanks tail with
    | ']' :: rest => complete stack (.list []) rest
    | rest => readValue (.array [] :: stack) rest
  | c :: rest =>
    match readScalar (c :: rest) with
    | .error stop => .error stop
    | .ok (v, count) => complete stack v ((c :: rest).drop count)
termination_by (cs.length, 1)
decreasing_by
  · have := length_readString_lt _stringRead
    exact .left _ _ (by simp only [List.length_cons]; omega)
  · have := length_lt_of_skipBlanks _blanksRead
    exact .left _ _ (by simp only [List.length_cons]; omega)
  · have := _blanksRead ▸ length_skipBlanks_le tail
    exact .left _ _ (Nat.lt_succ_of_le this)
  · have := length_lt_of_skipBlanks _blanksRead
    exact .left _ _ (by simp only [List.length_cons]; omega)
  · have := _blanksRead ▸ length_skipBlanks_le tail
    exact .left _ _ (Nat.lt_succ_of_le this)
  · cases count with
    | zero => exact .right _ Nat.zero_lt_one
    | succ n => exact .left _ _ (by simp only [List.drop_succ_cons, List.length_drop, List.length_cons]; omega)

/-- Reads an entry of an object, behind those already read, up to its value. -/
def readMember (stack : List Frame) (entries : List (HostKey × HostValue)) (cs : List Char) :
    Except Stop (HostValue × List Char) :=
  match cs with
  | '"' :: rest =>
    match _stringRead : readString [] ('"' :: rest) rest with
    | .error stop => .error stop
    | .ok (key, afterKey) =>
      match _blanksRead : skipBlanks afterKey with
      | ':' :: rest => readValue (.object entries key :: stack) (skipBlanks rest)
      | rest => .error (.fault .expectingColon rest.length)
  | rest => .error (.fault .expectingName rest.length)
termination_by (cs.length, 0)
decreasing_by
  have h₁ := length_readString_lt _stringRead
  have h₂ := length_lt_of_skipBlanks _blanksRead
  have h₃ := length_skipBlanks_le rest
  exact .left _ _ (by simp only [List.length_cons] at *; omega)

/-- Puts a value where the innermost open container wants it, or yields it if there is
none. -/
def complete (stack : List Frame) (v : HostValue) (cs : List Char) :
    Except Stop (HostValue × List Char) :=
  match stack with
  | [] => .ok (v, cs)
  | .array items :: stack =>
    match _blanksRead : skipBlanks cs with
    | ']' :: rest => complete stack (.list (v :: items).reverse) rest
    | ',' :: rest => readValue (.array (v :: items) :: stack) (skipBlanks rest)
    | rest => .error (.fault .expectingComma rest.length)
  | .object entries key :: stack =>
    let entries := (.text key, v) :: entries
    match _blanksRead : skipBlanks cs with
    | '\x7d' :: rest => complete stack (.ofEntries entries.reverse) rest
    | ',' :: rest => readMember stack entries (skipBlanks rest)
    | rest => .error (.fault .expectingComma rest.length)
termination_by (cs.length, 0)
decreasing_by
  · exact .left _ _ (length_lt_of_skipBlanks _blanksRead)
  · have := length_skipBlanks_le rest
    exact .left _ _ (Nat.lt_of_le_of_lt this (length_lt_of_skipBlanks _blanksRead))
  · exact .left _ _ (length_lt_of_skipBlanks _blanksRead)
  · have := length_skipBlanks_le rest
    exact .left _ _ (Nat.lt_of_le_of_lt this (length_lt_of_skipBlanks _blanksRead))

end

/-- The fault where `remaining` characters of a text remain, told in lines and columns. -/
def placed (text : List Char) (fault : Fault) (remaining : Nat) : ReadError :=
  let position := text.length - remaining
  let before := text.take position
  let column := (before.reverse.takeWhile (· != '\n')).length + 1
  .malformed fault (before.count '\n' + 1) column position

def read (text : List Char) : Except ReadError HostValue :=
  if text.head? = some '\uFEFF' then .error (placed text .byteOrderMark text.length)
  else match readValue [] (skipBlanks text) with
  | .error (.fault what remaining) => .error (placed text what remaining)
  | .error (.tooManyDigits e) => .error (.tooManyDigits e)
  | .error (.nestingTooDeep innermost) => .error (.nestingTooDeep innermost)
  | .ok (v, rest) =>
    let rest := skipBlanks rest
    if rest.isEmpty then .ok v else .error (placed text .extraData rest.length)

end Stencil.Json
