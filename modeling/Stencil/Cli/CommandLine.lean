/-
# `Stencil.Cli.CommandLine` — the words of a command line

A command line is a list of words.  Some are options, which may take the word behind
them or what stands behind an equals sign as their value; the others are plain.  A long
option may be cut short as long as it stays the only one that it can be.  A word of two
dashes makes all words behind it plain.

A negative number is plain, and so is a word with a space that is no option.
-/
import Stencil.Number.Integer
import Stencil.Table

namespace Stencil.CommandLine

/-- What an option does: it asks for help, it is a switch, or it takes a value, which
is a text or an integer. -/
inductive OptionKind where
  | help
  | switch
  | text
  | integer
deriving DecidableEq, Repr

/-- An option under one of its names.  The names of one option share its `key`. -/
structure OptionName where
  name : List Char
  key : String
  kind : OptionKind
deriving DecidableEq, Repr

inductive Refusal where
  | rejected
  | helpAsked
deriving DecidableEq, Repr

/-- A word, told apart: a plain one, the separator, an option with what is attached to
it directly or behind an equals sign, or an option that nobody knows. -/
inductive Word where
  | plain (text : String)
  | separator
  | option (name : OptionName) (attached : Option (List Char))
  | unknown
deriving DecidableEq, Repr

def separator : List Char := ['-', '-']

def cutAtEquals (word : List Char) : List Char × Option (List Char) :=
  match word.dropWhile (· != '=') with
  | [] => (word, none)
  | _ :: behind => (word.takeWhile (· != '='), some behind)

def areDigits (cs : List Char) : Bool :=
  !cs.isEmpty && cs.all fun c => (CharClass.digitValue? c).isSome

/-- Does a word spell a negative number, with a decimal point or without?  A line feed at
its end counts for nothing. -/
def isNegativeNumber (word : List Char) : Bool :=
  match word with
  | '-' :: cs =>
    let cs := if cs.getLast? = some '\n' then cs.dropLast else cs
    let whole := cs.takeWhile (· != '.')
    match cs.dropWhile (· != '.') with
    | [] => areDigits whole
    | _ :: fraction => (whole.isEmpty || areDigits whole) && areDigits fraction
  | _ => false

/-- The options that a word with a dash in front can mean, each with what is attached to
it. -/
def meanings (names : List OptionName) (word : List Char) : List (OptionName × Option (List Char)) :=
  let (front, behind) := cutAtEquals word
  match names.find? (·.name = word), names.find? (·.name = front) with
  | some name, _ => [(name, none)]
  | none, some name => [(name, behind)]
  | none, none =>
    if separator.isPrefixOf word then
      (names.filter fun name => front.isPrefixOf name.name).map fun name => (name, behind)
    else
      (names.filter fun name => name.name = word.take 2).map fun name => (name, some (word.drop 2))

def wordOf (names : List OptionName) (text : String) : Except Refusal Word :=
  match text.toList with
  | '-' :: c :: rest =>
    let word := '-' :: c :: rest
    match meanings names word with
    | [(name, attached)] => .ok (.option name attached)
    | [] => .ok (if isNegativeNumber word || word.contains ' ' then .plain text else .unknown)
    | _ => .error .rejected
  -- A dash alone is plain.
  | _ => .ok (.plain text)

def wordsOf (names : List OptionName) : List String → Except Refusal (List Word)
  | [] => .ok []
  | text :: rest =>
    if text.toList = separator then .ok (.separator :: rest.map .plain)
    else do
      let word ← wordOf names text
      let words ← wordsOf names rest
      return word :: words

/-- The switches that one word turns on: what is attached to a short one is more short
ones. -/
def bundled (names : List OptionName) (name : OptionName) : List Char → Except Refusal (List OptionName)
  | [] => .error .rejected
  | c :: cs =>
    if name.name.length ≠ 2 then .error .rejected
    else match names.find? (·.name = ['-', c]) with
    | none => .error .rejected
    | some next =>
      if cs.isEmpty then .ok [name, next] else (bundled names next cs).map (name :: ·)

/-- Turns on the switches that one word means.  Nothing comes of it, unless one of them
asks for help. -/
def turnOn (names : List OptionName) (name : OptionName) (attached : Option (List Char)) :
    Except Refusal Unit := do
  let switches ← match attached with
    | none => pure [name]
    | some cs => bundled names name cs
  if switches.any (·.kind = .help) then .error .helpAsked else .ok ()

/-- What the words of a command say: the values of its options, its only plain word, and
whether there was something that has no place in it. -/
structure Said where
  texts : Table String String
  integers : Table String Int
  plain : Option String
  surplus : Bool
deriving DecidableEq, Repr

namespace Said

def nothing : Said := ⟨[], [], none, false⟩

def withSurplus (said : Said) : Said := { said with surplus := true }

/-- What has been said, with a plain word, of which only the first has a place. -/
def withPlain (said : Said) (text : String) : Said :=
  if said.plain.isNone then { said with plain := some text } else said.withSurplus

def withValue (said : Said) (name : OptionName) (text : String) : Except Refusal Said :=
  match name.kind, Integer.read text with
  | .text, _ => .ok { said with texts := said.texts.insert name.key text }
  | .integer, .ok n => .ok { said with integers := said.integers.insert name.key n }
  | _, _ => .error .rejected

def withoutValue (said : Said) (name : OptionName) : Said :=
  { said with texts := said.texts.erase name.key, integers := said.integers.erase name.key }

/-- What has been said, with what is attached to an option as its value.  A separator
that is attached takes the value back. -/
def withAttached (said : Said) (name : OptionName) (cs : List Char) : Except Refusal Said :=
  if cs = separator then .ok (said.withoutValue name)
  else said.withValue name (String.ofList cs)

end Said

def OptionName.takesValue (name : OptionName) : Bool :=
  name.kind = .text || name.kind = .integer

/-- Reads the words of a command that wants one plain word, behind what has been said
already.  On one side of that word there may be a separator. -/
def hear (names : List OptionName) (said : Said) : List Word → Except Refusal Said
  | [] => .ok said
  | .unknown :: rest => hear names said.withSurplus rest
  | .separator :: .plain text :: rest => hear names (said.withPlain text) rest
  | .separator :: rest => hear names said.withSurplus rest
  | .plain text :: .separator :: rest => hear names (said.withPlain text) rest
  | .plain text :: rest => hear names (said.withPlain text) rest
  | .option name (some cs) :: rest =>
    if name.takesValue then do
      hear names (← said.withAttached name cs) rest
    else do
      turnOn names name (some cs)
      hear names said rest
  | .option name none :: .plain text :: rest =>
    if name.takesValue then do
      hear names (← said.withValue name text) rest
    else do
      turnOn names name none
      hear names said (.plain text :: rest)
  | .option name none :: rest =>
    if name.takesValue then .error .rejected
    else do
      turnOn names name none
      hear names said rest

end Stencil.CommandLine
