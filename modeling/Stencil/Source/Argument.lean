/-
# `Stencil.Source.Argument` — what stands between the parentheses of a tag

The arguments of a tag are separated by commas, with blanks around them:

    arguments := [argument ("," argument)*]
    argument  := STRING | PATH

A string is whatever stands between two double quotes.  A path is a run of
characters that are neither white space nor one of `" , ( ) { }`.  Blanks are
spaces, tabs, form feeds and line ends; other white space is not allowed at all.

Lexemes are read one by one, as long as they are allowed; the first that is not, or
the first character that begins none, is the error.
-/
import Stencil.Text.Quoted
import Stencil.Text.Utf8

namespace Stencil

inductive ArgumentKind where
  | string
  | path
deriving DecidableEq, Repr

/-- An argument: its kind and its bytes, those of a string without the quotes. -/
structure Argument where
  kind : ArgumentKind
  value : Bytes
deriving DecidableEq, Repr

inductive LexemeKind where
  | string
  | path
  | comma
deriving DecidableEq, Repr

/-- A place in a text: line and column, both counted from one. -/
structure Place where
  line : Nat
  column : Nat
deriving DecidableEq, Repr

inductive ArgumentFault where
  | unexpected (kind : LexemeKind) (text : String) (place : Place)
  | missing (place : Place)
  | noLexeme (c : Char) (place : Place)
  | wrongKinds (expected found : List ArgumentKind)
  | unusableName (name : Bytes)
deriving DecidableEq, Repr

namespace ArgumentKind

def name : ArgumentKind → String
  | string => "string"
  | path => "path"

end ArgumentKind

namespace LexemeKind

def name : LexemeKind → String
  | string => "STRING"
  | path => "PATH"
  | comma => "COMMA"

end LexemeKind

namespace ArgumentFault

def unexpectedText (kind text : String) (place : Place) : String :=
  "Unexpected token Token('" ++ kind ++ "', " ++ text ++
    s!") at line {place.line}, column {place.column}."

def kindsText (kinds : List ArgumentKind) : String :=
  "(" ++ String.intercalate ", " (kinds.map ArgumentKind.name) ++ ")"

/-- What is wrong, in words, and on one line: a character that would end the line
ends the message. -/
def message : ArgumentFault → String
  | unexpected kind text place => unexpectedText kind.name (Quoted.ofText text) place
  | missing place => unexpectedText "$END" (Quoted.ofText "") place
  | noLexeme c place =>
    if CharClass.isLineBreak c then "No terminal matches '"
    else "No terminal matches '" ++ String.singleton c ++
      s!"' in the current parser context, at line {place.line} col {place.column}"
  | wrongKinds expected found => "expected " ++ kindsText expected ++ ", got " ++ kindsText found
  | unusableName name => Quoted.ofBytes name ++ " is not a usable variable name"

end ArgumentFault

namespace Place

def start : Place := ⟨1, 1⟩

def advance (place : Place) (cs : List Char) : Place :=
  cs.foldl (fun p c => if c = '\n' then ⟨p.line + 1, 1⟩ else ⟨p.line, p.column + 1⟩) place

end Place

namespace Argument

def isBlank (c : Char) : Bool :=
  c == ' ' || c == '\t' || c == '\x0c' || c == '\r' || c == '\n'

def isPathChar (c : Char) : Bool :=
  !(CharClass.isSpace c || c == '"' || c == ',' || c == '(' || c == ')' || c == '\x7b' || c == '\x7d')

/-- A lexeme with its text, quotes included. -/
structure Lexeme where
  kind : LexemeKind
  text : List Char
deriving DecidableEq, Repr

/-- The lexeme at the front of a text that begins with `c`, and what follows it. -/
def readLexeme (c : Char) (cs : List Char) : Option (Lexeme × List Char) :=
  if c = '"' then
    match cs.dropWhile (· != '"') with
    | [] => none
    | quote :: rest => some (⟨.string, c :: cs.takeWhile (· != '"') ++ [quote]⟩, rest)
  else if c = ',' then some (⟨.comma, [c]⟩, cs)
  else if isPathChar c then some (⟨.path, c :: cs.takeWhile isPathChar⟩, cs.dropWhile isPathChar)
  else none

theorem length_dropWhile_le {α : Type} (p : α → Bool) (l : List α) :
    (l.dropWhile p).length ≤ l.length :=
  (List.dropWhile_suffix p).length_le

theorem length_readLexeme_le {c : Char} {cs rest : List Char} {lexeme : Lexeme}
    (h : readLexeme c cs = some (lexeme, rest)) : rest.length ≤ cs.length := by
  unfold readLexeme at h
  split at h
  · split at h
    · cases h
    · next hd =>
      cases h
      have := length_dropWhile_le (· != '"') cs
      rw [hd] at this
      exact Nat.le_of_succ_le this
  split at h
  · cases h
    exact Nat.le_refl _
  split at h
  · cases h
    exact length_dropWhile_le _ _
  · cases h

def ofLexeme? (lexeme : Lexeme) : Option Argument :=
  match lexeme.kind with
  | .string => some ⟨.string, Utf8.encode (String.ofList (lexeme.text.drop 1).dropLast)⟩
  | .path => some ⟨.path, Utf8.encode (String.ofList lexeme.text)⟩
  | .comma => none

/-- How far a list of arguments has been read. -/
inductive Progress where
  | atStart
  | afterArgument
  | afterComma (place : Place)
deriving DecidableEq, Repr

/-- What a lexeme does to a list of arguments, given last one first: an argument
may stand anywhere but behind an argument, a comma only there. -/
def take? (found : List Argument) (progress : Progress) (lexeme : Lexeme) (place : Place) :
    Option (List Argument × Progress) :=
  match progress, ofLexeme? lexeme with
  | .afterArgument, none => some (found, .afterComma place)
  | .afterArgument, some _ => none
  | _, some argument => some (argument :: found, .afterArgument)
  | _, none => none

/-- Reads arguments from a place in a text on, behind those already found, which
are given last one first. -/
def readFrom (found : List Argument) (progress : Progress) (place : Place) (cs : List Char) :
    Except ArgumentFault (List Argument) :=
  match cs with
  | [] =>
    match progress with
    -- What is missing behind a comma is told at the comma.
    | .afterComma comma => .error (.missing comma)
    | _ => .ok found.reverse
  | c :: cs =>
    if isBlank c then readFrom found progress (place.advance [c]) cs
    else match _lexemeRead : readLexeme c cs with
    | none => .error (.noLexeme c place)
    | some (lexeme, rest) =>
      match take? found progress lexeme place with
      | none => .error (.unexpected lexeme.kind (String.ofList lexeme.text) place)
      | some (found, progress) => readFrom found progress (place.advance lexeme.text) rest
termination_by cs.length
decreasing_by
  · simp
  · have := length_readLexeme_le _lexemeRead
    simp only [List.length_cons]
    omega

def readAll (text : String) : Except ArgumentFault (List Argument) :=
  readFrom [] .atStart .start text.toList

def expect (kinds : List ArgumentKind) (arguments : List Argument) :
    Except ArgumentFault (List Argument) :=
  let found := arguments.map Argument.kind
  if found = kinds then .ok arguments else .error (.wrongKinds kinds found)

end Argument

end Stencil
