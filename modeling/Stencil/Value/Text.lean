/-
# `Stencil.Value.Text` — what a value prints, and how messages show it

Printing is for the reader of a page: scalars print as they are, and what is
absent, a sequence or an object prints nothing.  Showing is for the reader of a
message: texts and bytes stand in quotes, and containers list what they hold.
Either is refused for an integer with too many digits, and printing also for a text
that has no bytes.
-/
import Stencil.Number.FloatText
import Stencil.Value.Basic

namespace Stencil

inductive OutputFault where
  | tooManyDigits (e : TooManyDigits)
  | loneSurrogates (e : LoneSurrogates)
deriving DecidableEq, Repr

namespace Value

def output : Value → Except OutputFault Bytes
  | bool b => .ok (Utf8.encode (if b then "true" else "false"))
  | int i => ((Integer.toText i).map Utf8.encode).mapError .tooManyDigits
  | float x => .ok (Utf8.encode (plainFloat.text x))
  | text t => t.encode.mapError .loneSurrogates
  | bytes data => .ok data
  | absent | sequence _ | object _ => .ok []

def bracedEntries (entries : List (Text × String)) : String :=
  "\x7b" ++ String.intercalate ", " (entries.map fun e => e.1.shown ++ ": " ++ e.2) ++ "\x7d"

mutual

def shown : Value → Except TooManyDigits String
  | absent => .ok "None"
  | bool b => .ok (if b then "True" else "False")
  | int i => Integer.toText i
  | float x => .ok (plainFloat.text x)
  | text t => .ok t.shown
  | bytes data => .ok (Quoted.ofBytes data)
  | sequence items =>
    (shownItems items).map fun shown => "TemplateSequence([" ++ String.intercalate ", " shown ++ "])"
  | object entries =>
    (shownEntries entries).map fun shown => "TemplateObject(" ++ bracedEntries shown ++ ")"

def shownItems : List Value → Except TooManyDigits (List String)
  | [] => .ok []
  | item :: rest => do
    let first ← shown item
    let others ← shownItems rest
    return first :: others

def shownEntries : List (Text × Value) → Except TooManyDigits (List (Text × String))
  | [] => .ok []
  | (key, value) :: rest => do
    let first ← shown value
    let others ← shownEntries rest
    return (key, first) :: others

end

end Value

end Stencil
