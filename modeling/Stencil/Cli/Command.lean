/-
# `Stencil.Cli.Command` — the commands

A command line names what to do behind the options that hold for all commands, and then
says to what.  A value that is an empty text counts as not stated, and so does a step
limit of zero.
-/
import Stencil.Cli.CommandLine
import Stencil.Render.Machine

namespace Stencil

inductive Verb where
  | render
  | compile
  | disasm
deriving DecidableEq, Repr

/-- Which template a command is about, and how it finds its files. -/
structure Entry where
  template : String
  base : Option String
  extension : String
deriving DecidableEq, Repr

inductive Command where
  | render (entry : Entry) (context : Option String) (limits : Option Limits) (out : Option String)
  | compile (entry : Entry) (out : Option String)
  | disasm (file : String)
deriving Repr

namespace Verb

open CommandLine

def all : List Verb := [render, compile, disasm]

def word : Verb → String
  | render => "render"
  | compile => "compile"
  | disasm => "disasm"

def helpNames : List OptionName :=
  ["-h", "--help"].map fun name => ⟨name.toList, "help", .help⟩

def sharedOptions : List OptionName :=
  helpNames ++ ["-v", "--verbose"].map fun name => ⟨name.toList, "verbose", .switch⟩

def textOption (name : String) : OptionName := ⟨("--" ++ name).toList, name, .text⟩

def options : Verb → List OptionName
  | render => helpNames ++ ["base", "extension", "context"].map textOption ++
    [⟨"--max-steps".toList, "max-steps", .integer⟩, textOption "out"]
  | compile => helpNames ++ ["base", "extension", "out"].map textOption
  | disasm => helpNames

end Verb

/-- A command line that is no command, and the verb that it got to. -/
structure Refused where
  verb : Option Verb
  refusal : CommandLine.Refusal
deriving DecidableEq, Repr

namespace Command

open CommandLine

def defaultExtension : String := ".leaf"

/-- A value that an option states, if it is not empty. -/
def stated (said : Said) (key : String) : Option String :=
  (said.texts.find? key).filter (!·.isEmpty)

/-- The step limit that is stated, if it is not zero. -/
def statedLimits (said : Said) : Option Limits :=
  ((said.integers.find? "max-steps").filter (· ≠ 0)).map fun limit => ⟨some limit⟩

/-- The command that words behind a verb make up, given the plain one among them. -/
def ofSaid (said : Said) (plain : String) : Verb → Command
  | .render => .render (entry said plain) (stated said "context") (statedLimits said) (stated said "out")
  | .compile => .compile (entry said plain) (stated said "out")
  | .disasm => .disasm plain
where
  entry (said : Said) (plain : String) : Entry :=
    ⟨plain, stated said "base", (said.texts.find? "extension").getD defaultExtension⟩

/-- Splits a command line behind its verb.  Gives whether there was something in front
that has no place there, the word for the verb, and the texts behind it. -/
def split (surplus : Bool) : List (Word × String) → Except Refusal (Bool × String × List String)
  | [] => .error .rejected
  | (.separator, _) :: _ => .error .rejected
  | (.plain word, _) :: rest => .ok (surplus, word, rest.map Prod.snd)
  | (.unknown, _) :: rest => split true rest
  | (.option name attached, _) :: rest => do
    turnOn Verb.sharedOptions name attached
    split surplus rest

def ofTexts (texts : List String) : Except Refused Command := do
  let words ← (wordsOf Verb.sharedOptions texts).mapError (⟨none, ·⟩)
  let (surplus, word, rest) ← (split false (words.zip texts)).mapError (⟨none, ·⟩)
  match Verb.all.find? (·.word = word) with
  | none => .error ⟨none, .rejected⟩
  | some verb =>
    let words ← (wordsOf verb.options rest).mapError (⟨some verb, ·⟩)
    let said ← (hear verb.options .nothing words).mapError (⟨some verb, ·⟩)
    match said.plain with
    | none => .error ⟨some verb, .rejected⟩
    | some plain =>
      if surplus || said.surplus then .error ⟨none, .rejected⟩
      else .ok (ofSaid said plain verb)

end Command

end Stencil
