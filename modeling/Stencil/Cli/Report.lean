/-
# `Stencil.Cli.Report` — what comes of a command

A command reads files of a disk, and leaves a disk, an output and a complaint.  A
template is compiled against the directory that is stated, or else against the one that
it lies in.  Something is written only after everything has gone well.
-/
import Stencil.Bindings.Json
import Stencil.Cli.Usage
import Stencil.Package.Basic
import Stencil.Render.Template
import Stencil.Store.Disk

namespace Stencil

inductive CommandError where
  | disk (e : DiskError)
  | compile (e : CompileError)
  | undecodable (e : CharsetError)
  | json (e : Json.ReadError)
  | noObject (location : String)
  | render (e : RenderError)
  | package (e : PackageError)
deriving DecidableEq, Repr

namespace CommandError

def message : CommandError → String
  | disk e => e.message
  | compile e => e.message
  | undecodable e => e.message
  | json e => e.message
  | noObject location => "Context file must hold a JSON object: " ++ location
  | render e => e.message
  | package e => e.message

/-- What is written about an error.  Where the host had no more room it is not reported, but
ends the program with a trace, of which this is the last line. -/
def complaint : CommandError → String
  | json (.nestingTooDeep innermost) =>
    "RecursionError: " ++ (Json.ReadError.nestingTooDeep innermost).message ++ "\n"
  | render (.conversion .nestingTooDeep) =>
    "RecursionError: " ++ ConversionError.nestingTooDeep.message ++ "\n"
  | e => "FATAL ERROR\n" ++ e.message ++ "\n"

/-- The location at which a file was looked for, if there was none. -/
def missing? : CommandError → Option String
  | disk ⟨.notFound, location⟩ => some location
  | compile (.fileDoesNotExist location) => some location
  | _ => none

end CommandError

/-- What comes of a command: its output, and the disk that it leaves. -/
structure Effect where
  output : Bytes
  disk : Disk
deriving Repr

namespace Entry

def compiled (entry : Entry) (disk : Disk) : Except CommandError Template :=
  let here := Disk.locationOf disk.standing
  let location := Location.absolute here entry.template
  let base := entry.base.getD (Location.directory location)
  let compiler : Compiler := ⟨disk.store, builtinTags, entry.extension⟩
  match compiler.compileFile (Location.relative here base location) base .fresh with
  | .ok template _ => .ok template
  | .error e _ => .error (.compile e)

end Entry

/-- A text with line feeds for ends of lines, however they are marked. -/
def lineFeedsOnly : List Char → List Char
  | [] => []
  | '\r' :: '\n' :: cs => '\n' :: lineFeedsOnly cs
  | '\r' :: cs => '\n' :: lineFeedsOnly cs
  | c :: cs => c :: lineFeedsOnly cs

def Context.ofFile (disk : Disk) (location : String) : Except CommandError Context := do
  let data ← (disk.read location).mapError .disk
  let text ← (Charset.utf8.decode data).mapError .undecodable
  match ← (Json.read (lineFeedsOnly text.toList)).mapError .json with
  | .mapping entries => (Context.ofHost (.mapping entries)).mapError fun e => .render (.conversion e)
  | _ => .error (.noObject location)

namespace Command

/-- The location that a package is written to, unless another one is stated. -/
def packageLocation (template : String) : String :=
  Location.withoutExtension template ++ ".lbc"

/-- What comes of a command on a disk, under a setting of the step limit. -/
def perform (disk : Disk) (setting : Option String) : Command → Except CommandError Effect
  | render entry context limits out => do
    let template ← entry.compiled disk
    let context ← match context with
      | none => pure Context.empty
      | some location => Context.ofFile disk location
    let output ← (template.run limits setting context).mapError .render
    match out with
    | none => return ⟨output, disk⟩
    | some location => return ⟨[], ← (disk.write location output).mapError .disk⟩
  | compile entry out => do
    let template ← entry.compiled disk
    let location := out.getD (packageLocation entry.template)
    let disk ← (disk.write location template.package).mapError .disk
    let size := template.code.length
    let line := "[leaf] compiled: " ++ entry.template ++ " -> " ++ location ++ s!" ({size} bytes)\n"
    return ⟨Utf8.encode line, disk⟩
  | disasm file => do
    let data ← (disk.read file).mapError .disk
    let listing ← (Package.listing data).mapError .package
    return ⟨Utf8.encode (listing ++ "\n"), disk⟩

end Command

structure Report where
  exit : Nat
  output : Bytes
  complaint : String
  disk : Disk
  missing : Option String
deriving Repr

namespace Report

def ofCommand (disk : Disk) (setting : Option String) (command : Command) : Report :=
  match command.perform disk setting with
  | .ok effect => ⟨0, effect.output, "", effect.disk, none⟩
  | .error e => ⟨1, [], e.complaint, disk, e.missing?⟩

def ofTexts (disk : Disk) (setting : Option String) (texts : List String) : Report :=
  match Command.ofTexts texts with
  | .ok command => ofCommand disk setting command
  | .error ⟨verb, .helpAsked⟩ => ⟨0, Utf8.encode (Usage.help verb), "", disk, none⟩
  | .error ⟨verb, .rejected⟩ => ⟨2, [], Usage.reminder verb, disk, none⟩

end Report

end Stencil
