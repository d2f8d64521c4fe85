/-
# `Stencil.Main` — the program

The command line is run on a disk that holds what lies on the way to the files it asks
for.  It starts with an empty one; whatever a report says is missing is looked up and
added, as long as something new is missing.
-/
import Stencil.Cli.Report

namespace Stencil.Program

/-- Adds to a disk what lies at a location as seen from the root.  Gives also whether
that is a directory. -/
def look (disk : Disk) (location : String) : IO (Disk × Bool) := do
  let place := Disk.placeOf location
  try
    let data ← IO.FS.readBinFile location
    return ({ disk with files := disk.files.insert place data.toList }, false)
  catch
    | .inappropriateType .. =>
      return ({ disk with directories := place :: disk.directories }, true)
    | _ => return (disk, false)

def lookAlong (disk : Disk) (location : String) : List (List Char) → IO Disk
  | [] => return disk
  | name :: rest => do
    let location := location ++ "/" ++ String.ofList name
    let (disk, isDirectory) ← look disk location
    if isDirectory then lookAlong disk location rest else return disk

def fetch (disk : Disk) (location : String) : IO Disk :=
  lookAlong disk "" ((Location.names (Location.join (Disk.locationOf disk.standing) location)).drop 1)

/-- Runs a command line, until nothing more is missing that could be looked up.  Gives
the disk at the start of the last run too. -/
partial def settle (disk : Disk) (setting : Option String) (texts : List String)
    (looked : List String) : IO (Disk × Report) := do
  let report := Report.ofTexts disk setting texts
  match report.missing with
  | none => return (disk, report)
  | some location =>
    if location ∈ looked then return (disk, report)
    else settle (← fetch disk location) setting texts (location :: looked)

end Stencil.Program

open Stencil in
def main (texts : List String) : IO UInt32 := do
  let here ← IO.currentDir
  let setting ← IO.getEnv "LEAF_MAX_STEPS"
  let (before, report) ← Program.settle (Disk.ofFiles here.toString []) setting texts []
  try
    for (place, data) in Disk.changes before report.disk do
      IO.FS.writeBinFile (Disk.locationOf place) ⟨data.toArray⟩
    (← IO.getStdout).write ⟨report.output.toArray⟩
    (← IO.getStdout).flush
    (← IO.getStderr).putStr report.complaint
    return report.exit.toUInt32
  catch e =>
    (← IO.getStderr).putStr ("FATAL ERROR\n" ++ toString e ++ "\n")
    return 1
