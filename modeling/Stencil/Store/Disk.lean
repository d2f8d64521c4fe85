/-
# `Stencil.Store.Disk` — files in directories

A disk holds files under the names that lead to them from the root, and one of its
directories is where one stands.  A directory is there if one stands in it or below
it, if a file lies in it or below it, or if the disk says so.

A location is followed name by name, and every directory on the way has to be there,
even one that is left again by the next name.
-/
import Stencil.Store.Basic
import Stencil.Text.Quoted
import Stencil.Text.Utf8

namespace Stencil

/-- The names that lead from the root to a file or directory. -/
abbrev DiskPlace := List (List Char)

/-- Files, directories that need not have files in them, and where one stands. -/
structure Disk where
  standing : DiskPlace
  directories : List DiskPlace
  files : Table DiskPlace Bytes
deriving Repr

inductive DiskFault where
  | notFound
  | notDirectory
  | isDirectory
  | nameTooLong
  | zeroByte
deriving DecidableEq, Repr

structure DiskError where
  fault : DiskFault
  location : String
deriving DecidableEq, Repr

namespace DiskError

def message (e : DiskError) : String :=
  let system (number : Nat) (text : String) : String :=
    s!"[Errno {number}] " ++ text ++ ": " ++ Quoted.ofText e.location
  match e.fault with
  | .notFound => system 2 "No such file or directory"
  | .notDirectory => system 20 "Not a directory"
  | .isDirectory => system 21 "Is a directory"
  | .nameTooLong => system 36 "File name too long"
  | .zeroByte => "embedded null byte"

end DiskError

namespace Disk

def maxName : Nat := 255

/-- The least number of bytes that is too much for a location. -/
def locationLimit : Nat := 4096

-- A directory is there with everything above it.
def hasDirectory (disk : Disk) (place : DiskPlace) : Bool :=
  (disk.standing :: disk.directories).any place.isPrefixOf ||
    disk.files.any fun file => place.isPrefixOf file.1.dropLast && !file.1.isEmpty

/-- Follows names from a place on; every place that is left on the way has to be a
directory. -/
def follow (disk : Disk) (place : DiskPlace) : List (List Char) → Except DiskFault DiskPlace
  | [] => .ok place
  | name :: rest =>
    if !disk.hasDirectory place then
      .error (if disk.files.has place then .notDirectory else .notFound)
    else if name.isEmpty || name = Location.here then disk.follow place rest
    else if name = Location.above then disk.follow place.dropLast rest
    else if (Utf8.encode (String.ofList name)).length > maxName then .error .nameTooLong
    else disk.follow (place ++ [name]) rest

def locate (disk : Disk) (location : String) : Except DiskFault DiskPlace :=
  if location.toList.contains '\x00' then .error .zeroByte
  else if location.isEmpty then .error .notFound
  else if (Utf8.encode location).length ≥ locationLimit then .error .nameTooLong
  else disk.follow (if Location.isAbsolute location then [] else disk.standing)
    (Location.names location)

def content (disk : Disk) (place : DiskPlace) : Except DiskFault Bytes :=
  match disk.files.find? place with
  | some data => .ok data
  | none => .error (if disk.hasDirectory place then .isDirectory else .notFound)

def read (disk : Disk) (location : String) : Except DiskError Bytes :=
  match disk.locate location >>= disk.content with
  | .ok data => .ok data
  | .error fault => .error ⟨fault, location⟩

/-- Where a file at a location would be written: a file that is there, or a new name
in a directory that is there. -/
def target (disk : Disk) (location : String) : Except DiskFault DiskPlace := do
  let bare := (location.toList.reverse.dropWhile (· == '/')).reverse
  let place ← disk.locate (if bare.isEmpty then location else String.ofList bare)
  if bare.length < location.length || disk.hasDirectory place then .error .isDirectory
  else .ok place

def write (disk : Disk) (location : String) (data : Bytes) : Except DiskError Disk :=
  match disk.target location with
  | .ok place => .ok { disk with files := disk.files.insert place data }
  | .error fault => .error ⟨fault, location⟩

def locationOf (place : DiskPlace) : String :=
  String.ofList ('/' :: ['/'].intercalate place)

def placeOf (location : String) : DiskPlace :=
  (Location.names (Location.normalize location)).filter (!·.isEmpty)

/-- A disk with files at locations as seen from the directory where one stands. -/
def ofFiles (standing : String) (files : List (String × Bytes)) : Disk :=
  let standing := placeOf standing
  ⟨standing, [], Table.ofPairs (files.map fun file => (standing ++ placeOf file.1, file.2))⟩

/-- The files that one disk has and another has not or has otherwise. -/
def changes (before after : Disk) : List (DiskPlace × Bytes) :=
  after.files.filter fun file => before.files.find? file.1 != some file.2

def changesHere (before after : Disk) : List (String × Bytes) :=
  let here := (changes before after).filter fun file => after.standing.isPrefixOf file.1
  let located := here.map fun file =>
    (String.ofList (['/'].intercalate (file.1.drop after.standing.length)), file.2)
  located.mergeSort fun a b => a.1 ≤ b.1

def store (disk : Disk) : Store where
  load location := (disk.read location).toOption
  sources := disk.files.map Prod.snd
  mem_sources := by
    intro location data h
    unfold read at h
    split at h
    · next heq =>
      simp only [Except.toOption, Option.some.injEq] at h
      subst h
      simp only [bind, Except.bind] at heq
      split at heq
      · cases heq
      · unfold content at heq
        split at heq <;> cases heq
        exact Table.mem_of_find? (by assumption)
    · cases h

end Disk

end Stencil
