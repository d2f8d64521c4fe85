/-
# `Stencil.Store.Location` — names of files and directories

A location is a text with slashes between the names of directories and, at its end,
of a file.  What is said here is about the text alone; whether anything lies at a
location is for a store to say.
-/

namespace Stencil.Location

def isAbsolute (location : String) : Bool :=
  location.toList.head? == some '/'

def join (base name : String) : String :=
  if isAbsolute name then name
  else if base.isEmpty || base.toList.getLast? == some '/' then base ++ name
  else base ++ "/" ++ name

def names (location : String) : List (List Char) :=
  location.toList.splitOn '/'

def here : List Char := ['.']

def above : List Char := ['.', '.']

/-- Takes one more name to a location without empty names and detours, whose names
are given last one first. -/
def visit (absolute : Bool) (visited : List (List Char)) (name : List Char) : List (List Char) :=
  if name.isEmpty || name = here then visited
  else if name = above then
    match visited with
    -- Nothing is above the root.
    | [] => if absolute then [] else [above]
    | last :: before => if last = above then above :: visited else before
  else name :: visited

/-- The slashes in front of an absolute location: two if there are exactly two, and
else one. -/
def root (location : String) : List Char :=
  match location.toList.takeWhile (· == '/') with
  | [] => []
  | ['/', '/'] => ['/', '/']
  | _ => ['/']

/-- The same location without empty names and detours. -/
def normalize (location : String) : String :=
  let start := root location
  let visited := (names location).foldl (visit !start.isEmpty) []
  let result := start ++ ['/'].intercalate visited.reverse
  if result.isEmpty then "." else String.ofList result

def absolute (directory location : String) : String :=
  normalize (join directory location)

def sharedCount : List (List Char) → List (List Char) → Nat
  | a :: as, b :: bs => if a = b then sharedCount as bs + 1 else 0
  | _, _ => 0

/-- The location as seen from the directory `base`, when `directory` is where one
stands. -/
def relative (directory base location : String) : String :=
  let nonempty (s : String) := (names (absolute directory s)).filter (!·.isEmpty)
  let start := nonempty base
  let goal := nonempty location
  let shared := sharedCount start goal
  let steps := List.replicate (start.length - shared) above ++ goal.drop shared
  if steps.isEmpty then "." else String.ofList (['/'].intercalate steps)

def head (location : List Char) : List Char :=
  (location.reverse.dropWhile (· != '/')).reverse

def directory (location : String) : String :=
  let front := head location.toList
  if front.all (· == '/') then String.ofList front
  else String.ofList (front.reverse.dropWhile (· == '/')).reverse

/-- The location without the last extension of its file name.  Dots that only
follow dots at the front of the name begin no extension. -/
def withoutExtension (location : String) : String :=
  let front := head location.toList
  let name := location.toList.drop front.length
  let stem := (name.reverse.dropWhile (· != '.')).drop 1
  if stem.all (· == '.') then location else String.ofList (front ++ stem.reverse)

end Stencil.Location
