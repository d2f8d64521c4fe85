/-
# `Stencil.Compile.State` — what the parts of one compilation share

Everything that is compiled for one template, files that it includes among it, shares
one state: the bodies kept under names, the path that `self` stands for, and what is
being included and imported at the moment.  The state survives an error, as it was
when the error arose; only what was entered is left again.
-/
import Stencil.Source.Piece

namespace Stencil

structure CompileState where
  exports : Table String Bytes
  scope : Option Bytes
  including : List String
  importing : List String
deriving DecidableEq, Repr

abbrev CompileM (α : Type) := EStateM CompileError CompileState α

namespace CompileState

def fresh : CompileState := ⟨[], none, [], []⟩

end CompileState

namespace CompileM

/-- Runs a part of a compilation after entering something, and leaves it again afterwards,
after an error too.  `leave` is given the state before entering and the one that the part
has come to. -/
def within {α : Type} (enter : CompileState → CompileState)
    (leave : CompileState → CompileState → CompileState) (part : CompileM α) : CompileM α :=
  fun s =>
    match part (enter s) with
    | .ok a s' => .ok a (leave s s')
    | .error e s' => .error e (leave s s')

def underScope {α : Type} (scope : Option Bytes) : CompileM α → CompileM α :=
  within (fun s => { s with scope := scope }) fun s s' => { s' with scope := s.scope }

/-- Runs a part of a compilation while the file at a location is included, which is then
the last one that has been begun. -/
def including {α : Type} (location : String) : CompileM α → CompileM α :=
  within (fun s => { s with including := s.including ++ [location] })
    fun _ s' => { s' with including := s'.including.dropLast }

/-- Runs a part of a compilation while the body under a name is imported, which is then the
last one that has been begun. -/
def importing {α : Type} (name : String) : CompileM α → CompileM α :=
  within (fun s => { s with importing := s.importing ++ [name] })
    fun _ s' => { s' with importing := s'.importing.dropLast }

def keep (name : String) (body : Bytes) : CompileM Unit :=
  modify fun s => { s with exports := s.exports.insert name body }

end CompileM

end Stencil
