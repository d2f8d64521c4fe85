/-
# `Stencil.Compile.Action` — what the pieces of a source leave to do

Compilation takes two passes.  The first goes through the pieces in order: what is
exported is kept, what is embedded is compiled, and everything that may refer to an
export is deferred.  The second resolves what was deferred, in order, when the first
has seen all exports of the source.

Both passes compile other sources on the way, bodies and files.  How that is done is
a parameter here.  The passes of this module give trees.  Those that put bytes together
are in `Stencil.Compile.Assembly`.
-/
import Stencil.Compile.State

namespace Stencil

/-- What a deferred action is to do: to compile the body that is kept under a name, a
file, a body under the scope of the action, a chain of conditions, or a loop. -/
inductive Deferral where
  | importBody (name : String)
  | extendFile (name : String)
  | body (source : Bytes)
  | conditional (branches : List (List String × Bytes)) (otherwise : Option Bytes)
  | loop (name : String) (iterable : List String) (body : Bytes)
deriving DecidableEq, Repr

/-- An action: code that is known, or something deferred, with the directory and the
scope in which it was found.  Code is a tree or bytes. -/
inductive ActionOf (κ : Type) where
  | emit (code : κ)
  | defer (path : String) (scope : Option Bytes) (what : Deferral)
deriving DecidableEq, Repr

/-- How bodies and files are compiled: a body by its source and directory, a file by
its name and directory. -/
structure NestedOf (κ : Type) where
  block : Bytes → String → CompileM κ
  file : String → String → CompileM κ

abbrev Action := ActionOf Block

abbrev Nested := NestedOf Block

/-- A chain of conditions: each is the second block of the one before. -/
def Block.chain : List (List String × Block) → Option Block → Block
  | [], _ => .done
  | [(condition, yes)], none => .branch (.path condition) yes .done
  | [(condition, yes)], some no => .branchElse (.path condition) yes no .done
  | (condition, yes) :: rest, otherwise =>
    .branchElse (.path condition) yes (chain rest otherwise) .done

namespace Action

/-- The first pass over a piece.  `extension` is added to the names of files. -/
def ofPiece (nested : Nested) (extension path : String) (piece : Piece) : CompileM Action := do
  let scope := (← get).scope
  match piece with
  | .emit code => pure (.emit code)
  | .scopedBody inner body => pure (.defer path (some inner) (.body body))
  | .loop name iterable body => pure (.defer path scope (.loop name iterable body))
  | .conditional branches otherwise => pure (.defer path scope (.conditional branches otherwise))
  | .embedFile name => .emit <$> nested.file (name ++ extension) path
  | .exportBody name body =>
    CompileM.keep name body
    pure (.emit .done)
  | .importBody name => pure (.defer path scope (.importBody name))
  | .extendFile name => pure (.defer path scope (.extendFile (name ++ extension)))

def scan (nested : Nested) (tags : TagTable) (extension : String) (source : Bytes) (path : String) :
    CompileM (List Action) := do
  let reading := Reading.ofBytes tags (← get).scope source
  let actions ← reading.pieces.mapM (ofPiece nested extension path)
  -- Pieces in front of the fault may have failed before it was come to.
  match reading.fault with
  | some e => throw e
  | none => pure actions

/-- The second pass over what was deferred. -/
def resolveDeferral (nested : Nested) (path : String) (scope : Option Bytes) :
    Deferral → CompileM Block
  | .importBody name => do
    match (← get).exports.find? name with
    | none => throw (.notExported name)
    | some body =>
      if name ∈ (← get).importing then throw (.circularImport name)
      else CompileM.importing name (CompileM.underScope scope (nested.block body path))
  | .extendFile name => CompileM.underScope scope (nested.file name path)
  | .body source => CompileM.underScope scope (nested.block source path)
  | .conditional branches otherwise => do
    let blocks ← branches.mapM fun branch => do
      let block ← CompileM.underScope scope (nested.block branch.2 path)
      pure (branch.1, block)
    let no ← otherwise.mapM fun source => CompileM.underScope scope (nested.block source path)
    pure (Block.chain blocks no)
  | .loop name iterable source => do
    let body ← CompileM.underScope scope (nested.block source path)
    pure (.loop name (.path iterable) body .done)

def resolve (nested : Nested) : Action → CompileM Block
  | .emit code => pure code
  | .defer path scope what => resolveDeferral nested path scope what

end Action

end Stencil
