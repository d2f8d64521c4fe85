/-
# `Stencil.Compile.Assembly` — putting bytecode together

The two passes of a compilation once more, on bytes.  The code of a block is closed by a
zero byte.  Where it is taken over into the block around it, that byte is cut off; where
it becomes part of a statement, the byte stays, and the length of the code with it is
written in front.

A chain of conditions is put together from its end: each statement, closed, is the second
block of the one before.
-/
import Stencil.Compile.Action

namespace Stencil

namespace Assembly

/-! ## Elements -/

/-- The code of a block, from that of its elements. -/
def close (elements : Bytes) : Bytes := elements ++ [Opcode.stop]

def raw (data : Bytes) : Bytes := Opcode.raw :: Bytes.lengthField data.length ++ data

def print (e : Expr) : Bytes := Opcode.statement :: Opcode.print :: e.encode

/-- A branch between the codes of two blocks; the second is empty if there is none. -/
def branch (condition : Expr) (yes no : Bytes) : Bytes :=
  Opcode.statement :: Opcode.branch :: condition.encode ++ Bytes.lengthField yes.length ++
    Bytes.lengthField no.length ++ yes ++ no

def loop (name : String) (e : Expr) (body : Bytes) : Bytes :=
  Opcode.statement :: Opcode.loop :: encodeName name ++ e.encode ++
    Bytes.lengthField body.length ++ body ++ [Opcode.stop]

def ofBlock : Block → Bytes
  | .done => []
  | .raw data next => raw data ++ ofBlock next
  | .print e next => print e ++ ofBlock next
  | .branch condition yes next => branch condition (close (ofBlock yes)) [] ++ ofBlock next
  | .branchElse condition yes no next =>
    branch condition (close (ofBlock yes)) (close (ofBlock no)) ++ ofBlock next
  | .loop name e body next => loop name e (close (ofBlock body)) ++ ofBlock next

/-- Puts one more condition in front of a chain.  Gives the statement, and the block that
it makes for the condition before. -/
def extend (clause : List String × Bytes) (built : Bytes × Bytes) : Bytes × Bytes :=
  let statement := branch (.path clause.1) clause.2 built.2
  (statement, close statement)

/-- A chain of conditions, each with the code of its block. -/
def chain (branches : List (List String × Bytes)) (otherwise : Option Bytes) : Bytes :=
  (branches.foldr extend ([], otherwise.getD [])).1

def join (codes : List Bytes) : Bytes := close codes.flatten

/-! ## The passes -/

def ofPiece (nested : NestedOf Bytes) (extension path : String) (piece : Piece) :
    CompileM (ActionOf Bytes) := do
  let scope := (← get).scope
  match piece with
  | .emit code => pure (.emit (ofBlock code))
  | .scopedBody inner body => pure (.defer path (some inner) (.body body))
  | .loop name iterable body => pure (.defer path scope (.loop name iterable body))
  | .conditional branches otherwise => pure (.defer path scope (.conditional branches otherwise))
  | .embedFile name => do
    let code ← nested.file (name ++ extension) path
    -- The block goes on behind what is embedded.
    pure (.emit code.dropLast)
  | .exportBody name body =>
    CompileM.keep name body
    pure (.emit [])
  | .importBody name => pure (.defer path scope (.importBody name))
  | .extendFile name => pure (.defer path scope (.extendFile (name ++ extension)))

def scan (nested : NestedOf Bytes) (tags : TagTable) (extension : String) (source : Bytes)
    (path : String) : CompileM (List (ActionOf Bytes)) := do
  let reading := Reading.ofBytes tags (← get).scope source
  let actions ← reading.pieces.mapM (ofPiece nested extension path)
  match reading.fault with
  | some e => throw e
  | none => pure actions

def resolveDeferral (nested : NestedOf Bytes) (path : String) (scope : Option Bytes) :
    Deferral → CompileM Bytes
  | .importBody name => do
    match (← get).exports.find? name with
    | none => throw (.notExported name)
    | some body =>
      if name ∈ (← get).importing then throw (.circularImport name)
      else CompileM.importing name do
        let code ← CompileM.underScope scope (nested.block body path)
        pure code.dropLast
  | .extendFile name => CompileM.underScope scope do
    let code ← nested.file name path
    pure code.dropLast
  | .body source => do
    let code ← CompileM.underScope scope (nested.block source path)
    pure code.dropLast
  | .conditional branches otherwise => do
    let blocks ← branches.mapM fun branch => do
      let block ← CompileM.underScope scope (nested.block branch.2 path)
      pure (branch.1, block)
    let no ← otherwise.mapM fun source => CompileM.underScope scope (nested.block source path)
    pure (chain blocks no)
  | .loop name iterable source => do
    let body ← CompileM.underScope scope (nested.block source path)
    pure (loop name (.path iterable) body)

def resolve (nested : NestedOf Bytes) : ActionOf Bytes → CompileM Bytes
  | .emit code => pure code
  | .defer path scope what => resolveDeferral nested path scope what

end Assembly

end Stencil
