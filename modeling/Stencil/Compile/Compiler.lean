/-
# `Stencil.Compile.Compiler` — from sources to bytecode

A source is compiled by its two passes, and what they compile on the way is compiled
in the same manner.  That ends: a body is shorter than the source it stands in, a
file is not included while it is being included, and a body that is kept under a name
is not imported while it is being imported.  Between two inclusions or imports the
sources get shorter, and there are only finitely many names to include or import, for
each is written somewhere in a source.

So a bound on the levels of nesting can be computed up front.  Compilation recurses on
it, and would report `nestingTooDeep` if it were ever reached.
-/
import Stencil.Compile.Assembly
import Stencil.Store.Basic

namespace Stencil

structure Template where
  code : Bytes
deriving DecidableEq, Repr

/-- A compiler: where it finds files, which tags it knows, and what it adds to the
names of files in tags. -/
structure Compiler where
  store : Store
  tags : TagTable
  extension : String

namespace Compiler

/-- Compiles the file of a name as seen from a directory.  What it includes is seen from
the same directory. -/
def compileFileWith {κ : Type} (compiler : Compiler) (block : Bytes → String → CompileM κ)
    (name path : String) : CompileM κ := do
  -- A location counts as it is spelled.
  let location := Location.join path name
  if location ∈ (← get).including then throw (.circularInclude location)
  else match compiler.store.load location with
  | none => throw (.fileDoesNotExist location)
  | some source => CompileM.including location (block source path)

def nestedWith {κ : Type} (compiler : Compiler) (block : Bytes → String → CompileM κ) :
    NestedOf κ :=
  ⟨block, compiler.compileFileWith block⟩

/-- Compiles a source to bytes, with as many levels of nesting as given. -/
def assembleBlock (compiler : Compiler) : Nat → Bytes → String → CompileM Bytes
  | 0, _, _ => throw .nestingTooDeep
  | levels + 1, source, path => do
    let nested := compiler.nestedWith (compiler.assembleBlock levels)
    let actions ← Assembly.scan nested compiler.tags compiler.extension source path
    Assembly.join <$> actions.mapM (Assembly.resolve nested)

def assembleFileBlock (compiler : Compiler) (levels : Nat) (name path : String) : CompileM Bytes :=
  compiler.compileFileWith (compiler.assembleBlock levels) name path

/-- Compiles a source to the tree that the bytes spell. -/
def compileBlock (compiler : Compiler) : Nat → Bytes → String → CompileM Block
  | 0, _, _ => throw .nestingTooDeep
  | levels + 1, source, path => do
    let nested := compiler.nestedWith (compiler.compileBlock levels)
    let actions ← Action.scan nested compiler.tags compiler.extension source path
    Block.concat <$> actions.mapM (Action.resolve nested)

def compileFileBlock (compiler : Compiler) (levels : Nat) (name path : String) : CompileM Block :=
  compiler.compileFileWith (compiler.compileBlock levels) name path

/-- A bound on the levels of nesting of a compilation that starts with a source and a
state.  A name that is included or imported is part of one of the texts, and a text of
length `n` has at most `(n + 1) ^ 2` parts; between two inclusions or imports lie at
most as many levels as the longest text has bytes. -/
def levels (compiler : Compiler) (source : Bytes) (s : CompileState) : Nat :=
  let texts := source :: compiler.store.sources ++ s.exports.map Prod.snd
  let names := texts.foldl (fun count text => count + (text.length + 1) * (text.length + 1)) 0
  let longest := (texts.map List.length).foldl max 0
  (2 * names + 2) * (longest + 2)

def compileSource (compiler : Compiler) (source : Bytes) (path : String) : CompileM Template := do
  let levels := compiler.levels source (← get)
  let code ← compiler.assembleBlock levels source path
  pure ⟨code⟩

def compileFile (compiler : Compiler) (name path : String) : CompileM Template := do
  let levels := compiler.levels [] (← get)
  let code ← compiler.assembleFileBlock levels name path
  pure ⟨code⟩

def scanSource (compiler : Compiler) (source : Bytes) (path : String) : CompileM (List Action) := do
  let levels := compiler.levels source (← get)
  let nested := compiler.nestedWith (compiler.compileBlock levels)
  Action.scan nested compiler.tags compiler.extension source path

end Compiler

end Stencil
