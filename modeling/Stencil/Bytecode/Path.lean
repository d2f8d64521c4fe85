/-
# `Stencil.Bytecode.Path` — paths to values

A path is written with dots between its segments, `a.b.0`.  It has at least one
segment, no segment is empty, and no blank and no zero byte stand in it: those
would be lost among the bytes around it, in the source or in the code.
-/
import Stencil.Bytecode.Block
import Stencil.Compile.Error

namespace Stencil.Path

def dot : UInt8 := 0x2E

/-- The segments of a path, or what is wrong with it.  Of several faults a blank
comes first, then a zero byte, then an empty segment. -/
def parse (path : Bytes) : Except CompileError (List String) :=
  if path.any Bytes.isBlank then .error (.blankInPath path)
  else match path.findIdx? (· == Opcode.stop) with
  | some position => .error (.nulByte position)
  | none =>
    let segments := path.splitOn dot
    if segments.any List.isEmpty then .error (.emptyPath path)
    else match segments.mapM Utf8.decode? with
    | some names => .ok names
    | none => .error (.malformedText path)

end Stencil.Path
