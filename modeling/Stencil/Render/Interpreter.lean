/-
# `Stencil.Render.Interpreter` — one interpreter, many runs

An interpreter has code and limits, and runs the code in one context after the other.
It keeps the count of the steps of its last run, be it that the run failed, and starts
to count anew when it runs again.
-/
import Stencil.Render.Machine

namespace Stencil

/-- Code, limits for each run of it, and the steps of the last run. -/
structure Interpreter where
  code : Bytes
  limits : Limits
  steps : Nat
deriving DecidableEq, Repr

namespace Interpreter

def ofCode (code : Bytes) (limits : Limits) : Interpreter := ⟨code, limits, 0⟩

def reset (i : Interpreter) : Interpreter := { i with steps := 0 }

/-- Runs the code from the steps counted so far: what comes out, and the interpreter
afterwards. -/
def resume (i : Interpreter) (context : Context) : Except RunError Bytes × Interpreter :=
  let c := Cursor.ofBytes i.code
  match Machine.runBlock i.limits Machine.maxDepth context c ⟨i.steps, []⟩ with
  | .ok _ p => (.ok p.output, { i with steps := p.steps })
  | .error e p => (.error e, { i with steps := p.steps })

def run (i : Interpreter) (context : Context) : Except RunError Bytes × Interpreter :=
  i.reset.resume context

def runs : Interpreter → List Context → List (Except RunError Bytes)
  | _, [] => []
  | i, context :: contexts =>
    let (result, after) := i.run context
    result :: after.runs contexts

end Interpreter

end Stencil
