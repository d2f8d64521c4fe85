/-
# `Stencil.Render.Machine` — running bytecode against a context

The machine runs a block element by element.  A branch and a loop run nested
blocks, and go on after the lengths that they state, wherever a nested block ended.
So the code need not come from a compiler: any byte string runs, to an output or an
error.

Every element read counts as a step, and the steps may be limited.  Nesting is
limited too, by the number of levels handed to the machine.

The machine ends on every code because what lies ahead gets shorter: a nested block
starts after the statement that runs it, and so does the rest of the block.  The
elements of a loop all start at the same place, and their number is given before
the first of them runs.
-/
import Stencil.Bytecode.Reader
import Stencil.Value.Context

namespace Stencil

/-- How many steps a run may take; without a number, as many as it likes. -/
structure Limits where
  maxSteps : Option Int
deriving DecidableEq, Repr

namespace Limits

def unbounded : Limits := ⟨none⟩

/-- The limit that a number of steps goes beyond. -/
def exceededBy (limits : Limits) (steps : Nat) : Option Int :=
  limits.maxSteps.filter fun limit => limit < steps

end Limits

/-- What a run has done so far: the steps taken, and the bytes written, last one
first. -/
structure Progress where
  steps : Nat
  written : Bytes
deriving DecidableEq, Repr

namespace Progress

def start : Progress := ⟨0, []⟩

def tick (p : Progress) : Progress := { p with steps := p.steps + 1 }

def write (p : Progress) (data : Bytes) : Progress :=
  { p with written := data.reverseAux p.written }

def output (p : Progress) : Bytes := p.written.reverse

end Progress

/-- What an element asks for once its expression is evaluated: to write bytes, to
run one of the two blocks ahead, whose lengths are given, or to run the block ahead
for each of the elements under a name. -/
inductive Task where
  | write (data : Bytes)
  | choose (holds : Bool) (yes no : Nat)
  | each (name : String) (elements : List Value) (length : Nat)

namespace Machine

open CodeReader
open EStateM (Result)

/-- Takes over a result or an error that was found without reading. -/
def checked {α : Type} : Except RunError α → CodeReader α
  | .ok a => pure a
  | .error e => throw e

/-- Fails with an error about the byte just read. -/
def failBehind {α : Type} (e : Nat → RunError) : CodeReader α := fun c =>
  .error (e (c.position - 1)) c

def evaluate (context : Context) : CodeReader Value := do
  let opcode ← readByte
  if opcode = Opcode.path then
    let segments ← readPath
    checked ((context.resolve segments).mapError .ofPathFault)
  else if opcode = Opcode.always then pure (.bool true)
  else failBehind (.invalidExpression opcode)

/-- Reads a statement up to its blocks. -/
def readStatement (context : Context) : CodeReader Task := do
  let opcode ← readByte
  if opcode = Opcode.branch then
    let condition ← evaluate context
    let yes ← readLength
    let no ← readLength
    require (yes + no)
    pure (.choose condition.isTrue yes no)
  else if opcode = Opcode.loop then
    let name ← readName
    let value ← evaluate context
    let length ← readLength
    require length
    pure (.each name value.elements length)
  else if opcode = Opcode.print then
    let value ← evaluate context
    let data ← checked (value.output.mapError .ofOutputFault)
    pure (.write data)
  else failBehind (.invalidStatement opcode)

/-- Reads an element, whose opcode has been read, up to its blocks. -/
def readTask (context : Context) (opcode : UInt8) : CodeReader Task :=
  if opcode = Opcode.raw then do
    let length ← readLength
    let data ← readBytes length
    pure (.write data)
  else if opcode = Opcode.statement then readStatement context
  else failBehind (.invalidElement opcode)

theorem onward_checked {α : Type} (r : Except RunError α) : Reader.Onward (checked r) := by
  cases r
  · exact Reader.onward_throw _
  · exact Reader.onward_pure _

theorem onward_failBehind {α : Type} (e : Nat → RunError) :
    Reader.Onward (failBehind e : CodeReader α) := by
  rintro c _ c' ⟨⟩

theorem onward_require (count : Nat) : Reader.Onward (require count) := by
  intro c a c' h
  unfold require at h
  split at h <;> cases h
  exact Nat.le_refl _

theorem onward_evaluate (context : Context) : Reader.Onward (evaluate context) := by
  refine Reader.onward_bind consumes_readByte.onward fun opcode => ?_
  split
  · exact Reader.onward_bind consumes_readPath.onward fun _ => onward_checked _
  split
  · exact Reader.onward_pure _
  · exact onward_failBehind _

theorem consumes_readStatement (context : Context) :
    Reader.Consumes (readStatement context) := by
  refine consumes_readByte.bind fun opcode => ?_
  split
  · exact Reader.onward_bind (onward_evaluate _) fun _ =>
      Reader.onward_bind onward_readLength fun _ =>
      Reader.onward_bind onward_readLength fun _ =>
      Reader.onward_bind (onward_require _) fun _ => Reader.onward_pure _
  split
  · exact Reader.onward_bind consumes_readName.onward fun _ =>
      Reader.onward_bind (onward_evaluate _) fun _ =>
      Reader.onward_bind onward_readLength fun _ =>
      Reader.onward_bind (onward_require _) fun _ => Reader.onward_pure _
  split
  · exact Reader.onward_bind (onward_evaluate _) fun _ =>
      Reader.onward_bind (onward_checked _) fun _ => Reader.onward_pure _
  · exact onward_failBehind _

theorem consumes_readTask (context : Context) (opcode : UInt8) :
    Reader.Consumes (readTask context opcode) := by
  unfold readTask
  split
  · exact consumes_readLength.bind fun _ =>
      Reader.onward_bind (onward_readBytes _) fun _ => Reader.onward_pure _
  split
  · exact consumes_readStatement _
  · rintro c _ c' ⟨⟩

/-- Runs a body for each of the values, to the first error. -/
def runEach (body : Value → Progress → Result RunError Progress Cursor) :
    List Value → Progress → Result RunError Progress Unit
  | [], p => .ok () p
  | v :: vs, p =>
    match body v p with
    | .error e p => .error e p
    | .ok _ p => runEach body vs p

/-- Runs the block that lies ahead, with `depth` more levels of nesting allowed.
Yields the cursor behind the block. -/
def runBlock (limits : Limits) (depth : Nat) (context : Context) (c : Cursor) (p : Progress) :
    Result RunError Progress Cursor :=
  match _opcodeRead : readByte c with
  | .error e _ => .error e p
  | .ok opcode c₁ =>
    if opcode = Opcode.stop then .ok c₁ p
    else match limits.exceededBy (p.steps + 1) with
    | some limit => .error (.stepLimitExceeded limit) p.tick
    | none =>
      match _taskRead : readTask context opcode c₁ with
      | .error e _ => .error e p.tick
      | .ok (.write data) c₂ => runBlock limits depth context c₂ (p.tick.write data)
      | .ok (.choose holds yes no) c₂ =>
        -- A second block without a length is not there, and needs no level.
        if holds || 0 < no then
          match depth with
          | 0 => .error .depthExceeded p.tick
          | inner + 1 =>
            match runBlock limits inner context (c₂.forward (if holds then 0 else yes)) p.tick with
            | .error e p => .error e p
            -- The lengths say where to go on, wherever the nested block has ended.
            | .ok _ p => runBlock limits depth context (c₂.forward (yes + no)) p
        else runBlock limits depth context (c₂.forward (yes + no)) p.tick
      | .ok (.each name elements length) c₂ =>
        let ran := runEach (fun element p =>
          -- Asked for each element: a loop without any needs no level.
          match depth with
          | 0 => .error .depthExceeded p
          | inner + 1 => runBlock limits inner (context.overlay name element) c₂ p) elements p.tick
        match ran with
        | .error e p => .error e p
        | .ok () p =>
          let c₃ := c₂.forward length
          match h : c₃.rest with
          | [] => .error (.unclosedLoop c₃.position) p
          | b :: _ =>
            if b = Opcode.stop then runBlock limits depth context (c₃.past h) p
            else .error (.unclosedLoop c₃.position) p
termination_by c.rest.length
decreasing_by
  all_goals
    have h₁ := consumes_readByte _ _ _ _opcodeRead
    have h₂ := consumes_readTask _ _ _ _ _ _taskRead
    try simp only [Cursor.length_rest_forward]
    try have h₃ := c₃.length_rest_past h
    try simp only [c₃, Cursor.length_rest_forward] at h₃
    omega

/-- The levels of nesting that a run allows. -/
def maxDepth : Nat := 320

def start (limits : Limits) (code : Bytes) (context : Context) : Result RunError Progress Cursor :=
  runBlock limits maxDepth context (Cursor.ofBytes code) Progress.start

def run (limits : Limits) (code : Bytes) (context : Context) : Except RunError Bytes :=
  match start limits code context with
  | .ok _ p => .ok p.output
  | .error e _ => .error e

end Machine

end Stencil
