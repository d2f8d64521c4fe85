/-
# `Stencil.Render.Error` — what can go wrong while bytecode runs

Bytecode may be any byte string, so most of these say that it is not what a
compiler writes.  The others are limits, on the number of steps, on nesting, and on
the digits of a number, and a text that has no bytes to be printed.
-/
import Stencil.Value.Text

namespace Stencil

/-- What can go wrong while bytecode runs.  Positions count bytes of the code from
zero. -/
inductive RunError where
  | invalidElement (opcode : UInt8) (position : Nat)
  | invalidStatement (opcode : UInt8) (position : Nat)
  | invalidExpression (opcode : UInt8) (position : Nat)
  | unexpectedEnd (position : Nat)
  | unclosedLoop (position : Nat)
  | undecodableName (data : Bytes)
  | emptyPath
  | stepLimitExceeded (limit : Int)
  | depthExceeded
  | tooManyDigits (e : TooManyDigits)
  | loneSurrogates (e : LoneSurrogates)
deriving DecidableEq, Repr

namespace RunError

/-- An opcode as messages show it: two upper-case hexadecimal digits. -/
def shownOpcode (opcode : UInt8) : String :=
  "0x" ++ (String.ofList (Quoted.hexDigits 2 opcode.toNat)).toUpper

def message : RunError → String
  | invalidElement opcode position =>
    "Invalid element " ++ shownOpcode opcode ++ s!" at offset {position}"
  | invalidStatement opcode position =>
    "Invalid statement " ++ shownOpcode opcode ++ s!" at offset {position}"
  | invalidExpression opcode position =>
    "Invalid expression " ++ shownOpcode opcode ++ s!" at offset {position}"
  | unexpectedEnd position => s!"Compiled template ends unexpectedly at offset {position}"
  | unclosedLoop position => s!"Loop body is not terminated at offset {position}"
  | undecodableName data =>
    "Name " ++ Quoted.ofBytes data ++ " in compiled template is not valid UTF-8"
  | emptyPath => "Empty variable path or path segment in " ++ Quoted.ofBytes []
  | stepLimitExceeded limit => s!"Render exceeded the limit of {limit} statements"
  | depthExceeded => "Host recursion limit reached while rendering nested blocks"
  | tooManyDigits e => e.message
  | loneSurrogates e => e.message

def ofPathFault : PathFault → RunError
  | .noSegments => emptyPath
  | .tooManyDigits e => tooManyDigits e

def ofOutputFault : OutputFault → RunError
  | .tooManyDigits e => tooManyDigits e
  | .loneSurrogates e => loneSurrogates e

end RunError

end Stencil
