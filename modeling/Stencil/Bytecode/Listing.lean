/-
# `Stencil.Bytecode.Listing` — bytecode written out line by line

A listing shows each element, each end of a block and each end of a loop on a line of
its own, with its position in the code and indented by its depth.  Blocks are listed in
the order in which they stand in the code, whatever the lengths in front of them say.
Code that no compiler writes is listed up to what cannot be read.

The walk through the code keeps a stack of what is to be done when the blocks it has
entered end.  A block ends at its zero byte, where the code ends, or where nothing is
known of what comes next.
-/
import Stencil.Bytecode.Reader

namespace Stencil

inductive ListedExpr where
  | path (segments : List String)
  | always
  | unknown (opcode : UInt8)
deriving DecidableEq, Repr

inductive ListedItem where
  | stop
  | raw (length : Nat) (data : Bytes)
  | print (e : ListedExpr)
  | branch (condition : ListedExpr) (yes no : Nat)
  | loop (name : String) (e : ListedExpr) (length : Nat)
  | loopEnd (closed : Bool)
  | unknown (opcode : UInt8)
  | unknownStatement (opcode : UInt8)
deriving DecidableEq, Repr

inductive ListedLine where
  | item (depth position : Nat) (what : ListedItem)
  | otherwise (depth : Nat)
  | fault (e : RunError)
deriving DecidableEq, Repr

namespace ListedExpr

def text : ListedExpr → String
  | path segments => String.intercalate "." segments
  | always => "TRUE"
  | unknown opcode => "UNKNOWN_EXPR 0x" ++ String.ofList (Quoted.hexDigits 2 opcode.toNat)

end ListedExpr

namespace ListedItem

def maxShown : Nat := 32

/-- Raw data in a listing: its start and three dots if it is long. -/
def shownData (data : Bytes) : Bytes :=
  if data.length ≤ maxShown then data else data.take (maxShown - 3) ++ Utf8.encode "..."

def text : ListedItem → String
  | stop => "END"
  | raw length data => s!"RAW {length} " ++ Quoted.ofBytes (shownData data)
  | print e => "PRINT " ++ e.text
  | branch condition yes no => "IF " ++ condition.text ++ s!" (true {yes}, false {no})"
  | loop name e length => "FOR " ++ name ++ " IN " ++ e.text ++ s!" (body {length})"
  | loopEnd true => "END_FOR"
  | loopEnd false => "UNCLOSED_FOR"
  | unknown opcode => "UNKNOWN 0x" ++ String.ofList (Quoted.hexDigits 2 opcode.toNat)
  | unknownStatement opcode => "UNKNOWN_STMT 0x" ++ String.ofList (Quoted.hexDigits 2 opcode.toNat)

end ListedItem

namespace ListedLine

def indent (depth : Nat) : String :=
  String.ofList (List.replicate (2 * (depth + 1)) ' ')

def text : ListedLine → String
  | item depth position what =>
    indent depth ++ String.ofList (Quoted.hexDigits 4 position) ++ ": " ++ what.text
  | otherwise depth => indent depth ++ "      ELSE"
  | fault e => "  ! " ++ e.message

end ListedLine

namespace Listing

open CodeReader

/-- What is to be done when a block ends: to go on with the block around it, to list
the second block of a branch first, or to end a loop first. -/
inductive Frame where
  | resume (depth : Nat)
  | second (depth : Nat)
  | closeLoop (depth : Nat)
deriving DecidableEq, Repr

/-- How many blocks are yet to be left for a frame. -/
def Frame.weight : Frame → Nat
  | resume _ => 1
  | second _ => 2
  | closeLoop _ => 1

def weight : List Frame → Nat
  | [] => 0
  | frame :: stack => frame.weight + weight stack

def readExpr : CodeReader ListedExpr := do
  let opcode ← readByte
  if opcode = Opcode.path then .path <$> readPath
  else if opcode = Opcode.always then pure .always
  else pure (.unknown opcode)

def readStatement : CodeReader ListedItem := do
  let opcode ← readByte
  if opcode = Opcode.print then .print <$> readExpr
  else if opcode = Opcode.branch then
    let condition ← readExpr
    let yes ← readLength
    let no ← readLength
    pure (.branch condition yes no)
  else if opcode = Opcode.loop then
    let name ← readName
    let e ← readExpr
    let length ← readLength
    pure (.loop name e length)
  else pure (.unknownStatement opcode)

def readItem : CodeReader ListedItem := do
  let opcode ← readByte
  if opcode = Opcode.stop then pure .stop
  else if opcode = Opcode.raw then
    let length ← readLength
    let data ← readBytes length
    pure (.raw length data)
  else if opcode = Opcode.statement then readStatement
  else pure (.unknown opcode)

theorem onward_map {α β : Type} (f : α → β) {r : CodeReader α} (h : Reader.Onward r) :
    Reader.Onward (f <$> r) := by
  intro c b c' e
  simp only [Functor.map, EStateM.map] at e
  split at e <;> cases e
  exact h _ _ _ (by assumption)

theorem onward_readExpr : Reader.Onward readExpr := by
  refine Reader.onward_bind consumes_readByte.onward fun opcode => ?_
  split
  · exact onward_map _ consumes_readPath.onward
  split <;> exact Reader.onward_pure _

theorem onward_readStatement : Reader.Onward readStatement := by
  refine Reader.onward_bind consumes_readByte.onward fun opcode => ?_
  split
  · exact onward_map _ onward_readExpr
  split
  · exact Reader.onward_bind onward_readExpr fun _ =>
      Reader.onward_bind onward_readLength fun _ =>
      Reader.onward_bind onward_readLength fun _ => Reader.onward_pure _
  split
  · exact Reader.onward_bind consumes_readName.onward fun _ =>
      Reader.onward_bind onward_readExpr fun _ =>
      Reader.onward_bind onward_readLength fun _ => Reader.onward_pure _
  · exact Reader.onward_pure _

theorem consumes_readItem : Reader.Consumes readItem := by
  refine consumes_readByte.bind fun opcode => ?_
  split
  · exact Reader.onward_pure _
  split
  · exact Reader.onward_bind onward_readLength fun _ =>
      Reader.onward_bind (onward_readBytes _) fun _ => Reader.onward_pure _
  split
  · exact onward_readStatement
  · exact Reader.onward_pure _

mutual

/-- Lists the rest of a block, behind the lines already listed, which are given last
one first. -/
def walk (stack : List Frame) (depth : Nat) (lines : List ListedLine) (c : Cursor) :
    List ListedLine :=
  if c.atEnd then leave stack lines c
  else match _itemRead : readItem c with
  | .error e _ => (.fault e :: lines).reverse
  | .ok what c' =>
    let lines := .item depth c.position what :: lines
    match what with
    | .stop | .unknown _ | .unknownStatement _ => leave stack lines c'
    | .raw .. | .print _ | .loopEnd _ => walk stack depth lines c'
    | .branch _ _ 0 => walk (.resume depth :: stack) (depth + 1) lines c'
    | .branch _ _ (_ + 1) => walk (.second depth :: stack) (depth + 1) lines c'
    | .loop .. => walk (.closeLoop depth :: stack) (depth + 1) lines c'
termination_by (c.rest.length, weight stack, 1)
decreasing_by
  · exact .right _ (.right _ Nat.zero_lt_one)
  all_goals exact .left _ _ (consumes_readItem _ _ _ _itemRead)

def leave (stack : List Frame) (lines : List ListedLine) (c : Cursor) : List ListedLine :=
  match stack with
  | [] => lines.reverse
  | .resume depth :: stack => walk stack depth lines c
  | .second depth :: stack => walk (.resume depth :: stack) (depth + 1) (.otherwise depth :: lines) c
  | .closeLoop depth :: stack =>
    match _closingRead : readByte c with
    | .error e _ => (.fault e :: lines).reverse
    | .ok b c' =>
      walk stack depth (.item depth c.position (.loopEnd (b == Opcode.stop)) :: lines) c'
termination_by (c.rest.length, weight stack, 0)
decreasing_by
  · exact .right _ (.left _ _ (by simp [weight, Frame.weight]))
  · exact .right _ (.left _ _ (by simp [weight, Frame.weight]))
  · exact .left _ _ (consumes_readByte _ _ _ _closingRead)

end

def lines (code : Bytes) : List ListedLine :=
  walk [] 0 [] (Cursor.ofBytes code)

def text (code : Bytes) : String :=
  String.intercalate "\n" (s!"Code ({code.length} bytes):" :: (lines code).map ListedLine.text)

end Listing

end Stencil
