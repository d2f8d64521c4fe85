/-
# `Stencil.Bytecode.Reader` — reading bytecode

The primitives by which bytecode is read.  Each says where it fails and leaves the
cursor there.  Every one that yields something it had to read has moved on, which
the loops over the code rest on.
-/
import Stencil.Bytecode.Block
import Stencil.Cursor
import Stencil.Render.Error

namespace Stencil

abbrev CodeReader (α : Type) := Reader RunError α

namespace CodeReader

open EStateM (Result)

/-- Fails unless `count` bytes lie ahead. -/
def require (count : Nat) : CodeReader Unit := fun c =>
  if c.holds count then .ok () c else .error (.unexpectedEnd c.position) c

def seek (position : Nat) : CodeReader Unit := fun c =>
  if position ≤ c.data.length then .ok () (Cursor.ofPosition c.data position)
  else .error (.unexpectedEnd position) c

def peekByte : CodeReader UInt8 := fun c =>
  match c.rest with
  | [] => .error (.unexpectedEnd c.position) c
  | b :: _ => .ok b c

def readByte : CodeReader UInt8 := fun c =>
  match h : c.rest with
  | [] => .error (.unexpectedEnd c.position) c
  | b :: _ => .ok b (c.past h)

def readBytes (count : Nat) : CodeReader Bytes := fun c =>
  if c.holds count then .ok (c.rest.take count) (c.forward count)
  else .error (.unexpectedEnd c.position) c

def readLength : CodeReader Nat :=
  Bytes.ofLittleEndian <$> readBytes Bytes.lengthFieldSize

/-- Reads bytes up to a zero byte, and that byte too. -/
def readClosed : CodeReader Bytes := fun c =>
  let data := c.rest.takeWhile (· != Opcode.stop)
  match c.rest.drop data.length with
  | [] => .error (.unexpectedEnd c.data.length) c
  | _ :: _ => .ok data (c.forward (data.length + 1))

def readName : CodeReader String := do
  let data ← readClosed
  match Utf8.decode? data with
  | some name => pure name
  | none => throw (.undecodableName data)

theorem consumes_readByte : Reader.Consumes readByte := by
  intro c b c' h
  unfold readByte at h
  split at h
  · cases h
  · cases h
    exact c.length_rest_past _

theorem onward_readBytes (count : Nat) : Reader.Onward (readBytes count) := by
  intro c a c' h
  unfold readBytes at h
  split at h <;> cases h
  rw [Cursor.length_rest_forward]
  omega

theorem consumes_readBytes {count : Nat} (h : 0 < count) : Reader.Consumes (readBytes count) := by
  intro c a c' hread
  unfold readBytes at hread
  split at hread <;> cases hread
  next hholds =>
    have hwithin := (c.holds_iff count).1 hholds
    rw [Cursor.length_rest_forward, c.rest_eq, List.length_drop]
    omega

theorem consumes_readLength : Reader.Consumes readLength := by
  intro c a c' h
  simp only [readLength, Functor.map, EStateM.map] at h
  split at h <;> cases h
  have hpos : 0 < Bytes.lengthFieldSize := by decide
  exact consumes_readBytes hpos _ _ _ (by assumption)

theorem onward_readLength : Reader.Onward readLength :=
  consumes_readLength.onward

theorem consumes_readClosed : Reader.Consumes readClosed := by
  intro c a c' h
  simp only [readClosed] at h
  split at h
  · cases h
  · cases h
    next hd =>
    have := congrArg List.length hd
    simp only [List.length_drop, List.length_cons, Cursor.length_rest_forward] at this ⊢
    omega

theorem consumes_readName : Reader.Consumes readName := by
  refine consumes_readClosed.bind fun data => ?_
  split
  · exact Reader.onward_pure _
  · exact Reader.onward_throw _

/-- Reads names up to a zero byte, and that byte too; puts them in order behind
those already found, which are given last one first. -/
def readNames (found : List String) (c : Cursor) : Result RunError Cursor (List String) :=
  match hc : c.rest with
  | [] => .error (.unexpectedEnd c.position) c
  | b :: _ =>
    if b = Opcode.stop then .ok found.reverse (c.past hc)
    else match _hn : readName c with
      | .error e c' => .error e c'
      | .ok name c' => readNames (name :: found) c'
termination_by c.rest.length
decreasing_by exact consumes_readName _ _ _ (by assumption)

/-- Reads a path, whose opcode has been read. -/
def readPath : CodeReader (List String) := do
  let segments ← readNames []
  if segments.isEmpty then throw .emptyPath else pure segments

theorem consumes_readNames (found : List String) : Reader.Consumes (readNames found) := by
  intro c a c' h
  fun_induction readNames found c with
  | case1 => cases h
  | case2 =>
    cases h
    exact Cursor.length_rest_past _ _
  | case3 => cases h
  | case4 _ _ _ _ _ _ _ _ hn ih => exact Nat.lt_trans (ih h) (consumes_readName _ _ _ hn)

theorem consumes_readPath : Reader.Consumes readPath := by
  refine (consumes_readNames []).bind fun segments => ?_
  split
  · exact Reader.onward_throw _
  · exact Reader.onward_pure _

end CodeReader

end Stencil
