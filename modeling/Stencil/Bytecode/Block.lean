/-
# `Stencil.Bytecode.Block` — compiled templates as trees, and their bytes

A compiled template is a block: a chain of elements that ends.  An element writes
raw bytes, prints a value, chooses between two blocks, or runs a block for each
element of a value.  The bytes of a block are

    element   := RAW length bytes | STATEMENT statement
    statement := BRANCH expr length length block [block]
               | LOOP name expr length block STOP
               | PRINT expr
    expr      := PATH name+ STOP | ALWAYS
    block     := element* STOP

where a name is closed by a zero byte, and the lengths are those of the blocks
that follow, zero if the second block of a branch is left out.  `STOP` is a zero
byte too.
-/
import Stencil.Bytes
import Stencil.Text.Utf8

namespace Stencil

namespace Opcode

def stop : UInt8 := 0x00

-- What begins an element.
def raw : UInt8 := 0x01
def statement : UInt8 := 0x02

-- What begins a statement.
def branch : UInt8 := 0x01
def loop : UInt8 := 0x02
def print : UInt8 := 0x03

-- What begins an expression.
def path : UInt8 := 0x01
def always : UInt8 := 0x02

end Opcode

/-- An expression: the value at a path, or the boolean `true`. -/
inductive Expr where
  | path (segments : List String)
  | always
deriving DecidableEq, Repr

/-- A block.  Each constructor but the first puts one element in front of a block;
`branch` is a branch without a second block, `branchElse` one with it. -/
inductive Block where
  | done
  | raw (data : Bytes) (next : Block)
  | print (e : Expr) (next : Block)
  | branch (condition : Expr) (yes next : Block)
  | branchElse (condition : Expr) (yes no next : Block)
  | loop (name : String) (e : Expr) (body next : Block)
deriving DecidableEq, Repr

def encodeName (name : String) : Bytes := Utf8.encode name ++ [Opcode.stop]

/-- A path as bytecode holds it: its names, and one more zero byte. -/
def encodePath (segments : List String) : Bytes :=
  segments.flatMap encodeName ++ [Opcode.stop]

namespace Expr

def encode : Expr → Bytes
  | path segments => Opcode.path :: encodePath segments
  | always => [Opcode.always]

end Expr

namespace Block

def encode : Block → Bytes
  | done => [Opcode.stop]
  | raw data next => Opcode.raw :: Bytes.lengthField data.length ++ data ++ next.encode
  | print e next => Opcode.statement :: Opcode.print :: e.encode ++ next.encode
  | branch condition yes next =>
    let block := yes.encode
    Opcode.statement :: Opcode.branch :: condition.encode ++
      Bytes.lengthField block.length ++ Bytes.lengthField 0 ++ block ++ next.encode
  | branchElse condition yes no next =>
    let first := yes.encode
    let second := no.encode
    Opcode.statement :: Opcode.branch :: condition.encode ++
      Bytes.lengthField first.length ++ Bytes.lengthField second.length ++
      first ++ second ++ next.encode
  | loop name e body next =>
    let block := body.encode
    Opcode.statement :: Opcode.loop :: encodeName name ++ e.encode ++
      Bytes.lengthField block.length ++ block ++ Opcode.stop :: next.encode

/-- The bytes of a block with others behind them, and how many are its own.  Built from
the back, so that each byte is put in place once. -/
def encodeBefore (b : Block) (after : Bytes) : Bytes × Nat :=
  match b with
  | done => (Opcode.stop :: after, 1)
  | raw data next =>
    let (behind, count) := next.encodeBefore after
    let front := Opcode.raw :: Bytes.lengthField data.length
    (front ++ data ++ behind, front.length + data.length + count)
  | print e next =>
    let (behind, count) := next.encodeBefore after
    let front := Opcode.statement :: Opcode.print :: e.encode
    (front ++ behind, front.length + count)
  | branch condition yes next =>
    let (behind, count) := next.encodeBefore after
    let (behind, yesCount) := yes.encodeBefore behind
    let front := Opcode.statement :: Opcode.branch :: condition.encode ++
      Bytes.lengthField yesCount ++ Bytes.lengthField 0
    (front ++ behind, front.length + yesCount + count)
  | branchElse condition yes no next =>
    let (behind, count) := next.encodeBefore after
    let (behind, noCount) := no.encodeBefore behind
    let (behind, yesCount) := yes.encodeBefore behind
    let front := Opcode.statement :: Opcode.branch :: condition.encode ++
      Bytes.lengthField yesCount ++ Bytes.lengthField noCount
    (front ++ behind, front.length + yesCount + noCount + count)
  | loop name e body next =>
    let (behind, count) := next.encodeBefore after
    let (behind, bodyCount) := body.encodeBefore (Opcode.stop :: behind)
    let front := Opcode.statement :: Opcode.loop :: encodeName name ++ e.encode ++
      Bytes.lengthField bodyCount
    (front ++ behind, front.length + bodyCount + 1 + count)

theorem encodeBefore_eq (b : Block) (after : Bytes) :
    b.encodeBefore after = (b.encode ++ after, b.encode.length) := by
  induction b generalizing after <;> simp_all [encodeBefore, encode] <;> omega

def code (b : Block) : Bytes := (b.encodeBefore []).1

@[simp] theorem code_eq_encode (b : Block) : b.code = b.encode := by
  simp [code, encodeBefore_eq]

/-- The elements of one block and then those of another. -/
def append : Block → Block → Block
  | done, b => b
  | raw data next, b => raw data (next.append b)
  | print e next, b => print e (next.append b)
  | branch condition yes next, b => branch condition yes (next.append b)
  | branchElse condition yes no next, b => branchElse condition yes no (next.append b)
  | loop name e body next, b => loop name e body (next.append b)

def concat (blocks : List Block) : Block := blocks.foldr append done

/-- The bytes of the elements of a block, without the one that ends it. -/
def elementBytes (b : Block) : Bytes := b.code.dropLast

end Block

end Stencil
