/-
# `Stencil.Value.Equality` — when two values are equal

Numbers are compared as numbers, whatever their kind: the booleans count as zero
and one, and an integer equals a floating-point number only if that is exactly the
integer.  Sequences are equal element by element, objects as sets of entries.  A
value of one kind never equals one of another otherwise.

A converted value is also compared with a host value that has not been converted:
a sequence equals a list or tuple of equal elements, and an object a mapping with
the same text keys and equal values.
-/
import Stencil.Value.Host

namespace Stencil

inductive Numeral where
  | int (i : Int)
  | float (x : Binary64)
deriving DecidableEq, Repr

namespace Numeral

def equals : Numeral → Numeral → Bool
  | int i, int j => i == j
  | int i, float x => x.equalsInt i
  | float x, int i => x.equalsInt i
  | float x, float y => x.equals y

def ofBool (b : Bool) : Numeral := int (if b then 1 else 0)

end Numeral

namespace Value

def numeral? : Value → Option Numeral
  | bool b => some (.ofBool b)
  | int i => some (.int i)
  | float x => some (.float x)
  | _ => none

def sameNumber : Option Numeral → Option Numeral → Bool
  | some m, some n => m.equals n
  | _, _ => false

mutual

def equals (v w : Value) : Bool :=
  match v with
  | absent => w.isAbsent
  | text s => match w with
    | text t => s == t
    | _ => false
  | bytes xs => match w with
    | bytes ys => xs == ys
    | _ => false
  | sequence xs => match w with
    | sequence ys => equalItems xs ys
    | _ => false
  | object xs => match w with
    | object ys => xs.length == ys.length && equalEntries xs ys
    | _ => false
  | bool b => sameNumber (some (.ofBool b)) w.numeral?
  | int i => sameNumber (some (.int i)) w.numeral?
  | float x => sameNumber (some (.float x)) w.numeral?

def equalItems : List Value → List Value → Bool
  | [], [] => true
  | x :: xs, y :: ys => equals x y && equalItems xs ys
  | _, _ => false

/-- Does the object hold an equal value for each of the entries? -/
def equalEntries : List (Text × Value) → Table Text Value → Bool
  | [], _ => true
  | (key, x) :: xs, ys =>
    (match ys.find? key with
    | some y => equals x y
    | none => false) && equalEntries xs ys

end

end Value

def HostValue.numeral? : HostValue → Option Numeral
  | .bool b => some (.ofBool b)
  | .int i => some (.int i)
  | .float x => some (.float x)
  | .made v => v.numeral?
  | _ => none

namespace Value

mutual

/-- Does a value equal a host value that has not been converted? -/
def equalsHost (v : Value) (w : HostValue) : Bool :=
  match w with
  | .made w => v.equals w
  | _ => match v with
    | absent => w.isAbsent
    | text s => match w with
      | .text t => s == t
      | _ => false
    | bytes xs => match w with
      | .bytes ys | .buffer ys | .view ys => xs == ys
      | _ => false
    | sequence xs => match w with
      | .list ys | .tuple ys => itemsEqualHost xs ys
      | _ => false
    | object xs => match w with
      | .mapping ys => xs.length == ys.length && entriesEqualHost xs ys
      | _ => false
    | bool b => sameNumber (some (.ofBool b)) w.numeral?
    | int i => sameNumber (some (.int i)) w.numeral?
    | float x => sameNumber (some (.float x)) w.numeral?

def itemsEqualHost : List Value → List HostValue → Bool
  | [], [] => true
  | x :: xs, y :: ys => equalsHost x y && itemsEqualHost xs ys
  | _, _ => false

def entriesEqualHost : List (Text × Value) → Table HostKey HostValue → Bool
  | [], _ => true
  | (key, x) :: xs, ys =>
    (match ys.find? (.text key) with
    | some y => equalsHost x y
    | none => false) && entriesEqualHost xs ys

end

end Value

end Stencil
