/-
# `Stencil.Value.Basic` — the values that a template reads

A value is absent, a scalar, a sequence or an object.  Absence is a value so that
a sequence can hold it as an element: it prints nothing, and everything below it
is absent too.  The keys of an object are texts; a path names only those that are whole.
-/
import Stencil.Bytes
import Stencil.Number.Binary64
import Stencil.Number.Integer
import Stencil.Table
import Stencil.Text.Basic

namespace Stencil

inductive Value where
  | absent
  | bool (b : Bool)
  | int (i : Int)
  | float (x : Binary64)
  | text (t : Text)
  | bytes (data : Bytes)
  | sequence (items : List Value)
  | object (entries : List (Text × Value))
deriving Repr

/-- Why a path is not followed: it has no segments, or a segment of too many digits. -/
inductive PathFault where
  | noSegments
  | tooManyDigits (e : TooManyDigits)
deriving DecidableEq, Repr

def PathFault.message : PathFault → String
  | noSegments => "list index out of range"
  | tooManyDigits e => e.message

/-- Why there is no element at an index: the sequence is too short, or the index is no
signed 64-bit number. -/
inductive IndexFault where
  | noElement
  | beyondWord
deriving DecidableEq, Repr

def IndexFault.message : IndexFault → String
  | noElement => "tuple index out of range"
  | beyondWord => "cannot fit 'int' into an index-sized integer"

namespace Value

instance : Inhabited Value := ⟨absent⟩

def isAbsent : Value → Bool
  | absent => true
  | _ => false

/-- Is this the boolean `true`?  Nothing else counts as a condition that holds. -/
def isTrue : Value → Bool
  | bool b => b
  | _ => false

/-- What a loop over a value runs through: the elements of a sequence, the values
of an object, nothing where there is no value, and else the value itself once. -/
def elements : Value → List Value
  | absent => []
  | sequence items => items
  | object entries => entries.map Prod.snd
  | v => [v]

def size? : Value → Option Nat
  | sequence items => some items.length
  | object entries => some entries.length
  | _ => none

/-- What a path segment selects in a value: the entry of an object under that key,
or the element of a sequence at that decimal index.  Anything else selects
nothing.  An index with too many digits is refused. -/
def member (v : Value) (segment : String) : Except TooManyDigits Value :=
  match v with
  | object entries => .ok ((Table.find? entries (.whole segment)).getD absent)
  | sequence items =>
    -- Digits of other scripts are no index.
    match Integer.asciiDigits? segment with
    | none => .ok absent
    | some digits => (Integer.naturalOfDigits digits).map fun n => items[n]?.getD absent
  | _ => .ok absent

/-- The indexes from minus this one up to this one, itself left out, are looked at. -/
def indexBound : Int := 0x8000000000000000

/-- The element of a sequence at an index that counts from the end when it is
negative. -/
def itemAt (items : List Value) (index : Int) : Except IndexFault Value :=
  let place := if 0 ≤ index then index else items.length + index
  if index < -indexBound || indexBound ≤ index then .error .beyondWord
  else if place < 0 then .error .noElement
  else match items[place.toNat]? with
    | some v => .ok v
    | none => .error .noElement

/-- Follows a path of segments; below no value there is none. -/
def follow (v : Value) : List String → Except TooManyDigits Value
  | [] => .ok v
  | segment :: rest =>
    if v.isAbsent then .ok absent
    else match v.member segment with
      | .error e => .error e
      | .ok w => w.follow rest

end Value

end Stencil
