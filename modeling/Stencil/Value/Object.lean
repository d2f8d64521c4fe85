/-
# `Stencil.Value.Object` — objects that change

An object keeps its entries in the order in which their keys were stored.  A host changes it by
calls: one sets a key to a host value, which is converted, and one removes a key.  To set a key
to no value removes it as well.

A call that fails leaves the entries as they were, for it looks at the key and converts the
value before it touches them.  The value is converted as one that stands in a container.
-/
import Stencil.Value.Host

namespace Stencil

/-- A change to the entries of an object.  They survive an error, as they were when the error
arose. -/
abbrev ObjectM (α : Type) := EStateM ConversionError (Table Text Value) α

inductive ObjectCall where
  | set (key : HostKey) (value : HostValue)
  | remove (key : HostKey)
deriving Repr

namespace ObjectM

def checked {α : Type} : Except ConversionError α → ObjectM α
  | .ok a => pure a
  | .error e => throw e

/-- Sets a key to a host value, with so much room to convert it; no value takes the key
out. -/
def setIn (room : Nat) (key : HostKey) (value : HostValue) : ObjectM Unit := do
  let name ← checked key.toText
  if value.isAbsent then modify (·.erase name)
  else
    let converted ← checked (value.convertIn room)
    modify (·.insert name converted)

def set (key : HostKey) (value : HostValue) : ObjectM Unit := setIn HostValue.entryRoom key value

def remove (key : HostKey) : ObjectM Unit := do
  let name ← checked key.toText
  modify (·.erase name)

def setAll (entries : List (HostKey × HostValue)) : ObjectM Unit :=
  entries.forM fun entry => set entry.1 entry.2

/-- The entries after a change, if it does not fail. -/
def result (change : ObjectM Unit) (entries : Table Text Value) :
    Except ConversionError (Table Text Value) :=
  match change entries with
  | .ok _ entries => .ok entries
  | .error e _ => .error e

end ObjectM

namespace ObjectCall

def run : ObjectCall → ObjectM Unit
  | set key value => ObjectM.set key value
  | remove key => ObjectM.remove key

/-- The entries after a call, be it that it fails. -/
def after (entries : Table Text Value) (call : ObjectCall) : Table Text Value :=
  match call.run entries with
  | .ok _ entries | .error _ entries => entries

def afterAll (calls : List ObjectCall) : Table Text Value := calls.foldl after []

end ObjectCall

end Stencil
