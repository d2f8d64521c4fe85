/-
# `Stencil.Value.Host` — values of the host program, and their conversion

A host hands over values of its own.  Those that a template can read are
converted once, up front: mappings become objects, lists and tuples become
sequences, and every kind of byte string becomes plain bytes.  A host object may
know how to convert itself; what it gives is converted again.

Keys of mappings have to be text, or bytes that spell text.  In a mapping an entry
without a value takes its key out of the object; in a sequence an element without
a value stays, as an absent one.

To convert what stands within a value takes calls within calls, and the host has
room for so many only.  So a value that is nested too deep has no conversion.
-/
import Stencil.Value.Basic

namespace Stencil

/-- A key of a host mapping.  `buffer` is a mutable byte string, and `other` a
host value of the named type that cannot be a key. -/
inductive HostKey where
  | text (t : Text)
  | bytes (data : Bytes)
  | buffer (data : Bytes)
  | other (typeName : String)
deriving DecidableEq, Repr

/-- A value of the host.  `buffer` is a mutable byte string and `view` a window
into one; `convertible` is a host object that converts itself to the value it
carries; `made` is a value that has been converted before.  `foreign` is a host
value of the named type that has no conversion, and `collection` one that can be run
through all the same. -/
inductive HostValue where
  | absent
  | bool (b : Bool)
  | int (i : Int)
  | float (x : Binary64)
  | text (t : Text)
  | bytes (data : Bytes)
  | buffer (data : Bytes)
  | view (data : Bytes)
  | list (items : List HostValue)
  | tuple (items : List HostValue)
  | mapping (entries : List (HostKey × HostValue))
  | convertible (result : HostValue)
  | made (value : Value)
  | foreign (typeName : String)
  | collection (typeName : String) (items : List HostValue)
deriving Repr

inductive ConversionError where
  | undecodableKey (key : HostKey)
  | keyNotText (typeName : String)
  | unsupported (typeName : String)
  | nestingTooDeep
  | noEntries (typeName : String)
  | noPair (typeName : String)
  | shortPair (count : Nat)
  | longPair
  | nameNotText
  | nameTaken (call name : String)
deriving DecidableEq, Repr

namespace HostKey

def shown : HostKey → String
  | text t => t.shown
  | bytes data => Quoted.ofBytes data
  | buffer data => "bytearray(" ++ Quoted.ofBytes data ++ ")"
  | other typeName => typeName

def decoded (key : HostKey) (data : Bytes) : Except ConversionError Text :=
  match Utf8.decode? data with
  | some s => .ok s
  | none => .error (.undecodableKey key)

def toText : HostKey → Except ConversionError Text
  | text t => .ok t
  | bytes data => decoded (bytes data) data
  | buffer data => decoded (buffer data) data
  | other typeName => .error (.keyNotText typeName)

end HostKey

def ConversionError.message : ConversionError → String
  | undecodableKey key => "Object key " ++ key.shown ++ " is not valid UTF-8"
  | keyNotText typeName => "Object keys must be strings, got " ++ typeName
  | unsupported typeName => "Cannot use " ++ typeName ++ " as a template value"
  | nestingTooDeep => "maximum recursion depth exceeded in comparison"
  | noEntries typeName => "'" ++ typeName ++ "' object is not iterable"
  | noPair typeName => "cannot unpack non-iterable " ++ typeName ++ " object"
  | shortPair count => s!"not enough values to unpack (expected 2, got {count})"
  | longPair => "too many values to unpack (expected 2)"
  | nameNotText => "keywords must be strings"
  | nameTaken call name => call ++ "() got multiple values for argument '" ++ name ++ "'"

def Value.typeName : Value → String
  | absent => "NoneType"
  | bool _ => "bool"
  | int _ => "int"
  | float _ => "float"
  | text _ => "str"
  | bytes _ => "bytes"
  | sequence _ => "TemplateSequence"
  | object _ => "TemplateObject"

namespace HostValue

instance : Inhabited HostValue := ⟨absent⟩

def isAbsent : HostValue → Bool
  | absent => true
  | made v => v.isAbsent
  | _ => false

def typeName : HostValue → String
  | absent => "NoneType"
  | bool _ => "bool"
  | int _ => "int"
  | float _ => "float"
  | text _ => "str"
  | bytes _ => "bytes"
  | buffer _ => "bytearray"
  | view _ => "memoryview"
  | list _ => "list"
  | tuple _ => "tuple"
  | mapping _ => "dict"
  | convertible _ => "object"
  | made v => v.typeName
  | foreign name => name
  | collection name _ => name

/-- The key that a host value is when it stands in front of an entry. -/
def toKey : HostValue → HostKey
  | text t => .text t
  | bytes data => .bytes data
  | buffer data => .buffer data
  | made (.text t) => .text t
  | made (.bytes data) => .bytes data
  | v => .other v.typeName

/-- A host mapping with the given entries: a repeated key keeps its place and
takes the later value. -/
def ofEntries (entries : List (HostKey × HostValue)) : HostValue :=
  .mapping (Table.ofPairs entries)

/-! ## Conversion -/

/-- The calls within calls that the host has room for when a conversion starts. -/
def callRoom : Nat := 960

/-- The calls within calls from a container to what it holds.  From a host object to what
it converts itself to it is one. -/
def containerCalls : Nat := 4

def enter (calls room : Nat) : Except ConversionError Nat :=
  if room < calls then .error .nestingTooDeep else .ok (room - calls)

mutual

/-- Converts a host value, with room for as many calls within calls as given. -/
def convertIn (room : Nat) : HostValue → Except ConversionError Value
  | .absent => .ok .absent
  | .bool b => .ok (.bool b)
  | .int i => .ok (.int i)
  | .float x => .ok (.float x)
  | .text t => .ok (.text t)
  | .bytes data => .ok (.bytes data)
  | .buffer data => .ok (.bytes data)
  | .view data => .ok (.bytes data)
  | .list items => do
    let room ← enter containerCalls room
    (convertItems room items).map .sequence
  | .tuple items => do
    let room ← enter containerCalls room
    (convertItems room items).map .sequence
  | .mapping entries => do
    let room ← enter containerCalls room
    (storeEntriesIn room [] entries).map .object
  | .convertible result => do
    -- What it gives is converted by the call that asked for it.
    let room ← enter 1 room
    convertIn room result
  | .made value => .ok value
  | .foreign typeName | .collection typeName _ => .error (.unsupported typeName)

def convertItems (room : Nat) : List HostValue → Except ConversionError (List Value)
  | [] => .ok []
  | item :: rest => do
    let value ← convertIn room item
    let values ← convertItems room rest
    return value :: values

/-- Stores the entries of a mapping in an object, one after the other.  The key is
looked at first; an entry without a value takes its key out. -/
def storeEntriesIn (room : Nat) (object : Table Text Value) :
    List (HostKey × HostValue) → Except ConversionError (Table Text Value)
  | [] => .ok object
  | (key, value) :: rest => do
    let name ← key.toText
    if value.isAbsent then storeEntriesIn room (object.erase name) rest
    else
      let converted ← convertIn room value
      storeEntriesIn room (object.insert name converted) rest

end

def convert (v : HostValue) : Except ConversionError Value := v.convertIn callRoom

/-- The room that is left for the values that an object holds. -/
def entryRoom : Nat := callRoom - containerCalls

/-- Stores the entries of a mapping in an object that stands in no other value. -/
def storeEntries (object : Table Text Value) (entries : List (HostKey × HostValue)) :
    Except ConversionError (Table Text Value) :=
  storeEntriesIn entryRoom object entries

/-! ## What brings entries along -/

def ofKey : HostKey → HostValue
  | .text t => .text t
  | .bytes data => .bytes data
  | .buffer data => .buffer data
  | .other typeName => .foreign typeName

/-- A value that has been converted before, seen as a host value again, one level
deep. -/
def opened : HostValue → HostValue
  | .made .absent => .absent
  | .made (.bool b) => .bool b
  | .made (.int i) => .int i
  | .made (.float x) => .float x
  | .made (.text t) => .text t
  | .made (.bytes data) => .bytes data
  | .made (.sequence items) => .list (items.map .made)
  | .made (.object entries) => .mapping (entries.map fun e => (.text e.1, .made e.2))
  | v => v

/-- What a host value that can be run through runs through: elements, keys, characters,
or the numbers that bytes are. -/
def iterated? (v : HostValue) : Option (List HostValue) :=
  match v.opened with
  | .list items | .tuple items | .collection _ items => some items
  | .mapping entries => some (entries.map fun e => ofKey e.1)
  | .text t => some (t.characters.map .text)
  | .bytes data | .buffer data | .view data => some (data.map fun b => .int b.toNat)
  | _ => none

/-- Does a host value stand for nothing: no value, `false`, zero, or something empty? -/
def isVoid (v : HostValue) : Bool :=
  match v.opened with
  | .absent => true
  | .bool b => !b
  | .int i => i == 0
  | .float x => x.equalsInt 0
  | _ => v.iterated?.any List.isEmpty

def entry (v : HostValue) : Except ConversionError (HostKey × HostValue) :=
  match v.iterated? with
  | none => .error (.noPair v.typeName)
  | some [key, value] => .ok (key.toKey, value)
  | some items => .error (if items.length < 2 then .shortPair items.length else .longPair)

def storePairs (object : Table Text Value) :
    List HostValue → Except ConversionError (Table Text Value)
  | [] => .ok object
  | item :: rest => do
    let entry ← item.entry
    storePairs (← storeEntries object [entry]) rest

/-- The entries that a host value brings along as bindings: those of a mapping, or those
that what it runs through are as pairs, and none where it stands for nothing. -/
def bindings (v : HostValue) : Except ConversionError (Table Text Value) :=
  match v.opened with
  | .mapping entries => storeEntries [] entries
  | _ =>
    if v.isVoid then .ok []
    else match v.iterated? with
    | some items => storePairs [] items
    | none => .error (.noEntries v.typeName)

end HostValue

/-- A call that takes entries by their names: its title, and the parameters that have
values already, so that no entry can go by their names. -/
structure NamedCall where
  title : String
  parameters : List String
deriving DecidableEq, Repr

namespace NamedCall

def nameOf : HostKey → Except ConversionError Text
  | .text name => .ok name
  | _ => .error .nameNotText

/-- Lets entries through that all go by texts, and by none that names a parameter. -/
def check (call : NamedCall) (entries : List (HostKey × HostValue)) :
    Except ConversionError Unit := do
  let names ← entries.mapM fun e => nameOf e.1
  match names.findSome? fun name => call.parameters.find? (name = Text.whole ·) with
  | some name => .error (.nameTaken call.title name)
  | none => .ok ()

def object : NamedCall := ⟨"TemplateObject.__init__", ["self", "items"]⟩

def context : NamedCall := ⟨"Context.build", ["cls"]⟩

end NamedCall

/-- The entries of an object made from pairs of keys and values, with entries handed over
by their names behind them. -/
def HostValue.objectEntries (pairs named : List (HostKey × HostValue)) :
    Except ConversionError (Table Text Value) := do
  NamedCall.object.check named
  storeEntries [] (pairs ++ named)

end Stencil
