/-
# `Stencil.Value.Context` — the bindings that a template is rendered against

A context binds names to values.  A loop body sees the context around it with one
more binding laid over it; the context itself does not change.  A name that is
bound to no value is bound all the same: it hides what an outer binding of the
name holds.

The names in code are strings.  Only a host can ask for a name that is a broken text.
-/
import Stencil.Value.Host
import Stencil.Value.Text

namespace Stencil

/-- Bindings of names to values: those handed over at the start, and single ones
laid over them. -/
inductive Context where
  | ofTable (bindings : Table Text Value)
  | overlay (name : String) (value : Value) (outer : Context)
deriving Repr

namespace Context

def empty : Context := ofTable []

def ofHost (v : HostValue) : Except ConversionError Context :=
  v.bindings.map ofTable

def ofNamed (entries : List (HostKey × HostValue)) : Except ConversionError Context := do
  NamedCall.context.check entries
  return ofTable (← HostValue.storeEntries [] entries)

def lookup (name : Text) : Context → Value
  | ofTable bindings => (bindings.find? name).getD .absent
  | overlay own value outer => if own = name then value else outer.lookup name

@[simp]
theorem lookup_overlay_self (own : String) (value : Value) (outer : Context) :
    (overlay own value outer).lookup own = value :=
  if_pos rfl

theorem lookup_overlay_of_ne {own name : String} (h : own ≠ name) (value : Value)
    (outer : Context) : (overlay own value outer).lookup name = outer.lookup name :=
  if_neg fun heq => h (Text.whole.inj heq)

/-- The value at a path: its first segment is a name, the others select in the
value found so far. -/
def resolve (c : Context) : List String → Except PathFault Value
  | [] => .error .noSegments
  | name :: segments => ((c.lookup name).follow segments).mapError .tooManyDigits

def has (c : Context) (name : Text) : Bool := !(c.lookup name).isAbsent

/-- The bound names, those of the outermost bindings first, without repeats. -/
def names : Context → List Text
  | ofTable bindings => bindings.keys
  | overlay own _ outer =>
    let known := outer.names
    if (own : Text) ∈ known then known else known ++ [(own : Text)]

def shown (c : Context) : Except TooManyDigits String :=
  (Value.shownEntries (c.names.map fun name => (name, c.lookup name))).map fun entries =>
    "Context(" ++ Value.bracedEntries entries ++ ")"

end Context

end Stencil
