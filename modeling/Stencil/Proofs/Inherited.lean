/-
# `Stencil.Proofs.Inherited` — what values hand on to the values in them

A template reads the values that a context binds, and whatever stands in them: what a path
leads to, and what a loop runs through.  A property that a sequence hands on to its items and
an object to its values (`Value.Inherited`) holds of all of these, if it holds of the values
that are bound (`Context.Every`).

One such property is that no text has a lone surrogate in it (`Value.Whole`).  Then to print
the value fails by a number of too many digits only.
-/
import Stencil.Proofs.Reading

namespace Stencil

section Except

variable {ε δ α β : Type} {x : Except ε α}

theorem map_eq_ok {f : α → β} {b : β} : x.map f = .ok b ↔ ∃ a, x = .ok a ∧ f a = b := by
  cases x <;> simp [Except.map]

theorem mapError_eq_ok {f : ε → δ} {a : α} : x.mapError f = .ok a ↔ x = .ok a := by
  cases x <;> simp [Except.mapError]

theorem mapError_eq_error {f : ε → δ} {d : δ} :
    x.mapError f = .error d ↔ ∃ e, x = .error e ∧ f e = d := by
  cases x <;> simp [Except.mapError]

end Except

/-- What holds of a container holds of all in it, and of what stands for no value. -/
structure Value.Inherited (P : Value → Prop) : Prop where
  absent : P .absent
  bool (b : Bool) : P (.bool b)
  items {items : List Value} (h : P (.sequence items)) : ∀ v ∈ items, P v
  entries {entries : List (Text × Value)} (h : P (.object entries)) :
    ∀ v ∈ entries.map Prod.snd, P v

/-- Every value that the context binds has the property. -/
def Context.Every (P : Value → Prop) : Context → Prop
  | ofTable bindings => ∀ v ∈ bindings.map Prod.snd, P v
  | overlay _ value outer => P value ∧ outer.Every P

namespace Value.Inherited

variable {P : Value → Prop} (hP : Inherited P)

include hP

theorem find? {entries : Table Text Value} (h : ∀ v ∈ entries.map Prod.snd, P v) (name : Text) :
    P ((entries.find? name).getD .absent) := by
  cases hfind : entries.find? name with
  | none => exact hP.absent
  | some v => exact h v (Table.mem_of_find? hfind)

theorem elements {v : Value} (h : P v) : ∀ x ∈ v.elements, P x := by
  cases v with
  | absent => exact nofun
  | sequence items => exact hP.items h
  | object entries => exact hP.entries h
  | _ => exact List.forall_mem_singleton.2 h

theorem member {v w : Value} {segment : String} (h : P v) (hw : v.member segment = .ok w) :
    P w := by
  cases v with
  | object entries =>
      cases hw
      exact hP.find? (hP.entries h) segment
  | sequence items =>
      simp only [Value.member] at hw
      split at hw
      · cases hw
        exact hP.absent
      · obtain ⟨n, -, rfl⟩ := map_eq_ok.1 hw
        cases hitem : items[n]? with
        | none => exact hP.absent
        | some item => exact hP.items h item (List.mem_of_getElem? hitem)
  | _ =>
      cases hw
      exact hP.absent

theorem follow {v w : Value} {segments : List String} (h : P v)
    (hw : v.follow segments = .ok w) : P w := by
  induction segments generalizing v with
  | nil =>
      cases hw
      exact h
  | cons segment rest ih =>
      rw [Value.follow] at hw
      split at hw
      · cases hw
        exact hP.absent
      · split at hw
        · cases hw
        next hmember => exact ih (hP.member h hmember) hw

theorem lookup {context : Context} (h : context.Every P) (name : Text) :
    P (context.lookup name) := by
  induction context with
  | ofTable bindings => exact hP.find? h name
  | overlay own value outer ih =>
      unfold Context.lookup
      split
      · exact h.1
      · exact ih h.2

/-- So it holds of the values of expressions. -/
theorem value {context : Context} (h : context.Every P) {e : Expr} {v : Value}
    (hv : e.value context = .ok v) : P v := by
  cases e with
  | always =>
      cases hv
      exact hP.bool true
  | path segments =>
      cases segments with
      | nil => cases hv
      | cons name rest => exact hP.follow (hP.lookup h name) (mapError_eq_ok.1 (mapError_eq_ok.1 hv))

end Value.Inherited

/-! ## Whole texts -/

/-- No text in the value has a lone surrogate in it. -/
inductive Value.Whole : Value → Prop where
  | absent : Whole .absent
  | bool (b : Bool) : Whole (.bool b)
  | int (i : Int) : Whole (.int i)
  | float (x : Binary64) : Whole (.float x)
  | text (s : String) : Whole (.text s)
  | bytes (data : Bytes) : Whole (.bytes data)
  | sequence {items : List Value} (h : ∀ v ∈ items, Whole v) : Whole (.sequence items)
  | object {entries : List (Text × Value)} (h : ∀ v ∈ entries.map Prod.snd, Whole v) :
      Whole (.object entries)

/-- No text in the values of the context has a lone surrogate in it. -/
def Context.Whole (context : Context) : Prop := context.Every Value.Whole

namespace Value

theorem inherited_whole : Inherited Whole where
  absent := .absent
  bool := .bool
  items := by
    rintro _ ⟨⟩
    assumption
  entries := by
    rintro _ ⟨⟩
    assumption

/-- A whole text has bytes, so only the digits of a number may be too many. -/
theorem Whole.output_ne_loneSurrogates {v : Value} (h : v.Whole) (lone : LoneSurrogates) :
    v.output ≠ .error (.loneSurrogates lone) := by
  intro houtput
  cases h with
  | int i =>
      obtain ⟨_, -, hfault⟩ := mapError_eq_error.1 houtput
      cases hfault
  | _ => cases houtput

end Value

end Stencil
