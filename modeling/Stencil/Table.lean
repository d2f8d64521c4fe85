/-
# `Stencil.Table` — tables that remember the order of insertion

A table is a list of keys with their values.  Storing under a key that is there
already replaces the value in its place; storing under a new key adds an entry at
the end.  Exports, tags, objects and files are all kept in such tables.
-/

namespace Stencil

/-- Keys with their values, in the order in which the keys were first stored. -/
abbrev Table (κ α : Type) := List (κ × α)

namespace Table

variable {κ α β : Type} [DecidableEq κ]

def find? (t : Table κ α) (key : κ) : Option α :=
  match t with
  | [] => none
  | (k, v) :: rest => if k = key then some v else find? rest key

def has (t : Table κ α) (key : κ) : Bool := (find? t key).isSome

def keys (t : Table κ α) : List κ := t.map Prod.fst

def insert (t : Table κ α) (key : κ) (value : α) : Table κ α :=
  match t with
  | [] => [(key, value)]
  | (k, v) :: rest => if k = key then (k, value) :: rest else (k, v) :: insert rest key value

def erase (t : Table κ α) (key : κ) : Table κ α :=
  match t with
  | [] => []
  | (k, v) :: rest => if k = key then rest else (k, v) :: erase rest key

/-- The table that results from storing pairs one after the other. -/
def ofPairs (pairs : List (κ × α)) : Table κ α :=
  pairs.foldl (fun t p => insert t p.1 p.2) []

theorem mem_of_find? {t : Table κ α} {key : κ} {value : α} (h : t.find? key = some value) :
    value ∈ t.map Prod.snd := by
  induction t with
  | nil => cases h
  | cons p rest ih =>
    obtain ⟨k, v⟩ := p
    rw [find?] at h
    split at h
    · cases h
      exact List.mem_cons_self ..
    · exact List.mem_cons_of_mem _ (ih h)

@[simp]
theorem find?_insert_self (t : Table κ α) (key : κ) (value : α) :
    find? (insert t key value) key = some value := by
  induction t with
  | nil => simp [insert, find?]
  | cons p rest ih =>
    obtain ⟨k, v⟩ := p
    by_cases h : k = key <;> simp [insert, find?, h, ih]

theorem find?_insert_ne (t : Table κ α) {key other : κ} (value : α) (h : other ≠ key) :
    find? (insert t key value) other = find? t other := by
  induction t with
  | nil => simp [insert, find?, Ne.symm h]
  | cons p rest ih =>
    obtain ⟨k, v⟩ := p
    by_cases hk : k = key
    · simp [insert, find?, hk, Ne.symm h]
    · by_cases ho : k = other <;> simp_all [insert, find?]

/-- Replacing keeps the order of the keys, and a new key goes last. -/
theorem keys_insert (t : Table κ α) (key : κ) (value : α) :
    keys (insert t key value) = if has t key then keys t else keys t ++ [key] := by
  induction t with
  | nil => simp [insert, keys, has, find?]
  | cons p rest ih =>
    obtain ⟨k, v⟩ := p
    by_cases h : k = key
    · simp [insert, keys, has, find?, h]
    · simp only [insert, h, if_false, keys, List.map_cons, has, find?] at ih ⊢
      split <;> simp_all

end Table

end Stencil
