/-
# `Stencil.Proofs.Conversion` — host values part by part

What holds of a host value is shown of its parts first: the items of a list or a tuple, the values
of a mapping, and what a host object converts itself to (`HostValue.induction_parts`).  Items are
converted one by one, each by itself (`HostValue.convertItems_eq_ok`).

The keys of a mapping are told apart by the text that they denote (`HostKey.Denotes`): one that is
given as the bytes of a text is the same as that text.

The entries of an object are a table in which each key stands once.  Then what is in the table
after a change can be said entry by entry (`Table.mem_insert`, `Table.mem_erase`).
-/
import Mathlib.Data.List.Forall2
import Mathlib.Data.List.Nodup
import Stencil.Proofs.Utf8
import Stencil.Value.Host

namespace Stencil

/-! ## Tables whose keys stand once -/

namespace Table

variable {κ α : Type} [DecidableEq κ] {t : Table κ α} {key : κ}

theorem has_iff : t.has key = true ↔ key ∈ t.keys := by
  induction t with
  | nil => simp [has, find?, keys]
  | cons entry t ih =>
      by_cases h : entry.1 = key
      · simp [has, find?, keys, h]
      · simpa [has, find?, keys, h, Ne.symm h] using ih

theorem keys_erase (t : Table κ α) (key : κ) : (t.erase key).keys = t.keys.erase key := by
  induction t with
  | nil => rfl
  | cons entry t ih =>
      by_cases h : entry.1 = key
      · simp [erase, keys, h]
      · simpa [erase, keys, h] using ih

theorem mem_insert_self (t : Table κ α) (key : κ) (value : α) : (key, value) ∈ t.insert key value := by
  induction t with
  | nil => exact List.mem_cons_self
  | cons first t ih =>
      by_cases h : first.1 = key
      · simp [insert, h]
      · simpa [insert, h] using .inr ih

/-- An entry of a table in which a value is stored is that one, or was there before. -/
theorem mem_of_mem_insert {value : α} {entry : κ × α} (h : entry ∈ t.insert key value) :
    entry = (key, value) ∨ entry ∈ t := by
  induction t with
  | nil => exact .inl (List.mem_singleton.1 h)
  | cons first t ih =>
      by_cases hkey : first.1 = key <;> grind [insert]

theorem mem_of_mem_erase {entry : κ × α} (h : entry ∈ t.erase key) : entry ∈ t := by
  induction t with
  | nil => cases h
  | cons first t ih =>
      by_cases hkey : first.1 = key <;> grind [erase]

theorem nodup_insert (h : t.keys.Nodup) (key : κ) (value : α) :
    (t.insert key value).keys.Nodup := by
  rw [keys_insert]
  split
  · exact h
  next hkey =>
    rw [has_iff] at hkey
    exact List.nodup_append.2 ⟨h, List.nodup_singleton key,
      by simpa using fun k hk => ne_of_mem_of_not_mem hk hkey⟩

omit [DecidableEq κ] in
/-- The key of the first entry stands nowhere behind it. -/
theorem ne_of_nodup_cons {first : κ × α} (h : (keys (first :: t)).Nodup) :
    ∀ entry ∈ t, entry.1 ≠ first.1 := by
  intro entry hentry hkey
  exact (List.nodup_cons.1 h).1 (hkey ▸ List.mem_map_of_mem hentry)

theorem mem_insert (h : t.keys.Nodup) {value : α} {entry : κ × α} :
    entry ∈ t.insert key value ↔ entry = (key, value) ∨ entry.1 ≠ key ∧ entry ∈ t := by
  induction t with
  | nil => simp [insert]
  | cons first t ih =>
      have hother := ne_of_nodup_cons h
      have ih := ih (List.nodup_cons.1 h).2
      by_cases hkey : first.1 = key <;> grind [insert]

theorem mem_erase (h : t.keys.Nodup) {entry : κ × α} :
    entry ∈ t.erase key ↔ entry.1 ≠ key ∧ entry ∈ t := by
  induction t with
  | nil => simp [erase]
  | cons first t ih =>
      have hother := ne_of_nodup_cons h
      have ih := ih (List.nodup_cons.1 h).2
      by_cases hkey : first.1 = key <;> grind [erase]

theorem insert_of_notMem (h : key ∉ t.keys) (value : α) :
    t.insert key value = t ++ [(key, value)] := by
  induction t with
  | nil => rfl
  | cons first t ih =>
      have hfirst : first.1 ≠ key := fun heq => h (heq ▸ List.mem_cons_self)
      have ht : key ∉ keys t := fun hmem => h (List.mem_cons_of_mem _ hmem)
      simp only [insert, hfirst, if_false, ih ht, List.cons_append]

theorem find?_of_mem (h : t.keys.Nodup) {value : α} (hmem : (key, value) ∈ t) :
    t.find? key = some value := by
  induction t with
  | nil => cases hmem
  | cons first t ih =>
      rcases List.mem_cons.1 hmem with rfl | hmem
      · rw [find?, if_pos rfl]
      · rw [find?, if_neg (ne_of_nodup_cons h _ hmem).symm]
        exact ih (List.nodup_cons.1 h).2 hmem

end Table

/-! ## Keys -/

/-- The text that a key denotes, be it given as text or as the bytes of it. -/
inductive HostKey.Denotes : HostKey → Text → Prop where
  | text {name : Text} : Denotes (.text name) name
  | bytes {name : String} : Denotes (.bytes (Utf8.encode name)) name
  | buffer {name : String} : Denotes (.buffer (Utf8.encode name)) name

theorem HostKey.toText_eq_ok {key : HostKey} {name : Text} :
    key.toText = .ok name ↔ key.Denotes name := by
  have hdecoded : ∀ {k : HostKey} {data : Bytes}, decoded k data = .ok name →
      ∃ s, data = Utf8.encode s ∧ name = .whole s := by
    intro k data h
    unfold decoded at h
    split at h <;> cases h
    exact ⟨_, (Utf8.decode?_eq_some_iff.1 (by assumption)).symm, rfl⟩
  constructor
  · intro h
    cases key with
    | text t => cases h; exact .text
    | bytes data => obtain ⟨s, rfl, rfl⟩ := hdecoded h; exact .bytes
    | buffer data => obtain ⟨s, rfl, rfl⟩ := hdecoded h; exact .buffer
    | other typeName => cases h
  · rintro (_ | _ | _)
    · rfl
    all_goals simp only [toText, decoded, Utf8.decode?_encode]

theorem HostKey.Denotes.unique {key : HostKey} {name name' : Text} (h : key.Denotes name)
    (h' : key.Denotes name') : name = name' := by
  have hname := HostKey.toText_eq_ok.2 h
  rw [HostKey.toText_eq_ok.2 h'] at hname
  cases hname
  rfl

/-! ## Parts -/

/-- What is computed in two steps. -/
theorem except_bind_eq_ok {ε α β : Type} {x : Except ε α} {f : α → Except ε β} {b : β} :
    (x >>= f) = .ok b ↔ ∃ a, x = .ok a ∧ f a = .ok b := by
  cases x with
  | error e =>
      constructor
      · rintro ⟨⟩
      · rintro ⟨_, ⟨⟩, _⟩
  | ok a =>
      constructor
      · exact fun h => ⟨a, rfl, h⟩
      · rintro ⟨_, ⟨⟩, h⟩
        exact h

namespace HostValue

/-- The values that a host value is made of. -/
def parts : HostValue → List HostValue
  | .list items | .tuple items => items
  | .mapping entries => entries.map Prod.snd
  | .convertible w => [w]
  | _ => []

/-- Induction on host values: from the parts to the whole. -/
@[elab_as_elim]
theorem induction_parts {motive : HostValue → Prop}
    (whole : ∀ w, (∀ part ∈ w.parts, motive part) → motive w) (w : HostValue) : motive w := by
  refine whole w fun part hpart => ?_
  have : sizeOf part < sizeOf w := by
    cases w with
    | list items | tuple items =>
        have : sizeOf part < sizeOf items := List.sizeOf_lt_of_mem hpart
        simp only [list.sizeOf_spec, tuple.sizeOf_spec]
        omega
    | mapping entries =>
        obtain ⟨⟨key, value⟩, he, rfl⟩ := List.mem_map.1 hpart
        have := List.sizeOf_lt_of_mem he
        simp only [mapping.sizeOf_spec, Prod.mk.sizeOf_spec] at this ⊢
        omega
    | convertible w =>
        cases List.mem_singleton.1 hpart
        simp only [convertible.sizeOf_spec]
        omega
    | _ => cases hpart
  exact induction_parts whole part
termination_by sizeOf w

mutual

/-- How deep the containers in a host value are nested. -/
def depth : HostValue → Nat
  | .list items | .tuple items => depthOfItems items + 1
  | .mapping entries => depthOfEntries entries + 1
  | .convertible result => depth result
  | _ => 0

def depthOfItems : List HostValue → Nat
  | [] => 0
  | item :: rest => max (depth item) (depthOfItems rest)

def depthOfEntries : List (HostKey × HostValue) → Nat
  | [] => 0
  | (_, value) :: rest => max (depth value) (depthOfEntries rest)

end

theorem depth_le_of_mem_items {items : List HostValue} :
    ∀ w ∈ items, w.depth ≤ depthOfItems items := by
  induction items with
  | nil => exact nofun
  | cons item items ih =>
      rw [depthOfItems, List.forall_mem_cons]
      exact ⟨Nat.le_max_left .., fun w hw => Nat.le_trans (ih w hw) (Nat.le_max_right ..)⟩

theorem depth_le_of_mem_entries {entries : List (HostKey × HostValue)} :
    ∀ e ∈ entries, e.2.depth ≤ depthOfEntries entries := by
  induction entries with
  | nil => exact nofun
  | cons entry entries ih =>
      obtain ⟨key, value⟩ := entry
      rw [depthOfEntries, List.forall_mem_cons]
      exact ⟨Nat.le_max_left .., fun e he => Nat.le_trans (ih e he) (Nat.le_max_right ..)⟩

/-- As many containers within containers as the host has room for. -/
def maxDepth : Nat := callRoom / containerCalls

theorem calls_le_of_le_maxDepth {depth : Nat} (h : depth ≤ maxDepth) :
    containerCalls * depth ≤ callRoom :=
  Nat.le_trans (Nat.mul_le_mul_left _ h) (Nat.mul_div_le ..)

/-- Where there is room for a container, there is room for what it holds. -/
theorem room_for_parts {inner room : Nat} (h : containerCalls * (inner + 1) ≤ room) :
    containerCalls ≤ room ∧ ∀ part ≤ inner, containerCalls * part ≤ room - containerCalls := by
  rw [Nat.mul_succ] at h
  refine ⟨by omega, fun part hpart => ?_⟩
  exact Nat.le_trans (Nat.mul_le_mul_left _ hpart) (Nat.le_sub_of_add_le h)

/-- No value converts to no value. -/
theorem exists_convertIn_of_isAbsent {value : HostValue} (h : value.isAbsent = true) (room : Nat) :
    ∃ v, value.convertIn room = .ok v := by
  cases value with
  | absent => exact ⟨.absent, rfl⟩
  | made v => exact ⟨v, rfl⟩
  | _ => cases h

/-- What is done within some calls more succeeds if there is room for them. -/
theorem enter_bind_eq_ok {α : Type} {calls room : Nat} {f : Nat → Except ConversionError α} {a : α} :
    (enter calls room >>= f) = .ok a ↔ calls ≤ room ∧ f (room - calls) = .ok a := by
  unfold enter
  split
  next h => exact ⟨nofun, fun ⟨hle, _⟩ => absurd h (Nat.not_lt.2 hle)⟩
  next h => exact ⟨fun heq => ⟨Nat.not_lt.1 h, heq⟩, fun ⟨_, heq⟩ => heq⟩

variable {room : Nat}

/-- Items convert one by one. -/
theorem convertItems_eq_ok {items : List HostValue} : ∀ {values : List Value},
    convertItems room items = .ok values ↔
      List.Forall₂ (fun w v => convertIn room w = .ok v) items values := by
  induction items with
  | nil =>
      intro values
      simp only [convertItems, List.forall₂_nil_left_iff]
      constructor <;> rintro ⟨⟩ <;> rfl
  | cons item items ih =>
      intro values
      simp only [convertItems, except_bind_eq_ok, List.forall₂_cons_left_iff, ih]
      constructor
      · rintro ⟨v, hitem, vs, hitems, ⟨⟩⟩
        exact ⟨v, vs, hitem, hitems, rfl⟩
      · rintro ⟨v, vs, hitem, hitems, rfl⟩
        exact ⟨v, hitem, vs, hitems, rfl⟩

theorem convertIn_list_eq_ok {items : List HostValue} {v : Value} :
    (list items).convertIn room = .ok v ↔ containerCalls ≤ room ∧ ∃ values,
      List.Forall₂ (fun w v => w.convertIn (room - containerCalls) = .ok v) items values ∧
        v = .sequence values := by
  simp only [← convertItems_eq_ok]
  rw [convertIn, enter_bind_eq_ok]
  cases convertItems (room - containerCalls) items <;> simp [Except.map, eq_comm]

theorem convertIn_mapping_eq_ok {entries : List (HostKey × HostValue)} {v : Value} :
    (mapping entries).convertIn room = .ok v ↔ containerCalls ≤ room ∧ ∃ table,
      storeEntriesIn (room - containerCalls) [] entries = .ok table ∧ v = .object table := by
  rw [convertIn, enter_bind_eq_ok]
  cases storeEntriesIn (room - containerCalls) [] entries <;> simp [Except.map, eq_comm]

theorem convertIn_convertible_eq_ok {w : HostValue} {v : Value} :
    (convertible w).convertIn room = .ok v ↔ 1 ≤ room ∧ w.convertIn (room - 1) = .ok v := by
  rw [convertIn, enter_bind_eq_ok]

/-- A tuple becomes the same sequence as a list. -/
theorem convertIn_tuple (items : List HostValue) :
    (tuple items).convertIn room = (list items).convertIn room := by
  rw [convertIn, convertIn]

end HostValue

end Stencil
