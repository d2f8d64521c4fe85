/-
# `Stencil.Proofs.Presence` — where objects hold no value under a key

To set a key to no value takes the key out, so that an object should have a value for each of
its keys.  But whether there is a value is looked at before the conversion, and a host object may
convert itself to no value.  Then the key stays, with no value under it, and a loop over the
object comes to an element that is absent.

    HostValue.Vanishes    a host object that converts itself to no value, at once or in turns
    HostValue.Hides       a mapping within has an entry that vanishes, and none with the same
                          name behind it
    ObjectCall.Hides      the call sets a key to a host value that vanishes or hides one that does
    Value.Gapped          an object within the value has a key without a value

A change to an object within a value is a step (`Value.Called`), and `Value.Course` lists the
values that come about by one after the other.  An object that stands in several places is called
in each of them.

**Proved here**, for every host value that has a conversion and every course of calls:

    at no time an object has a key without a value, exactly if neither the
      host value nor one of the calls hides a value that vanishes, and then
      no loop over an object comes to an absent element  (`HostValue.course_gapped_iff`)
-/
import Stencil.Proofs.Filling

namespace Stencil

/-! ## Values within values -/

namespace Value

/-- A value stands in another one, at any depth, or is it. -/
inductive Within (u : Value) : Value → Prop where
  | self : Within u u
  | item {items : List Value} {v : Value} (hv : v ∈ items) (h : Within u v) :
      Within u (.sequence items)
  | entry {entries : List (Text × Value)} {e : Text × Value} (he : e ∈ entries)
      (h : Within u e.2) : Within u (.object entries)

/-- An object within has a key without a value. -/
def Gapped (v : Value) : Prop :=
  ∃ entries key, (Value.object entries).Within v ∧ (key, Value.absent) ∈ entries

theorem gapped_object {entries : List (Text × Value)} :
    (Value.object entries).Gapped ↔ ∃ e ∈ entries, e.2 = .absent ∨ e.2.Gapped := by
  constructor
  · rintro ⟨inner, key, hwithin, hkey⟩
    cases hwithin with
    | self => exact ⟨_, hkey, .inl rfl⟩
    | entry he h => exact ⟨_, he, .inr ⟨inner, key, h, hkey⟩⟩
  · rintro ⟨⟨key, v⟩, he, rfl | ⟨inner, key', h, hkey⟩⟩
    · exact ⟨entries, key, .self, he⟩
    · exact ⟨inner, key', .entry he h, hkey⟩

theorem gapped_sequence {items : List Value} :
    (Value.sequence items).Gapped ↔ ∃ v ∈ items, v.Gapped := by
  constructor
  · rintro ⟨inner, key, hwithin, hkey⟩
    cases hwithin with
    | item hv h => exact ⟨_, hv, inner, key, h, hkey⟩
  · rintro ⟨v, hv, inner, key, h, hkey⟩
    exact ⟨inner, key, .item hv h, hkey⟩

/-- One object within a value is called. -/
inductive Called (call : ObjectCall) : Value → Value → Prop where
  | here {entries : Table Text Value} :
      Called call (.object entries) (.object (call.after entries))
  | entry {front back : Table Text Value} {key : Text} {v v' : Value}
      (h : Called call v v') :
      Called call (.object (front ++ (key, v) :: back)) (.object (front ++ (key, v') :: back))
  | item {front back : List Value} {v v' : Value} (h : Called call v v') :
      Called call (.sequence (front ++ v :: back)) (.sequence (front ++ v' :: back))

/-- The values that come about, the first one included, as calls are made on objects within. -/
inductive Course : Value → List ObjectCall → List Value → Prop where
  | done {v : Value} : Course v [] [v]
  | call {v v' : Value} {call : ObjectCall} {calls : List ObjectCall} {values : List Value}
      (hcall : Called call v v') (h : Course v' calls values) :
      Course v (call :: calls) (v :: values)

end Value

/-! ## What vanishes -/

namespace HostValue

/-- A host object that converts itself to no value, or to a host object that does. -/
inductive Vanishes : HostValue → Prop where
  | now {w : HostValue} (h : w.isAbsent = true) : Vanishes (.convertible w)
  | later {w : HostValue} (h : Vanishes w) : Vanishes (.convertible w)

/-- The entry of a mapping that counts for a name: the last one whose key denotes it. -/
inductive LastFor (name : Text) (key : HostKey) (value : HostValue) :
    List (HostKey × HostValue) → Prop where
  | here {rest : List (HostKey × HostValue)} (hkey : key.Denotes name)
      (hrest : ∀ e ∈ rest, ¬ e.1.Denotes name) : LastFor name key value ((key, value) :: rest)
  | behind {e : HostKey × HostValue} {rest : List (HostKey × HostValue)}
      (h : LastFor name key value rest) : LastFor name key value (e :: rest)

/-- Somewhere within, the entry of a mapping that counts for a name vanishes. -/
inductive Hides : HostValue → Prop where
  | vanishing {entries : List (HostKey × HostValue)} {name : Text} {key : HostKey}
      {value : HostValue} (hlast : LastFor name key value entries) (h : value.Vanishes) :
      Hides (.mapping entries)
  | entry {entries : List (HostKey × HostValue)} {name : Text} {key : HostKey}
      {value : HostValue} (hlast : LastFor name key value entries) (h : Hides value) :
      Hides (.mapping entries)
  | list {items : List HostValue} {w : HostValue} (hw : w ∈ items) (h : Hides w) :
      Hides (.list items)
  | tuple {items : List HostValue} {w : HostValue} (hw : w ∈ items) (h : Hides w) :
      Hides (.tuple items)
  | convertible {w : HostValue} (h : Hides w) : Hides (.convertible w)
  | made {v : Value} (h : v.Gapped) : Hides (.made v)

end HostValue

/-- The call succeeds in setting a key to a host value that vanishes, or that hides one. -/
inductive ObjectCall.Hides : ObjectCall → Prop where
  | vanishing {key : HostKey} {value : HostValue} {name : Text} {v : Value}
      (hkey : key.Denotes name) (hv : value.convertIn HostValue.entryRoom = .ok v)
      (h : value.Vanishes) : Hides (.set key value)
  | value {key : HostKey} {value : HostValue} {name : Text} {v : Value}
      (hkey : key.Denotes name) (hv : value.convertIn HostValue.entryRoom = .ok v)
      (h : value.Hides) : Hides (.set key value)

namespace HostValue

/-- If it has a conversion, a host object that vanishes is converted to no value. -/
theorem vanishes_iff {w : HostValue} : ∀ {room : Nat} {v : Value}, w.convertIn room = .ok v →
    (w.Vanishes ↔ w.isAbsent = false ∧ v = .absent) := by
  induction w using induction_parts with
  | whole w ih =>
      intro room v hconvert
      cases w with
      | convertible w =>
          obtain ⟨-, hw⟩ := convertIn_convertible_eq_ok.1 hconvert
          have ih := ih w List.mem_cons_self hw
          constructor
          · rintro (h | h)
            · refine ⟨rfl, ?_⟩
              cases w with
              | absent => exact (Except.ok.inj hw).symm
              | made u =>
                  cases hw
                  cases v <;> first | rfl | cases h
              | _ => cases h
            · exact ⟨rfl, (ih.1 h).2⟩
          · rintro ⟨-, hv⟩
            cases habsent : w.isAbsent with
            | true => exact .now habsent
            | false => exact .later (ih.2 ⟨habsent, hv⟩)
      | made v =>
          cases hconvert
          refine ⟨nofun, ?_⟩
          rintro ⟨hpresent, rfl⟩
          cases hpresent
      | list items =>
          obtain ⟨-, values, -, rfl⟩ := convertIn_list_eq_ok.1 hconvert
          exact ⟨nofun, nofun⟩
      | tuple items =>
          rw [convertIn_tuple] at hconvert
          obtain ⟨-, values, -, rfl⟩ := convertIn_list_eq_ok.1 hconvert
          exact ⟨nofun, nofun⟩
      | mapping entries =>
          obtain ⟨-, table, -, rfl⟩ := convertIn_mapping_eq_ok.1 hconvert
          exact ⟨nofun, nofun⟩
      | absent => exact ⟨nofun, fun h => nomatch h.1⟩
      | foreign | collection => cases hconvert
      | _ =>
          cases hconvert
          exact ⟨nofun, nofun⟩

theorem Hides.isAbsent {w : HostValue} (h : w.Hides) : w.isAbsent = false := by
  cases h with
  | @made v h =>
      obtain ⟨entries, key, hwithin, -⟩ := h
      cases hwithin <;> rfl
  | _ => rfl

variable {room : Nat}

/-- The first entry of a mapping is set, and this succeeds if all is well. -/
theorem storeEntriesIn_cons_eq_ok {object table : Table Text Value} {key : HostKey}
    {value : HostValue} {rest : List (HostKey × HostValue)} :
    storeEntriesIn room object ((key, value) :: rest) = .ok table ↔
      ∃ name w, ObjectCall.Sets room key value name w ∧
        storeEntriesIn room (ObjectCall.effect object name w) rest = .ok table := by
  rw [storeEntriesIn_cons]
  rcases ObjectCall.setIn_cases room key value object with
    ⟨name, w, hsets, hrun⟩ | ⟨hrefused, e, hrun⟩
  · rw [ObjectM.result_of_ok hrun]
    constructor
    · exact fun h => ⟨name, w, hsets, h⟩
    · rintro ⟨name', w', hsets', h⟩
      obtain ⟨rfl, rfl⟩ := hsets.unique hsets'
      exact h
  · rw [ObjectM.result_of_error hrun]
    constructor
    · exact nofun
    · rintro ⟨name, w, hsets, -⟩
      exact absurd hsets hrefused.not_sets

/-- The entries of a mapping that is stored all have a conversion. -/
theorem exists_convertIn_of_storeEntriesIn {table : Table Text Value}
    {entries : List (HostKey × HostValue)} : ∀ {object : Table Text Value},
    storeEntriesIn room object entries = .ok table →
      ∀ e ∈ entries, ∃ v, e.2.convertIn room = .ok v := by
  induction entries with
  | nil => exact fun _ => nofun
  | cons first rest ih =>
      obtain ⟨key, value⟩ := first
      intro object h e he
      obtain ⟨name, w, hsets, hrest⟩ := storeEntriesIn_cons_eq_ok.1 h
      rcases List.mem_cons.1 he with rfl | he
      · cases hsets with
        | stores _ _ hv => exact ⟨_, hv⟩
        | clears _ hvalue => exact exists_convertIn_of_isAbsent hvalue room
      · exact ih hrest e he

theorem LastFor.mem {name : Text} {key : HostKey} {value : HostValue}
    {entries : List (HostKey × HostValue)} (h : LastFor name key value entries) :
    (key, value) ∈ entries := by
  induction h with
  | here => exact List.mem_cons_self
  | behind _ ih => exact List.mem_cons_of_mem _ ih

theorem LastFor.denotes {name : Text} {key : HostKey} {value : HostValue}
    {entries : List (HostKey × HostValue)} (h : LastFor name key value entries) :
    key.Denotes name := by
  induction h with
  | here hkey => exact hkey
  | behind _ ih => exact ih

theorem lastFor_cons {name : Text} {key : HostKey} {value : HostValue}
    {e : HostKey × HostValue} {rest : List (HostKey × HostValue)} :
    LastFor name key value (e :: rest) ↔
      (e = (key, value) ∧ key.Denotes name ∧ ∀ e ∈ rest, ¬ e.1.Denotes name) ∨
        LastFor name key value rest := by
  constructor
  · intro h
    cases h with
    | here hkey hrest => exact .inl ⟨rfl, hkey, hrest⟩
    | behind h => exact .inr h
  · rintro (⟨rfl, hkey, hrest⟩ | h)
    · exact .here hkey hrest
    · exact .behind h

/-- What is stored are the values of the entries that count, and what was there under other
names. -/
theorem mem_storeEntriesIn {table : Table Text Value} {name : Text} {v : Value}
    {entries : List (HostKey × HostValue)} : ∀ {object : Table Text Value},
    object.keys.Nodup → storeEntriesIn room object entries = .ok table →
    ((name, v) ∈ table ↔
      (∃ key value, LastFor name key value entries ∧
        ObjectCall.Sets room key value name (some v)) ∨
      (∀ e ∈ entries, ¬ e.1.Denotes name) ∧ (name, v) ∈ object) := by
  induction entries with
  | nil =>
      intro object _ h
      cases h
      constructor
      · exact fun hv => .inr ⟨nofun, hv⟩
      · rintro (⟨_, _, ⟨⟩, _⟩ | ⟨-, hv⟩)
        exact hv
  | cons first rest ih =>
      obtain ⟨key, value⟩ := first
      intro object hobject h
      obtain ⟨other, w, hsets, hrest⟩ := storeEntriesIn_cons_eq_ok.1 h
      have hkey := hsets.denotes
      rw [ih (ObjectCall.nodup_effect hobject) hrest, ObjectCall.mem_effect hobject]
      constructor
      · rintro (⟨k, u, hlast, hset⟩ | ⟨hnone, ⟨rfl, rfl⟩ | ⟨hne, hv⟩⟩)
        · exact .inl ⟨k, u, .behind hlast, hset⟩
        · exact .inl ⟨key, value, .here hkey hnone, hsets⟩
        · exact .inr ⟨List.forall_mem_cons.2 ⟨fun h => hne (h.unique hkey), hnone⟩, hv⟩
      · rintro (⟨k, u, hlast, hset⟩ | ⟨hnone, hv⟩)
        · rcases lastFor_cons.1 hlast with ⟨heq, -, hnone⟩ | hlast
          · cases heq
            obtain ⟨rfl, rfl⟩ := hsets.unique hset
            exact .inr ⟨hnone, .inl ⟨rfl, rfl⟩⟩
          · exact .inl ⟨k, u, hlast, hset⟩
        · obtain ⟨hfirst, hnone⟩ := List.forall_mem_cons.1 hnone
          exact .inr ⟨hnone, .inr ⟨fun h => hfirst (h ▸ hkey), hv⟩⟩

/-- The object that a mapping is converted to holds the values of the entries that count. -/
theorem mem_of_convertIn_mapping {entries : List (HostKey × HostValue)} {v : Value}
    (h : (mapping entries).convertIn room = .ok v) :
    ∃ room' table, v = .object table ∧ (∀ e ∈ entries, ∃ v, e.2.convertIn room' = .ok v) ∧
      ∀ name v, (name, v) ∈ table ↔ ∃ key value, LastFor name key value entries ∧
        ObjectCall.Sets room' key value name (some v) := by
  obtain ⟨-, table, htable, rfl⟩ := convertIn_mapping_eq_ok.1 h
  refine ⟨_, table, rfl, exists_convertIn_of_storeEntriesIn htable, fun name v => ?_⟩
  have hempty : (Table.keys ([] : Table Text Value)).Nodup := List.nodup_nil
  rw [mem_storeEntriesIn hempty htable]
  simp

/-- The sequence that a list or a tuple is converted to. -/
theorem gapped_items {items : List HostValue} {values : List Value}
    (h : List.Forall₂ (fun w v => w.convertIn room = .ok v) items values)
    (ih : ∀ w ∈ items, ∀ room v, w.convertIn room = .ok v → (v.Gapped ↔ w.Hides)) :
    (Value.sequence values).Gapped ↔ ∃ w ∈ items, w.Hides := by
  rw [Value.gapped_sequence]
  induction h with
  | nil => simp
  | @cons w v items values hconvert _ ih' =>
      rw [List.exists_mem_cons_iff, List.exists_mem_cons_iff,
        ih w List.mem_cons_self _ v hconvert,
        ih' fun w hw => ih w (List.mem_cons_of_mem _ hw)]

/-- What a host value is converted to has a gap exactly if the host value hides one. -/
theorem gapped_convertIn_iff (w : HostValue) :
    ∀ room v, w.convertIn room = .ok v → (v.Gapped ↔ w.Hides) := by
  induction w using induction_parts with
  | whole w ih =>
      intro room v hconvert
      cases w with
      | list items =>
          obtain ⟨-, values, hitems, rfl⟩ := convertIn_list_eq_ok.1 hconvert
          rw [gapped_items hitems ih]
          constructor
          · rintro ⟨w, hw, h⟩
            exact .list hw h
          · rintro (_ | _ | ⟨hw, h⟩)
            exact ⟨_, hw, h⟩
      | tuple items =>
          rw [convertIn_tuple] at hconvert
          obtain ⟨-, values, hitems, rfl⟩ := convertIn_list_eq_ok.1 hconvert
          rw [gapped_items hitems ih]
          constructor
          · rintro ⟨w, hw, h⟩
            exact .tuple hw h
          · rintro (_ | _ | _ | ⟨hw, h⟩)
            exact ⟨_, hw, h⟩
      | mapping entries =>
          obtain ⟨room, table, rfl, hparts, htable⟩ := mem_of_convertIn_mapping hconvert
          have ih : ∀ key value, (key, value) ∈ entries → ∀ v, value.convertIn room = .ok v →
              (v.Gapped ↔ value.Hides) :=
            fun key value he => ih value (List.mem_map.2 ⟨(key, value), he, rfl⟩) room
          rw [Value.gapped_object]
          constructor
          · rintro ⟨⟨name, v⟩, he, hv⟩
            obtain ⟨key, value, hlast, hset⟩ := (htable name v).1 he
            cases hset with
            | stores _ hvalue hconvert =>
                rcases hv with rfl | hv
                · exact .vanishing hlast ((vanishes_iff hconvert).2 ⟨hvalue, rfl⟩)
                · exact .entry hlast ((ih _ _ hlast.mem v hconvert).1 hv)
          · intro h
            cases h with
            | vanishing hlast h =>
                obtain ⟨v, hconvert⟩ := hparts _ hlast.mem
                obtain ⟨hvalue, rfl⟩ := (vanishes_iff hconvert).1 h
                exact ⟨_, (htable _ _).2 ⟨_, _, hlast, .stores hlast.denotes hvalue hconvert⟩,
                  .inl rfl⟩
            | entry hlast h =>
                obtain ⟨v, hconvert⟩ := hparts _ hlast.mem
                exact ⟨_, (htable _ v).2 ⟨_, _, hlast, .stores hlast.denotes h.isAbsent hconvert⟩,
                  .inr ((ih _ _ hlast.mem v hconvert).2 h)⟩
      | convertible w =>
          obtain ⟨-, hw⟩ := convertIn_convertible_eq_ok.1 hconvert
          refine (ih w List.mem_cons_self _ v hw).trans ⟨.convertible, ?_⟩
          rintro ⟨⟩
          assumption
      | made u =>
          cases hconvert
          refine ⟨.made, ?_⟩
          rintro ⟨⟩
          assumption
      | foreign typeName | collection typeName items => cases hconvert
      | _ =>
          cases hconvert
          constructor
          · rintro ⟨entries, key, hwithin, -⟩
            cases hwithin
          · rintro ⟨⟩

end HostValue

/-! ## Calls on objects within a value -/

namespace ObjectCall

theorem hides_iff {call : ObjectCall} :
    call.Hides ↔ ∃ name v, call.Does name (some v) ∧ (v = .absent ∨ v.Gapped) := by
  constructor
  · intro h
    cases h with
    | vanishing hkey hv h =>
        obtain ⟨hvalue, rfl⟩ := (HostValue.vanishes_iff hv).1 h
        exact ⟨_, _, .sets (.stores hkey hvalue hv), .inl rfl⟩
    | value hkey hv h =>
        exact ⟨_, _, .sets (.stores hkey h.isAbsent hv),
          .inr ((HostValue.gapped_convertIn_iff _ _ _ hv).2 h)⟩
  · rintro ⟨name, v, hdoes, hgap⟩
    cases hdoes with
    | sets hsets =>
        cases hsets with
        | stores hkey hvalue hv =>
            rcases hgap with rfl | hgap
            · exact .vanishing hkey hv ((HostValue.vanishes_iff hv).2 ⟨hvalue, rfl⟩)
            · exact .value hkey hv ((HostValue.gapped_convertIn_iff _ _ _ hv).1 hgap)

/-- A call on an object without a gap leaves one exactly if it hides it. -/
theorem gapped_after_iff {entries : Table Text Value} (h : ¬ (Value.object entries).Gapped)
    (call : ObjectCall) : (Value.object (call.after entries)).Gapped ↔ call.Hides := by
  rw [hides_iff]
  rw [Value.gapped_object] at h ⊢
  rcases call.run_cases entries with ⟨name, w, hdoes, hrun⟩ | ⟨hrefused, e, hrun⟩ <;>
    simp only [after, hrun]
  · constructor
    · rintro ⟨e, he, hgap⟩
      cases w with
      | none => exact absurd ⟨e, Table.mem_of_mem_erase he, hgap⟩ h
      | some v =>
          rcases Table.mem_of_mem_insert he with rfl | he
          · exact ⟨name, v, hdoes, hgap⟩
          · exact absurd ⟨e, he, hgap⟩ h
    · rintro ⟨name', v, hset, hgap⟩
      obtain ⟨rfl, rfl⟩ := hdoes.unique hset
      exact ⟨(name, v), Table.mem_insert_self .., hgap⟩
  · refine iff_of_false h ?_
    rintro ⟨name, v, hset, -⟩
    exact hrefused.not_does hset

end ObjectCall

namespace Value

theorem Called.not_absent {call : ObjectCall} {v v' : Value} (h : Called call v v') :
    v ≠ .absent ∧ v' ≠ .absent := by
  cases h <;> exact ⟨nofun, nofun⟩

/-- One step: a call on one of the objects within. -/
theorem Called.gapped_iff {call : ObjectCall} {v v' : Value} (h : Called call v v') :
    ¬ v.Gapped → (v'.Gapped ↔ call.Hides) := by
  induction h with
  | here => exact fun hv => ObjectCall.gapped_after_iff hv call
  | @entry front back key v v' h ih =>
      intro hv
      have hne := h.not_absent
      simp only [gapped_object, List.mem_append, List.mem_cons, or_and_right, exists_or,
        exists_eq_left, not_or] at hv ⊢
      simp only [hv, hne, ih hv.2.1.2, false_or, or_false]
  | @item front back v v' h ih =>
      intro hv
      simp only [gapped_sequence, List.mem_append, List.mem_cons, or_and_right, exists_or,
        exists_eq_left, not_or] at hv ⊢
      simp only [hv, ih hv.2.1, false_or, or_false]

/-- Along a course of calls. -/
theorem Course.not_gapped_iff {v : Value} {calls : List ObjectCall} {values : List Value}
    (h : Course v calls values) :
    (∀ u ∈ values, ¬ u.Gapped) ↔ ¬ v.Gapped ∧ ∀ call ∈ calls, ¬ call.Hides := by
  induction h with
  | done => simp
  | @call v v' call calls values hcall _ ih =>
      rw [List.forall_mem_cons, ih, List.forall_mem_cons]
      constructor
      · rintro ⟨hv, hv', hcalls⟩
        exact ⟨hv, fun h => hv' ((hcall.gapped_iff hv).2 h), hcalls⟩
      · rintro ⟨hv, hfirst, hcalls⟩
        exact ⟨hv, fun h => hfirst ((hcall.gapped_iff hv).1 h), hcalls⟩

/-- A gap is where a loop over an object comes to an absent element. -/
theorem gapped_iff_elements {v : Value} : v.Gapped ↔ ∃ entries,
    (Value.object entries).Within v ∧ .absent ∈ (Value.object entries).elements := by
  constructor
  · rintro ⟨entries, key, hwithin, hkey⟩
    exact ⟨entries, hwithin, List.mem_map.2 ⟨_, hkey, rfl⟩⟩
  · rintro ⟨entries, hwithin, helement⟩
    obtain ⟨⟨key, v⟩, hkey, rfl⟩ := List.mem_map.1 helement
    exact ⟨entries, key, hwithin, hkey⟩

end Value

namespace HostValue

/-- **An object has a key without a value only where a host object vanishes.**  Let a host value
be converted and calls be made, one after the other, on objects within what came of it.  Then
there is never a key without a value in any of the objects, exactly if in no mapping within the
host value the entry that counts for a name vanishes, and no call sets a key to something that
vanishes or hides such a mapping.  A key without a value is what makes a loop over the object
come to an absent element. -/
theorem course_gapped_iff {w : HostValue} {v : Value} {calls : List ObjectCall}
    {values : List Value} (hconvert : w.convert = .ok v) (hcourse : v.Course calls values) :
    ((∀ u ∈ values, ¬ u.Gapped) ↔ ¬ w.Hides ∧ ∀ call ∈ calls, ¬ call.Hides) ∧
    ∀ u ∈ values, u.Gapped ↔ ∃ entries,
      (Value.object entries).Within u ∧ .absent ∈ (Value.object entries).elements := by
  refine ⟨?_, fun u _ => Value.gapped_iff_elements⟩
  rw [hcourse.not_gapped_iff, gapped_convertIn_iff w _ v hconvert]

/-- Cards with one field each. -/
def cards : HostValue := .list [.mapping [(.text "a", .int 1)], .mapping [(.text "a", .int 2)]]

/-- The second card gets a field that is a list with no value in it, and then one whose value
vanishes. -/
def cardCalls : List ObjectCall :=
  [.set (.text "b") (.tuple [.absent]), .set (.text "c") (.convertible (.convertible .absent))]

theorem course_gapped_iff_cards :
    let card (fields : Table Text Value) : Value :=
      .sequence [.object [("a", .int 1)], .object (("a", .int 2) :: fields)]
    let values := [card [], card [("b", .sequence [.absent])],
      card [("b", .sequence [.absent]), ("c", .absent)]]
    cards.convert = .ok (card []) ∧ (card []).Course cardCalls values ∧
      ¬ cards.Hides ∧ ∃ u ∈ values, u.Gapped := by
  intro card values
  have hcall : ∀ (call : ObjectCall) (entries : Table Text Value),
      Value.Called call (.sequence [.object [("a", .int 1)], .object entries])
        (.sequence [.object [("a", .int 1)], .object (call.after entries)]) :=
    fun call entries => @Value.Called.item call [.object [("a", .int 1)]] [] _ _ .here
  have hconvert : cards.convert = .ok (card []) := rfl
  have hcourse : (card []).Course cardCalls values := .call (hcall _ _) (.call (hcall _ _) .done)
  have hbefore := (course_gapped_iff hconvert .done).1
  have hafter := (course_gapped_iff hconvert hcourse).1
  have hcards : ¬ cards.Hides := by
    have hnumber : ∀ i, ¬ (Value.int i).Gapped := by
      rintro i ⟨entries, key, ⟨⟩, -⟩
    refine (hbefore.1 ?_).1
    simp [card, Value.gapped_sequence, Value.gapped_object, hnumber]
  refine ⟨hconvert, hcourse, hcards, ?_⟩
  by_contra hnone
  have hkept := (hafter.1 fun u hu hgap => hnone ⟨u, hu, hgap⟩).2
  exact hkept _ (List.mem_cons_of_mem _ List.mem_cons_self) (.vanishing .text rfl (.later (.now rfl)))

/-- So it is not true that no object has a key without a value. -/
theorem convert_not_gapless : ¬ ∀ (w : HostValue) (v : Value), w.convert = .ok v →
    ∀ entries, (Value.object entries).Within v → ∀ e ∈ entries, e.2 ≠ .absent := by
  intro h
  have hconvert : (mapping [(.text "a", .convertible .absent)]).convert =
      .ok (.object [("a", .absent)]) := rfl
  exact h _ _ hconvert _ .self _ List.mem_cons_self rfl

end HostValue

end Stencil
