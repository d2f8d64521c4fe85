/-
# `Stencil.Proofs.Filling` — what calls leave in an object

An object is changed by calls, of which some fail.  What it holds afterwards can be told from
the calls alone, by their places among the calls:

* an entry for each key that the last call about it has set, and its value is the one that this
  call has stored (`ObjectCall.Leaves`);
* in the order of the calls by which the keys came in to stay: the first that sets the key since
  it was taken out last (`ObjectCall.Enters`).

`ObjectCall.Does` says what a call does that does not fail: it stores a value under a key, or
takes the key out.  So keys are told apart by the text that they denote, be it that they are
given as text or as bytes.  A call has one such effect or is refused, and then it changes nothing
(`ObjectCall.run_cases`).  What the calls leave follows by adding one call after the other.

**Proved here**, for every sequence of calls:

    a new object holds what the calls leave, once each and in that order,
      a call that is refused changes nothing, and to make an object from
      entries is to set one after the other            (`ObjectCall.afterAll_leftBy`)
-/
import Mathlib.Data.List.Induction
import Stencil.Proofs.Conversion
import Stencil.Value.Object

namespace Stencil

/-! ## What a call does -/

namespace ObjectCall

/-- To set the key to the host value, with so much room to convert it, leaves a value under the
name, or none. -/
inductive Sets (room : Nat) (key : HostKey) (value : HostValue) : Text → Option Value → Prop where
  | stores {name : Text} {v : Value} (hkey : key.Denotes name) (hvalue : value.isAbsent = false)
      (hv : value.convertIn room = .ok v) : Sets room key value name (some v)
  | clears {name : Text} (hkey : key.Denotes name) (hvalue : value.isAbsent = true) :
      Sets room key value name none

/-- The key is no text, or the host value has no conversion in that room. -/
inductive SetRefused (room : Nat) (key : HostKey) (value : HostValue) : Prop where
  | key (h : ∀ name, ¬ key.Denotes name)
  | value {e : ConversionError} (h : value.convertIn room = .error e)

/-- What a call does that does not fail: under the key it leaves a value, or none. -/
inductive Does : ObjectCall → Text → Option Value → Prop where
  | sets {key : HostKey} {value : HostValue} {name : Text} {w : Option Value}
      (h : Sets HostValue.entryRoom key value name w) : Does (.set key value) name w
  | removes {key : HostKey} {name : Text} (hkey : key.Denotes name) :
      Does (.remove key) name none

/-- The key of the call is no text, or the value has no conversion. -/
inductive Refused : ObjectCall → Prop where
  | set {key : HostKey} {value : HostValue} (h : SetRefused HostValue.entryRoom key value) :
      Refused (.set key value)
  | remove {key : HostKey} (h : ∀ name, ¬ key.Denotes name) : Refused (.remove key)

/-- The entries with what a call leaves under a key. -/
def effect (entries : Table Text Value) (name : Text) : Option Value → Table Text Value
  | some v => entries.insert name v
  | none => entries.erase name

theorem mem_effect {entries : Table Text Value} (h : entries.keys.Nodup) {name other : Text}
    {v : Value} {w : Option Value} : (other, v) ∈ effect entries name w ↔
      other = name ∧ w = some v ∨ other ≠ name ∧ (other, v) ∈ entries := by
  cases w with
  | none =>
      rw [effect, Table.mem_erase h]
      simp
  | some v' =>
      rw [effect, Table.mem_insert h]
      simp [eq_comm]

theorem nodup_effect {entries : Table Text Value} (h : entries.keys.Nodup) {name : Text}
    {w : Option Value} : (effect entries name w).keys.Nodup := by
  cases w with
  | none =>
      rw [effect, Table.keys_erase]
      exact h.erase name
  | some v => exact Table.nodup_insert h name v

section Sets

variable {room : Nat} {key : HostKey} {value : HostValue} {name name' : Text} {w w' : Option Value}

theorem Sets.denotes (h : Sets room key value name w) : key.Denotes name := by
  cases h <;> assumption

theorem Sets.unique (h : Sets room key value name w) (h' : Sets room key value name' w') :
    name = name' ∧ w = w' := by
  refine ⟨h.denotes.unique h'.denotes, ?_⟩
  cases h with
  | stores _ hvalue hv =>
      cases h' with
      | stores _ _ hv' =>
          cases hv.symm.trans hv'
          rfl
      | clears _ hvalue' => cases hvalue.symm.trans hvalue'
  | clears _ hvalue =>
      cases h' with
      | stores _ hvalue' _ => cases hvalue.symm.trans hvalue'
      | clears => rfl

theorem SetRefused.not_sets (h : SetRefused room key value) : ¬ Sets room key value name w := by
  intro hsets
  cases h with
  | key h => exact h _ hsets.denotes
  | value h =>
      cases hsets with
      | stores _ _ hv => cases h.symm.trans hv
      | clears _ hvalue =>
          obtain ⟨v, hv⟩ := HostValue.exists_convertIn_of_isAbsent hvalue room
          cases h.symm.trans hv

theorem not_denotes_of_error {e : ConversionError} (he : key.toText = .error e) (name : Text) :
    ¬ key.Denotes name := by
  intro hname
  cases he.symm.trans (HostKey.toText_eq_ok.2 hname)

/-- To set a key has one effect, or is refused and changes nothing. -/
theorem setIn_cases (room : Nat) (key : HostKey) (value : HostValue)
    (entries : Table Text Value) :
    (∃ name w, Sets room key value name w ∧
      ObjectM.setIn room key value entries = .ok () (effect entries name w)) ∨
      SetRefused room key value ∧ ∃ e, ObjectM.setIn room key value entries = .error e entries := by
  cases hkey : key.toText with
  | error e =>
      refine .inr ⟨.key (not_denotes_of_error hkey), e, ?_⟩
      simp only [ObjectM.setIn, hkey]
      rfl
  | ok name =>
      have hname := HostKey.toText_eq_ok.1 hkey
      cases hvalue : value.isAbsent with
      | true =>
          refine .inl ⟨name, none, .clears hname hvalue, ?_⟩
          simp only [ObjectM.setIn, hkey, hvalue, if_true]
          rfl
      | false =>
          cases hv : value.convertIn room with
          | error e =>
              refine .inr ⟨.value hv, e, ?_⟩
              simp only [ObjectM.setIn, hkey, hvalue, hv]
              rfl
          | ok v =>
              refine .inl ⟨name, some v, .stores hname hvalue hv, ?_⟩
              simp only [ObjectM.setIn, hkey, hvalue, hv]
              rfl

end Sets

/-- A call does one thing. -/
theorem Does.unique {call : ObjectCall} {name name' : Text} {w w' : Option Value}
    (h : call.Does name w) (h' : call.Does name' w') : name = name' ∧ w = w' := by
  cases h with
  | sets h => cases h' with | sets h' => exact h.unique h'
  | removes hkey => cases h' with | removes hkey' => exact ⟨hkey.unique hkey', rfl⟩

theorem Refused.not_does {call : ObjectCall} (h : call.Refused) {name : Text} {w : Option Value} :
    ¬ call.Does name w := by
  intro hdoes
  cases h with
  | set h => cases hdoes with | sets hsets => exact h.not_sets hsets
  | remove h => cases hdoes with | removes hkey => exact h _ hkey

/-- A call has one effect, or is refused and changes nothing. -/
theorem run_cases (call : ObjectCall) (entries : Table Text Value) :
    (∃ name w, call.Does name w ∧ call.run entries = .ok () (effect entries name w)) ∨
      call.Refused ∧ ∃ e, call.run entries = .error e entries := by
  cases call with
  | set key value =>
      rcases setIn_cases HostValue.entryRoom key value entries with
        ⟨name, w, hsets, hrun⟩ | ⟨hrefused, he⟩
      · exact .inl ⟨name, w, .sets hsets, hrun⟩
      · exact .inr ⟨.set hrefused, he⟩
  | remove key =>
      cases hkey : key.toText with
      | error e =>
          exact .inr ⟨.remove (not_denotes_of_error hkey), e, by
            simp only [run, ObjectM.remove, hkey]; rfl⟩
      | ok name => exact .inl ⟨name, none, .removes (HostKey.toText_eq_ok.1 hkey), by
          simp only [run, ObjectM.remove, hkey]; rfl⟩

/-! ## What calls leave -/

/-- The call at a place does something to a key. -/
def DoneAt (calls : List ObjectCall) (place : Nat) (name : Text) (w : Option Value) : Prop :=
  ∃ call, calls[place]? = some call ∧ call.Does name w

/-- The last call that does something to the key stores the value under it. -/
def Leaves (calls : List ObjectCall) (name : Text) (v : Value) : Prop :=
  ∃ place, DoneAt calls place name (some v) ∧
    ∀ later w, place < later → ¬ DoneAt calls later name w

/-- The call at a place brings the key in, and it stays: no call behind takes the key out, and
if an earlier one sets it, then one between the two takes it out again. -/
structure Enters (calls : List ObjectCall) (place : Nat) (name : Text) : Prop where
  sets : ∃ v, DoneAt calls place name (some v)
  stays : ∀ later, place < later → ¬ DoneAt calls later name none
  first : ∀ earlier v, earlier < place → DoneAt calls earlier name (some v) →
    ∃ between, earlier < between ∧ between < place ∧ DoneAt calls between name none

/-- What is left by calls: each key once, with the value that the last call about it has stored,
in the order in which the keys came in to stay. -/
structure LeftBy (calls : List ObjectCall) (entries : Table Text Value) : Prop where
  once : entries.keys.Nodup
  entry : ∀ name v, (name, v) ∈ entries ↔ Leaves calls name v
  enters : ∀ name ∈ entries.keys, ∃! place, Enters calls place name
  order : entries.keys.Pairwise fun name name' =>
    ∃ place place', place < place' ∧ Enters calls place name ∧ Enters calls place' name'

section Concat

variable {calls : List ObjectCall} {call : ObjectCall} {name name' : Text} {v : Value}
  {w : Option Value} {place : Nat}

theorem DoneAt.lt (h : DoneAt calls place name w) : place < calls.length := by
  obtain ⟨call, hcall, -⟩ := h
  exact (List.getElem?_eq_some_iff.1 hcall).1

/-- What one more call does, it does at the last place. -/
theorem doneAt_concat : DoneAt (calls ++ [call]) place name w ↔
    DoneAt calls place name w ∨ place = calls.length ∧ call.Does name w := by
  constructor
  · rintro ⟨c, hc, hdoes⟩
    rcases lt_or_ge place calls.length with h | h
    · exact .inl ⟨c, by rwa [List.getElem?_append_left h] at hc, hdoes⟩
    · rw [List.getElem?_append_right h, List.getElem?_singleton] at hc
      split at hc
      · cases hc
        exact .inr ⟨by omega, hdoes⟩
      · cases hc
  · rintro (⟨c, hc, hdoes⟩ | ⟨rfl, hdoes⟩)
    · exact ⟨c, by rw [List.getElem?_append_left (DoneAt.lt ⟨c, hc, hdoes⟩), hc], hdoes⟩
    · exact ⟨call, by simp, hdoes⟩

/-- One more call about another key, or one that is refused. -/
theorem doneAt_concat_of_not_does (h : ∀ w, ¬ call.Does name w) :
    DoneAt (calls ++ [call]) place name w ↔ DoneAt calls place name w := by
  rw [doneAt_concat]
  exact or_iff_left fun hlast => h w hlast.2

theorem leaves_concat_of_not_does (h : ∀ w, ¬ call.Does name w) :
    Leaves (calls ++ [call]) name v ↔ Leaves calls name v := by
  simp only [Leaves, doneAt_concat_of_not_does h]

/-- The last call leaves what it does. -/
theorem leaves_concat_of_does (h : call.Does name w) :
    Leaves (calls ++ [call]) name v ↔ w = some v := by
  have hlast : DoneAt (calls ++ [call]) calls.length name w := doneAt_concat.2 (.inr ⟨rfl, h⟩)
  constructor
  · rintro ⟨place, hplace, hlater⟩
    have hle : calls.length ≤ place := by
      by_contra hlt
      exact hlater _ w (by omega) hlast
    rcases doneAt_concat.1 hplace with hdone | ⟨-, hdoes⟩
    · exact absurd hdone.lt (by omega)
    · exact (h.unique hdoes).2
  · rintro rfl
    refine ⟨_, hlast, fun later w hlt hdone => ?_⟩
    have := hdone.lt
    rw [List.length_append, List.length_singleton] at this
    omega

/-- A key that is set and not taken out any more is left. -/
theorem exists_leaves (calls : List ObjectCall) :
    ∀ place v, DoneAt calls place name (some v) →
      (∀ later, place < later → ¬ DoneAt calls later name none) → ∃ v, Leaves calls name v := by
  induction calls using List.reverseRecOn with
  | nil =>
      rintro place v ⟨call, hcall, -⟩
      cases hcall
  | append_singleton calls call ih =>
      intro place v hplace hstays
      by_cases hcall : ∃ w, call.Does name w
      · obtain ⟨w, hdoes⟩ := hcall
        cases w with
        | some v => exact ⟨v, (leaves_concat_of_does hdoes).2 rfl⟩
        | none =>
            rcases doneAt_concat.1 hplace with hdone | ⟨-, hset⟩
            · exact absurd (doneAt_concat.2 (.inr ⟨rfl, hdoes⟩)) (hstays _ hdone.lt)
            · cases (hdoes.unique hset).2
      · have hother : ∀ w, ¬ call.Does name w := fun w hdoes => hcall ⟨w, hdoes⟩
        simp only [doneAt_concat_of_not_does hother] at hplace hstays
        simp only [leaves_concat_of_not_does hother]
        exact ih place v hplace hstays

/-- A key comes in to stay only once. -/
theorem Enters.unique {place' : Nat} (h : Enters calls place name)
    (h' : Enters calls place' name) : place = place' := by
  have hle : ∀ {i j}, Enters calls i name → Enters calls j name → ¬ i < j := by
    intro i j hi hj hlt
    obtain ⟨v, hset⟩ := hi.sets
    obtain ⟨between, hafter, -, htaken⟩ := hj.first i v hlt hset
    exact hi.stays between hafter htaken
  have := hle h h'
  have := hle h' h
  omega

theorem Enters.existsUnique (h : Enters calls place name) : ∃! place, Enters calls place name :=
  ⟨place, h, fun _ h' => h'.unique h⟩

/-- What came in to stay, stays if the next call does not take it out. -/
theorem Enters.concat (h : Enters calls place name) (hcall : ¬ call.Does name none) :
    Enters (calls ++ [call]) place name := by
  obtain ⟨⟨v, hset⟩, stays, first⟩ := h
  refine ⟨⟨v, doneAt_concat.2 (.inl hset)⟩, ?_, ?_⟩
  · intro later hlt hdone
    rcases doneAt_concat.1 hdone with hdone | ⟨-, hdoes⟩
    · exact stays later hlt hdone
    · exact hcall hdoes
  · intro earlier v hlt hdone
    rcases doneAt_concat.1 hdone with hdone | ⟨rfl, -⟩
    · obtain ⟨between, hafter, hbefore, htaken⟩ := first earlier v hlt hdone
      exact ⟨between, hafter, hbefore, doneAt_concat.2 (.inl htaken)⟩
    · exact absurd hset.lt (by omega)

/-- A key that nothing is left under comes in with the call that sets it. -/
theorem enters_length (h : call.Does name (some v)) (hleft : ∀ v, ¬ Leaves calls name v) :
    Enters (calls ++ [call]) calls.length name := by
  refine ⟨⟨v, doneAt_concat.2 (.inr ⟨rfl, h⟩)⟩, ?_, ?_⟩
  · intro later hlt hdone
    have hlater := hdone.lt
    rw [List.length_append, List.length_singleton] at hlater
    omega
  · intro earlier v' hlt hdone
    rcases doneAt_concat.1 hdone with hdone | ⟨rfl, -⟩
    · by_contra hbetween
      have hstays : ∀ later, earlier < later → ¬ DoneAt calls later name none :=
        fun later hafter htaken =>
          hbetween ⟨later, hafter, htaken.lt, doneAt_concat.2 (.inl htaken)⟩
      obtain ⟨v, hv⟩ := exists_leaves calls earlier v' hdone hstays
      exact hleft v hv
    · omega

end Concat

section LeftBy

variable {calls : List ObjectCall} {call : ObjectCall} {entries : Table Text Value}

theorem LeftBy.nil : LeftBy [] [] := by
  refine ⟨List.nodup_nil, fun name v => ⟨nofun, ?_⟩, nofun, .nil⟩
  rintro ⟨place, ⟨call, hcall, -⟩, -⟩
  cases hcall

theorem LeftBy.mem_keys (h : LeftBy calls entries) {name : Text} :
    name ∈ entries.keys ↔ ∃ v, Leaves calls name v := by
  simp only [Table.keys, List.mem_map, Prod.exists, exists_and_right, exists_eq_right, h.entry]

/-- The entries that a call leaves, and that it keeps. -/
theorem LeftBy.entry_concat (h : LeftBy calls entries) {name : Text} {w : Option Value}
    (hcall : call.Does name w) (other : Text) (v : Value) :
    (other, v) ∈ effect entries name w ↔ Leaves (calls ++ [call]) other v := by
  rw [mem_effect h.once, h.entry]
  by_cases hname : other = name
  · subst hname
    simp [leaves_concat_of_does hcall]
  · rw [leaves_concat_of_not_does fun w hdoes => hname (hdoes.unique hcall).1]
    simp [hname]

/-- The order of those keys that the next call does not take out. -/
theorem LeftBy.order_concat (h : LeftBy calls entries) {names : List Text}
    (hnames : names.Sublist entries.keys) (hcall : ∀ name ∈ names, ¬ call.Does name none) :
    names.Pairwise fun name name' => ∃ place place', place < place' ∧
      Enters (calls ++ [call]) place name ∧ Enters (calls ++ [call]) place' name' := by
  refine (h.order.sublist hnames).imp_of_mem ?_
  rintro name name' hname hname' ⟨place, place', hlt, henters, henters'⟩
  exact ⟨place, place', hlt, henters.concat (hcall _ hname), henters'.concat (hcall _ hname')⟩

theorem LeftBy.refused (h : LeftBy calls entries) (hcall : ∀ name w, ¬ call.Does name w) :
    LeftBy (calls ++ [call]) entries where
  once := h.once
  entry name v := (h.entry name v).trans (leaves_concat_of_not_does (hcall name)).symm
  enters name hname := by
    obtain ⟨place, henters, -⟩ := h.enters name hname
    exact (henters.concat (hcall name none)).existsUnique
  order := h.order_concat (List.Sublist.refl _) fun name _ => hcall name none

theorem LeftBy.erase (h : LeftBy calls entries) {name : Text} (hcall : call.Does name none) :
    LeftBy (calls ++ [call]) (effect entries name none) where
  once := nodup_effect h.once
  entry := h.entry_concat hcall
  enters other hother := by
    rw [effect, Table.keys_erase, h.once.mem_erase_iff] at hother
    obtain ⟨place, henters, -⟩ := h.enters other hother.2
    exact (henters.concat fun hdoes => hother.1 (hdoes.unique hcall).1).existsUnique
  order := by
    rw [effect, Table.keys_erase]
    refine h.order_concat List.erase_sublist fun other hother hdoes => ?_
    exact (h.once.mem_erase_iff.1 hother).1 (hdoes.unique hcall).1

theorem LeftBy.insert (h : LeftBy calls entries) {name : Text} {v : Value}
    (hcall : call.Does name (some v)) :
    LeftBy (calls ++ [call]) (effect entries name (some v)) := by
  have hkept : ∀ other, ¬ call.Does other none := fun other hdoes =>
    nomatch (hdoes.unique hcall).2
  have hnew : name ∉ entries.keys → Enters (calls ++ [call]) calls.length name := by
    intro hname
    exact enters_length hcall fun v hv => hname (h.mem_keys.2 ⟨v, hv⟩)
  have hold : ∀ other ∈ entries.keys, ∃ place < calls.length,
      Enters (calls ++ [call]) place other := by
    intro other hother
    obtain ⟨place, henters, -⟩ := h.enters other hother
    obtain ⟨v, hset⟩ := henters.sets
    exact ⟨place, hset.lt, henters.concat (hkept other)⟩
  have horder := h.order_concat (List.Sublist.refl _) fun other _ => hkept other
  constructor
  case once => exact nodup_effect h.once
  case entry => exact h.entry_concat hcall
  case enters =>
    intro other hother
    rw [effect, Table.keys_insert] at hother
    split at hother
    · obtain ⟨place, -, henters⟩ := hold other hother
      exact henters.existsUnique
    next hname =>
      rw [Table.has_iff] at hname
      rcases List.mem_append.1 hother with hother | hother
      · obtain ⟨place, -, henters⟩ := hold other hother
        exact henters.existsUnique
      · cases List.mem_singleton.1 hother
        exact (hnew hname).existsUnique
  case order =>
    rw [effect, Table.keys_insert]
    split
    · exact horder
    next hname =>
      rw [Table.has_iff] at hname
      refine List.pairwise_append.2 ⟨horder, List.pairwise_singleton .., ?_⟩
      intro other hother last hlast
      cases List.mem_singleton.1 hlast
      obtain ⟨place, hlt, henters⟩ := hold other hother
      exact ⟨place, _, hlt, henters, hnew hname⟩

/-- One call more. -/
theorem LeftBy.after (h : LeftBy calls entries) (call : ObjectCall) :
    LeftBy (calls ++ [call]) (call.after entries) := by
  rcases run_cases call entries with ⟨name, w, hdoes, hrun⟩ | ⟨hrefused, e, hrun⟩
  · rw [ObjectCall.after, hrun]
    cases w with
    | some v => exact h.insert hdoes
    | none => exact h.erase hdoes
  · rw [ObjectCall.after, hrun]
    exact h.refused fun name w => hrefused.not_does

theorem leftBy_afterAll (calls : List ObjectCall) : LeftBy calls (afterAll calls) := by
  induction calls using List.reverseRecOn with
  | nil => exact .nil
  | append_singleton calls call ih =>
      rw [afterAll, List.foldl_append]
      exact ih.after call

end LeftBy

end ObjectCall

/-! ## Objects made from entries -/

/-- The entries that a host value lists: those of a mapping, or those that pairs in a list or a
tuple are. -/
inductive HostValue.Lists : HostValue → List (HostKey × HostValue) → Prop where
  | mapping {w : HostValue} {entries : List (HostKey × HostValue)}
      (h : w.opened = .mapping entries) : Lists w entries
  | list {w : HostValue} {items : List HostValue} {entries : List (HostKey × HostValue)}
      (h : w.opened = .list items) (hitems : items.mapM entry = .ok entries) : Lists w entries
  | tuple {w : HostValue} {items : List HostValue} {entries : List (HostKey × HostValue)}
      (h : w.opened = .tuple items) (hitems : items.mapM entry = .ok entries) : Lists w entries

theorem ObjectM.result_of_ok {change : ObjectM Unit} {entries changed : Table Text Value}
    (h : change entries = .ok () changed) : change.result entries = .ok changed := by
  rw [result, h]

theorem ObjectM.result_of_error {change : ObjectM Unit} {entries left : Table Text Value}
    {e : ConversionError} (h : change entries = .error e left) :
    change.result entries = .error e := by
  rw [result, h]

theorem ObjectM.result_seq (first next : ObjectM Unit) (entries : Table Text Value) :
    result (do first; next) entries = result first entries >>= result next := by
  show result (EStateM.bind first fun _ => next) entries = _
  unfold result EStateM.bind
  cases first entries <;> rfl

namespace HostValue

/-- The first entry of a mapping is set, and then the others are stored. -/
theorem storeEntriesIn_cons (room : Nat) (object : Table Text Value) (key : HostKey)
    (value : HostValue) (rest : List (HostKey × HostValue)) :
    storeEntriesIn room object ((key, value) :: rest) =
      (ObjectM.setIn room key value).result object >>= (storeEntriesIn room · rest) := by
  rw [storeEntriesIn]
  cases hkey : key.toText with
  | error e =>
      simp only [ObjectM.setIn, hkey]
      rfl
  | ok name =>
      cases hvalue : value.isAbsent with
      | true =>
          simp only [ObjectM.setIn, hkey, hvalue, if_true]
          rfl
      | false =>
          cases hv : value.convertIn room <;> simp only [ObjectM.setIn, hkey, hvalue, hv] <;> rfl

/-- To store the entries of a mapping is to set one after the other. -/
theorem storeEntries_eq_result (entries : List (HostKey × HostValue)) :
    ∀ object, storeEntries object entries = (ObjectM.setAll entries).result object := by
  induction entries with
  | nil => exact fun object => rfl
  | cons entry entries ih =>
      intro object
      show _ = ObjectM.result (do ObjectM.set entry.1 entry.2; ObjectM.setAll entries) object
      rw [storeEntries, storeEntriesIn_cons, ObjectM.result_seq]
      exact congrArg _ (funext ih)

theorem storePairs_eq_storeEntries {items : List HostValue} :
    ∀ {entries : List (HostKey × HostValue)}, items.mapM entry = .ok entries →
      ∀ object, storePairs object items = storeEntries object entries := by
  induction items with
  | nil =>
      intro entries h object
      cases h
      rfl
  | cons item items ih =>
      intro entries h object
      simp only [List.mapM_cons, except_bind_eq_ok] at h
      obtain ⟨⟨key, value⟩, hitem, rest, hitems, ⟨⟩⟩ := h
      rw [storePairs, hitem]
      show storeEntries object [(key, value)] >>= (storePairs · items) = _
      rw [storeEntries, storeEntries, storeEntriesIn_cons, storeEntriesIn_cons]
      cases (ObjectM.setIn entryRoom key value).result object with
      | error e => rfl
      | ok object => exact ih hitems object

/-- A host value brings along what it lists. -/
theorem bindings_of_lists {w : HostValue} {entries : List (HostKey × HostValue)}
    (h : w.Lists entries) : w.bindings = storeEntries [] entries := by
  have hpairs : ∀ {items : List HostValue}, w.opened = .list items ∨ w.opened = .tuple items →
      items.mapM entry = .ok entries → w.bindings = storeEntries [] entries := by
    intro items hopened hitems
    have hiterated : w.iterated? = some items := by
      rcases hopened with hopened | hopened <;> rw [iterated?, hopened]
    have hvoid : w.isVoid = items.isEmpty := by
      rcases hopened with hopened | hopened <;> simp only [isVoid, hopened, hiterated] <;> rfl
    have hbindings : w.bindings = if items.isEmpty then .ok [] else storePairs [] items := by
      rcases hopened with hopened | hopened <;>
        simp only [bindings, hopened, hvoid, hiterated]
    rw [hbindings]
    cases items with
    | nil =>
        cases hitems
        rfl
    | cons item items => exact storePairs_eq_storeEntries hitems []
  cases h with
  | mapping h => simp only [bindings, h]
  | list h hitems => exact hpairs (.inl h) hitems
  | tuple h hitems => exact hpairs (.inr h) hitems

end HostValue

namespace ObjectCall

/-- **What an object holds can be told from the calls.**  After any calls a new object holds each
key once, with the value that the last call about it has stored, in the order in which the keys
came in to stay.  A call is refused exactly if its key is no text or its value has no conversion,
and then it leaves the entries as they were.  To make an object from the entries of a mapping or
from pairs is to set one entry after the other. -/
theorem afterAll_leftBy :
    (∀ calls, LeftBy calls (afterAll calls)) ∧
    (∀ (call : ObjectCall) entries, call.Refused → ∃ e, call.run entries = .error e entries) ∧
    (∀ (call : ObjectCall) entries, ¬ call.Refused →
      ∃ changed, call.run entries = .ok () changed) ∧
    (∀ entries : List (HostKey × HostValue),
      (HostValue.mapping entries).convert = ((ObjectM.setAll entries).result []).map .object ∧
      HostValue.objectEntries entries [] = (ObjectM.setAll entries).result []) ∧
    ∀ (w : HostValue) entries, w.Lists entries →
      w.bindings = (ObjectM.setAll entries).result [] := by
  refine ⟨leftBy_afterAll, ?_, ?_, ?_, ?_⟩
  · intro call entries hrefused
    rcases run_cases call entries with ⟨name, w, hdoes, -⟩ | ⟨-, he⟩
    · exact absurd hdoes hrefused.not_does
    · exact he
  · intro call entries hcall
    rcases run_cases call entries with ⟨name, w, -, hrun⟩ | ⟨hrefused, -⟩
    · exact ⟨_, hrun⟩
    · exact absurd hrefused hcall
  · intro entries
    rw [← HostValue.storeEntries_eq_result]
    refine ⟨by rw [HostValue.convert, HostValue.convertIn]; rfl, ?_⟩
    rw [HostValue.objectEntries, List.append_nil]
    rfl
  · intro w entries h
    rw [← HostValue.storeEntries_eq_result]
    exact HostValue.bindings_of_lists h

/-- Two spellings of one key, a key that is taken out and set again, and a call that is refused. -/
example : afterAll [.set (.text "b") (.int 1), .set (.text "a") (.int 2),
      .set (.bytes [98]) (.list [.int 3, .absent]), .set (.text "b") (.list [.foreign "set"]),
      .set (.bytes [97]) .absent, .set (.text "c") (.int 4), .set (.text "a") (.int 5),
      .remove (.bytes [255]), .remove (.text "c")] =
    ([("b", .sequence [.int 3, .absent]), ("a", .int 5)] : Table Text Value) := by cbv

end ObjectCall

end Stencil
