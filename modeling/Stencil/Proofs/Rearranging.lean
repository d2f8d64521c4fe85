/-
# `Stencil.Proofs.Rearranging` — conversion keeps what is equal

A converted value is compared with other converted values, and with host values that have not
been converted.  Both comparisons see through what conversion changes: a sequence equals a list
as well as a tuple, an object equals another one or a mapping in whatever order the entries stand.

    HostValue.Plain        built from numbers, texts and bytes, by lists, by tuples and by
                           mappings from texts to values
    HostValue.Rearranged   the same up to lists in the place of tuples, tuples in the place of
                           lists, and the order of the entries of mappings

What is no number, as a float, does not equal itself and so is left out; no value may stand as an
item, but not in a mapping, where conversion drops it.

The containers of a host value may be nested so deep that the host has no more room to convert
it (`HostValue.maxDepth`).

**Proved here**, for every plain host value:

    conversion succeeds up to that depth and fails below, and what comes of it
      equals the host value itself and what comes of every rearranged one
                                             (`HostValue.exists_convert_of_plain`)
-/
import Stencil.Proofs.Conversion
import Stencil.Value.Equality

namespace Stencil

namespace HostValue

/-- A host value without host objects, in which mappings go from texts to values. -/
inductive Plain : HostValue → Prop where
  | absent : Plain .absent
  | bool (b : Bool) : Plain (.bool b)
  | int (i : Int) : Plain (.int i)
  | float {x : Binary64} (h : x.isNaN = false) : Plain (.float x)
  | text (t : Text) : Plain (.text t)
  | bytes (data : Bytes) : Plain (.bytes data)
  | buffer (data : Bytes) : Plain (.buffer data)
  | list {items : List HostValue} (h : ∀ w ∈ items, Plain w) : Plain (.list items)
  | tuple {items : List HostValue} (h : ∀ w ∈ items, Plain w) : Plain (.tuple items)
  | mapping {entries : List (HostKey × HostValue)} (hkeys : (Table.keys entries).Nodup)
      (hnames : ∀ e ∈ entries, ∃ name, e.1 = .text name)
      (hpresent : ∀ e ∈ entries, e.2.isAbsent = false) (h : ∀ e ∈ entries, Plain e.2) :
      Plain (.mapping entries)

/-- A list or a tuple of the given items. -/
def IsRow (w : HostValue) (items : List HostValue) : Prop := w = .list items ∨ w = .tuple items

mutual

/-- The same host value up to lists for tuples, tuples for lists, and the order of entries. -/
inductive Rearranged : HostValue → HostValue → Prop where
  | same {w : HostValue} : Rearranged w w
  | row {w w' : HostValue} {items items' : List HostValue} (hw : w.IsRow items)
      (hw' : w'.IsRow items') (h : RearrangedItems items items') : Rearranged w w'
  | mapping {entries between entries' : List (HostKey × HostValue)}
      (h : RearrangedEntries entries between) (hperm : between.Perm entries') :
      Rearranged (.mapping entries) (.mapping entries')

/-- Item by item. -/
inductive RearrangedItems : List HostValue → List HostValue → Prop where
  | nil : RearrangedItems [] []
  | cons {w w' : HostValue} {rest rest' : List HostValue} (h : Rearranged w w')
      (hrest : RearrangedItems rest rest') : RearrangedItems (w :: rest) (w' :: rest')

/-- Entry by entry, under the same keys. -/
inductive RearrangedEntries :
    List (HostKey × HostValue) → List (HostKey × HostValue) → Prop where
  | nil : RearrangedEntries [] []
  | cons {key : HostKey} {w w' : HostValue} {rest rest' : List (HostKey × HostValue)}
      (h : Rearranged w w') (hrest : RearrangedEntries rest rest') :
      RearrangedEntries ((key, w) :: rest) ((key, w') :: rest')

end

end HostValue

/-! ## Lists side by side -/

section Forall₂

variable {α β : Type} {R : α → β → Prop} {xs : List α} {ys : List β}

theorem exists_forall₂ (h : ∀ x ∈ xs, ∃ y, R x y) : ∃ ys, List.Forall₂ R xs ys := by
  induction xs with
  | nil => exact ⟨[], .nil⟩
  | cons x xs ih =>
      obtain ⟨hx, hxs⟩ := List.forall_mem_cons.1 h
      obtain ⟨y, hy⟩ := hx
      obtain ⟨ys, hys⟩ := ih hxs
      exact ⟨y :: ys, .cons hy hys⟩

theorem exists_of_mem_left (h : List.Forall₂ R xs ys) : ∀ x ∈ xs, ∃ y ∈ ys, R x y := by
  induction h with
  | nil => exact nofun
  | cons hxy _ ih =>
      refine List.forall_mem_cons.2 ⟨⟨_, List.mem_cons_self, hxy⟩, fun x hx => ?_⟩
      obtain ⟨y, hy, hR⟩ := ih x hx
      exact ⟨y, List.mem_cons_of_mem _ hy, hR⟩

theorem exists_of_mem_right (h : List.Forall₂ R xs ys) : ∀ y ∈ ys, ∃ x ∈ xs, R x y :=
  exists_of_mem_left (R := flip R) h.flip

end Forall₂

/-! ## Equality, item by item and entry by entry -/

theorem Binary64.equals_self {x : Binary64} (h : x.isNaN = false) : x.equals x = true := by
  cases hkind : x.kind with
  | nan => simp [isNaN, hkind] at h
  | infinite => simp [equals, hkind]
  | finite m q => cases m <;> simp [equals, hkind]

namespace Value

theorem equalItems_iff {xs : List Value} : ∀ {ys : List Value},
    equalItems xs ys = true ↔ List.Forall₂ (fun x y => x.equals y = true) xs ys := by
  induction xs with
  | nil =>
      intro ys
      cases ys <;> simp [equalItems]
  | cons x xs ih =>
      intro ys
      cases ys with
      | nil => simp [equalItems]
      | cons y ys => rw [equalItems, Bool.and_eq_true, List.forall₂_cons, ih]

theorem itemsEqualHost_iff {xs : List Value} : ∀ {ys : List HostValue},
    itemsEqualHost xs ys = true ↔ List.Forall₂ (fun x y => x.equalsHost y = true) xs ys := by
  induction xs with
  | nil =>
      intro ys
      cases ys <;> simp [itemsEqualHost]
  | cons x xs ih =>
      intro ys
      cases ys with
      | nil => simp [itemsEqualHost]
      | cons y ys => rw [itemsEqualHost, Bool.and_eq_true, List.forall₂_cons, ih]

theorem equalEntries_iff {xs : List (Text × Value)} {ys : Table Text Value} :
    equalEntries xs ys = true ↔
      ∀ e ∈ xs, ∃ y, ys.find? e.1 = some y ∧ e.2.equals y = true := by
  induction xs with
  | nil => simp [equalEntries]
  | cons e xs ih =>
      rw [equalEntries, Bool.and_eq_true, List.forall_mem_cons, ih]
      cases ys.find? e.1 <;> simp

theorem entriesEqualHost_iff {xs : List (Text × Value)} {ys : Table HostKey HostValue} :
    entriesEqualHost xs ys = true ↔
      ∀ e ∈ xs, ∃ y, ys.find? (.text e.1) = some y ∧ e.2.equalsHost y = true := by
  induction xs with
  | nil => simp [entriesEqualHost]
  | cons e xs ih =>
      rw [entriesEqualHost, Bool.and_eq_true, List.forall_mem_cons, ih]
      cases ys.find? (.text e.1) <;> simp

end Value

/-! ## Conversion of mappings -/

namespace HostValue

variable {room : Nat}

/-- What becomes of an entry of a mapping that is a text and a value. -/
structure Stored (room : Nat) (e : HostKey × HostValue) (f : Text × Value) : Prop where
  key : e.1 = .text f.1
  present : e.2.isAbsent = false
  converts : e.2.convertIn room = .ok f.2

theorem keys_eq_of_stored {entries : List (HostKey × HostValue)} {table : Table Text Value}
    (h : List.Forall₂ (Stored room) entries table) :
    Table.keys entries = table.keys.map HostKey.text := by
  induction h with
  | nil => rfl
  | cons he _ ih =>
      simp only [Table.keys, List.map_cons, he.key] at ih ⊢
      rw [ih]

theorem nodup_of_stored {entries : List (HostKey × HostValue)} {table : Table Text Value}
    (h : List.Forall₂ (Stored room) entries table) (hkeys : (Table.keys entries).Nodup) :
    table.keys.Nodup := by
  rw [keys_eq_of_stored h] at hkeys
  exact .of_map _ hkeys

/-- The first of the entries under texts is stored, or its value has no conversion. -/
theorem storeEntriesIn_text_cons {name : Text} {value : HostValue} (hpresent : value.isAbsent = false)
    (object : Table Text Value) (rest : List (HostKey × HostValue)) :
    storeEntriesIn room object ((.text name, value) :: rest) = (do
      let v ← value.convertIn room
      storeEntriesIn room (object.insert name v) rest) := by
  rw [storeEntriesIn]
  show (if value.isAbsent then _ else _) = _
  rw [hpresent]
  rfl

/-- New keys go last, in their order. -/
theorem storeEntriesIn_eq_append {entries : List (HostKey × HostValue)}
    {table : Table Text Value} (h : List.Forall₂ (Stored room) entries table) :
    ∀ object : Table Text Value, (Table.keys (object ++ table)).Nodup →
      storeEntriesIn room object entries = .ok (object ++ table) := by
  induction h with
  | nil =>
      intro object _
      rw [storeEntriesIn, List.append_nil]
  | @cons e f entries table he _ ih =>
      intro object hkeys
      have hnew : f.1 ∉ object.keys := by
        rw [Table.keys, List.map_append, List.map_cons] at hkeys
        exact fun hmem => (List.nodup_append.1 hkeys).2.2 _ hmem _ List.mem_cons_self rfl
      rw [List.append_cons] at hkeys ⊢
      have hrest := ih _ hkeys
      rw [← Table.insert_of_notMem hnew] at hrest ⊢
      obtain ⟨key, value⟩ := e
      obtain ⟨rfl, hpresent, hconverts⟩ := he
      rw [storeEntriesIn_text_cons hpresent, hconverts]
      exact hrest

theorem convertIn_mapping_of_stored {entries : List (HostKey × HostValue)}
    {table : Table Text Value} (hroom : containerCalls ≤ room)
    (h : List.Forall₂ (Stored (room - containerCalls)) entries table)
    (hkeys : (Table.keys entries).Nodup) :
    (mapping entries).convertIn room = .ok (.object table) :=
  convertIn_mapping_eq_ok.2 ⟨hroom, table,
    storeEntriesIn_eq_append h [] (nodup_of_stored h hkeys), rfl⟩

/-! ## What is rearranged -/

theorem Rearranged.isAbsent {w w' : HostValue} (h : Rearranged w w') :
    w'.isAbsent = w.isAbsent := by
  cases h with
  | same => rfl
  | row hw hw' _ => rcases hw with rfl | rfl <;> rcases hw' with rfl | rfl <;> rfl
  | mapping => rfl

theorem rearrangedItems_self : ∀ items : List HostValue, RearrangedItems items items
  | [] => .nil
  | _ :: rest => .cons .same (rearrangedItems_self rest)

theorem rearrangedEntries_self : ∀ entries : List (HostKey × HostValue),
    RearrangedEntries entries entries
  | [] => .nil
  | _ :: rest => .cons .same (rearrangedEntries_self rest)

theorem forall₂_of_rearrangedEntries {entries : List (HostKey × HostValue)} :
    ∀ {entries' : List (HostKey × HostValue)}, RearrangedEntries entries entries' →
      List.Forall₂ (fun e e' => e'.1 = e.1 ∧ Rearranged e.2 e'.2) entries entries' := by
  induction entries with
  | nil =>
      rintro _ ⟨⟩
      exact .nil
  | cons e entries ih =>
      rintro _ (_ | ⟨h, hrest⟩)
      exact .cons ⟨rfl, h⟩ (ih hrest)

/-- The value that a host value is converted to equals it, and what every rearranged one is
converted to. -/
structure Keeps (room : Nat) (w : HostValue) (v : Value) : Prop where
  converts : w.convertIn room = .ok v
  self : v.equalsHost w = true
  rearranged : ∀ w', Rearranged w w' → ∃ v', w'.convertIn room = .ok v' ∧ v.equals v' = true

/-- A value that is no row and no mapping can only be rearranged to itself. -/
theorem Keeps.of_leaf {w : HostValue} {v : Value} (hconverts : w.convertIn room = .ok v)
    (hself : v.equalsHost w = true) (hequals : v.equals v = true)
    (hleaf : ¬ ∃ items, w = .list items ∨ w = .tuple items)
    (hmapping : ¬ ∃ entries, w = .mapping entries) : Keeps room w v where
  converts := hconverts
  self := hself
  rearranged w' h := by
    cases h with
    | same => exact ⟨v, hconverts, hequals⟩
    | row hw => exact absurd ⟨_, hw⟩ hleaf
    | mapping => exact absurd ⟨_, rfl⟩ hmapping

theorem IsRow.convertIn {w : HostValue} {items : List HostValue} (h : w.IsRow items) :
    w.convertIn room = (list items).convertIn room := by
  rcases h with rfl | rfl
  · rfl
  · exact convertIn_tuple items

theorem IsRow.unique {w : HostValue} {items items' : List HostValue} (h : w.IsRow items)
    (h' : w.IsRow items') : items = items' := by
  rcases h with rfl | rfl <;> rcases h' with h' | h' <;> cases h' <;> rfl

theorem IsRow.exists_items {w w' : HostValue} {items : List HostValue} (hw : w.IsRow items)
    (h : Rearranged w w') : ∃ items', w'.IsRow items' ∧ RearrangedItems items items' := by
  cases h with
  | same => exact ⟨items, hw, rearrangedItems_self items⟩
  | row hw₁ hw' h =>
      cases hw.unique hw₁
      exact ⟨_, hw', h⟩
  | mapping => rcases hw with hw | hw <;> cases hw

theorem exists_entries_of_mapping {entries : List (HostKey × HostValue)} {w' : HostValue}
    (h : Rearranged (.mapping entries) w') : ∃ between entries', w' = .mapping entries' ∧
      RearrangedEntries entries between ∧ between.Perm entries' := by
  cases h with
  | same => exact ⟨entries, entries, rfl, rearrangedEntries_self entries, .refl _⟩
  | row hw => rcases hw with hw | hw <;> cases hw
  | mapping h hperm => exact ⟨_, _, rfl, h, hperm⟩

/-! ## Rows -/

theorem exists_values_of_rearranged {items : List HostValue} {values : List Value}
    (h : List.Forall₂ (Keeps room) items values) : ∀ {items' : List HostValue},
    RearrangedItems items items' → ∃ values',
      List.Forall₂ (fun w v => w.convertIn room = .ok v) items' values' ∧
        List.Forall₂ (fun v v' => v.equals v' = true) values values' := by
  induction h with
  | nil =>
      rintro _ ⟨⟩
      exact ⟨[], .nil, .nil⟩
  | cons hkeeps _ ih =>
      rintro _ (_ | ⟨hfirst, hrest⟩)
      obtain ⟨v', hv', hequals⟩ := hkeeps.rearranged _ hfirst
      obtain ⟨values', hvalues', hall⟩ := ih hrest
      exact ⟨v' :: values', .cons hv' hvalues', .cons hequals hall⟩

theorem exists_keeps_row {w : HostValue} {items : List HostValue} (hw : w.IsRow items)
    (hroom : containerCalls ≤ room)
    (h : ∀ item ∈ items, ∃ v, Keeps (room - containerCalls) item v) : ∃ v, Keeps room w v := by
  obtain ⟨values, hvalues⟩ := exists_forall₂ h
  have hself : Value.itemsEqualHost values items = true :=
    Value.itemsEqualHost_iff.2 (hvalues.imp fun _ _ hkeeps => hkeeps.self).flip
  refine ⟨.sequence values, ?_, ?_, ?_⟩
  · rw [hw.convertIn]
    exact convertIn_list_eq_ok.2
      ⟨hroom, values, hvalues.imp fun _ _ hkeeps => hkeeps.converts, rfl⟩
  · rcases hw with rfl | rfl <;> rw [Value.equalsHost] <;> exact hself
  · intro w' h'
    obtain ⟨items', hw', hitems⟩ := hw.exists_items h'
    obtain ⟨values', hconverts, hequals⟩ := exists_values_of_rearranged hvalues hitems
    refine ⟨.sequence values', ?_, ?_⟩
    · rw [hw'.convertIn]
      exact convertIn_list_eq_ok.2 ⟨hroom, values', hconverts, rfl⟩
    · rw [Value.equals]
      exact Value.equalItems_iff.2 hequals

/-! ## Mappings -/

/-- What becomes of an entry of a mapping, and of every rearranged one. -/
structure KeepsEntry (room : Nat) (e : HostKey × HostValue) (f : Text × Value) : Prop where
  key : e.1 = .text f.1
  present : e.2.isAbsent = false
  value : Keeps room e.2 f.2

theorem KeepsEntry.stored {e : HostKey × HostValue} {f : Text × Value} (h : KeepsEntry room e f) :
    Stored room e f := ⟨h.key, h.present, h.value.converts⟩

theorem KeepsEntry.exists_stored {e e' : HostKey × HostValue} {f : Text × Value}
    (h : KeepsEntry room e f) (hkey : e'.1 = e.1) (hvalue : Rearranged e.2 e'.2) :
    ∃ v, Stored room e' (f.1, v) ∧ f.2.equals v = true := by
  obtain ⟨v, hconverts, hequals⟩ := h.value.rearranged _ hvalue
  exact ⟨v, ⟨hkey.trans h.key, hvalue.isAbsent.trans h.present, hconverts⟩, hequals⟩

theorem Stored.unique {e : HostKey × HostValue} {f f' : Text × Value} (h : Stored room e f)
    (h' : Stored room e f') : f = f' := by
  have hkey := h.key.symm.trans h'.key
  have hvalue := h.converts.symm.trans h'.converts
  injection hkey with hkey
  injection hvalue with hvalue
  exact Prod.ext hkey hvalue

/-- The entries of a rearranged mapping are stored in some order, and each holds a value equal to
the one that is stored for the first mapping. -/
theorem exists_table_of_rearranged {entries between entries' : List (HostKey × HostValue)}
    {table : Table Text Value} (htable : List.Forall₂ (KeepsEntry room) entries table)
    (h : RearrangedEntries entries between) (hperm : between.Perm entries') :
    ∃ table', List.Forall₂ (Stored room) entries' table' ∧
      ∀ f ∈ table, ∃ v, (f.1, v) ∈ table' ∧ f.2.equals v = true := by
  have hentries := forall₂_of_rearrangedEntries h
  have hstored : ∀ e' ∈ entries', ∃ f, Stored room e' f := by
    intro e' he'
    obtain ⟨e, he, hkey, hvalue⟩ := exists_of_mem_right hentries e' (hperm.mem_iff.2 he')
    obtain ⟨f, -, hf⟩ := exists_of_mem_left htable e he
    obtain ⟨v, hv, -⟩ := hf.exists_stored hkey hvalue
    exact ⟨_, hv⟩
  obtain ⟨table', htable'⟩ := exists_forall₂ hstored
  refine ⟨table', htable', fun f hf => ?_⟩
  obtain ⟨e, he, hkeeps⟩ := exists_of_mem_right htable f hf
  obtain ⟨e', he', hkey, hvalue⟩ := exists_of_mem_left hentries e he
  obtain ⟨f', hf', hstored'⟩ := exists_of_mem_left htable' e' (hperm.mem_iff.1 he')
  obtain ⟨v, hv, hequals⟩ := hkeeps.exists_stored hkey hvalue
  cases hv.unique hstored'
  exact ⟨v, hf', hequals⟩

theorem keys_perm_of_rearranged {entries between entries' : List (HostKey × HostValue)}
    (h : RearrangedEntries entries between) (hperm : between.Perm entries') :
    (Table.keys entries).Perm (Table.keys entries') := by
  have hkeys : List.Forall₂ (· = ·) (Table.keys entries) (Table.keys between) := by
    refine List.forall₂_map_left_iff.2 (List.forall₂_map_right_iff.2 ?_)
    exact (forall₂_of_rearrangedEntries h).imp fun _ _ he => he.1.symm
  rw [List.forall₂_eq_eq_eq] at hkeys
  rw [hkeys]
  exact hperm.map _

theorem exists_keeps_mapping {entries : List (HostKey × HostValue)}
    (hroom : containerCalls ≤ room) (hkeys : (Table.keys entries).Nodup)
    (hnames : ∀ e ∈ entries, ∃ name, e.1 = .text name)
    (hpresent : ∀ e ∈ entries, e.2.isAbsent = false)
    (h : ∀ e ∈ entries, ∃ v, Keeps (room - containerCalls) e.2 v) :
    ∃ v, Keeps room (.mapping entries) v := by
  have hkept : ∀ e ∈ entries, ∃ f, KeepsEntry (room - containerCalls) e f := by
    intro e he
    obtain ⟨name, hname⟩ := hnames e he
    obtain ⟨v, hv⟩ := h e he
    exact ⟨(name, v), hname, hpresent e he, hv⟩
  obtain ⟨table, htable⟩ := exists_forall₂ hkept
  have hstored := htable.imp fun _ _ hf => hf.stored
  refine ⟨.object table, convertIn_mapping_of_stored hroom hstored hkeys, ?_, ?_⟩
  · rw [Value.equalsHost, htable.length_eq, beq_self_eq_true, Bool.true_and]
    refine Value.entriesEqualHost_iff.2 fun f hf => ?_
    obtain ⟨⟨key, w⟩, he, hkeeps⟩ := exists_of_mem_right htable f hf
    cases hkeeps.key
    exact ⟨w, Table.find?_of_mem hkeys he, hkeeps.value.self⟩
  · intro w' h'
    obtain ⟨between, entries', rfl, hbetween, hperm⟩ := exists_entries_of_mapping h'
    obtain ⟨table', htable', hequals⟩ := exists_table_of_rearranged htable hbetween hperm
    have hkeys' := (keys_perm_of_rearranged hbetween hperm).nodup_iff.1 hkeys
    have hlength : table.length = table'.length := by
      rw [← htable.length_eq, ← htable'.length_eq, (forall₂_of_rearrangedEntries hbetween).length_eq,
        hperm.length_eq]
    refine ⟨.object table', convertIn_mapping_of_stored hroom htable' hkeys', ?_⟩
    rw [Value.equals, hlength, beq_self_eq_true, Bool.true_and]
    refine Value.equalEntries_iff.2 fun f hf => ?_
    obtain ⟨v, hv, heq⟩ := hequals f hf
    exact ⟨v, Table.find?_of_mem (nodup_of_stored htable' hkeys') hv, heq⟩

theorem exists_keeps_of_plain (w : HostValue) :
    ∀ room, w.Plain → containerCalls * w.depth ≤ room → ∃ v, Keeps room w v := by
  induction w using induction_parts with
  | whole w ih =>
      intro room hplain hroom
      cases hplain with
      | list h =>
          obtain ⟨hcalls, hleft⟩ := room_for_parts (depth.eq_def _ ▸ hroom)
          exact exists_keeps_row (.inl rfl) hcalls fun w hw =>
            ih w hw _ (h w hw) (hleft _ (depth_le_of_mem_items w hw))
      | tuple h =>
          obtain ⟨hcalls, hleft⟩ := room_for_parts (depth.eq_def _ ▸ hroom)
          exact exists_keeps_row (.inr rfl) hcalls fun w hw =>
            ih w hw _ (h w hw) (hleft _ (depth_le_of_mem_items w hw))
      | mapping hkeys hnames hpresent h =>
          obtain ⟨hcalls, hleft⟩ := room_for_parts (depth.eq_def _ ▸ hroom)
          exact exists_keeps_mapping hcalls hkeys hnames hpresent fun e he =>
            ih e.2 (List.mem_map_of_mem he) _ (h e he) (hleft _ (depth_le_of_mem_entries e he))
      | absent => exact ⟨.absent, .of_leaf rfl rfl rfl (by simp) (by simp)⟩
      | bool b =>
          have hself : Value.sameNumber (some (.ofBool b)) (some (.ofBool b)) = true :=
            beq_self_eq_true _
          exact ⟨.bool b, .of_leaf rfl hself hself (by simp) (by simp)⟩
      | int i =>
          have hself : Value.sameNumber (some (.int i)) (some (.int i)) = true :=
            beq_self_eq_true _
          exact ⟨.int i, .of_leaf rfl hself hself (by simp) (by simp)⟩
      | @float x h =>
          have hself : Value.sameNumber (some (.float x)) (some (.float x)) = true :=
            Binary64.equals_self h
          exact ⟨.float x, .of_leaf rfl hself hself (by simp) (by simp)⟩
      | text t =>
          have hself : (t == t) = true := beq_self_eq_true t
          exact ⟨.text t, .of_leaf rfl hself hself (by simp) (by simp)⟩
      | bytes data | buffer data =>
          have hself : (data == data) = true := beq_self_eq_true data
          exact ⟨.bytes data, .of_leaf rfl hself hself (by simp) (by simp)⟩

/-! ## What is nested too deep -/

/-- If one item fails to convert, then by the first that does. -/
theorem convertItems_of_deep {items : List HostValue} (hplain : ∀ w ∈ items, w.Plain)
    (h : ∀ w ∈ items, room < containerCalls * w.depth → w.convertIn room = .error .nestingTooDeep)
    (hroom : room < containerCalls * depthOfItems items) :
    convertItems room items = .error .nestingTooDeep := by
  induction items with
  | nil => exact absurd hroom (Nat.not_lt_zero room)
  | cons w items ih =>
      obtain ⟨hfirst, hrest⟩ := List.forall_mem_cons.1 h
      rw [convertItems]
      rcases lt_or_ge room (containerCalls * w.depth) with hdeep | hdeep
      · rw [hfirst hdeep]
        rfl
      · obtain ⟨v, hkeeps⟩ := exists_keeps_of_plain w room (hplain w List.mem_cons_self) hdeep
        rw [depthOfItems, ← Nat.mul_max_mul_left] at hroom
        rw [hkeeps.converts, ih (fun w hw => hplain w (List.mem_cons_of_mem _ hw)) hrest (by omega)]
        rfl

theorem storeEntriesIn_of_deep {entries : List (HostKey × HostValue)}
    (hnames : ∀ e ∈ entries, ∃ name, e.1 = .text name)
    (hpresent : ∀ e ∈ entries, e.2.isAbsent = false) (hplain : ∀ e ∈ entries, e.2.Plain)
    (h : ∀ e ∈ entries, room < containerCalls * e.2.depth →
      e.2.convertIn room = .error .nestingTooDeep)
    (hroom : room < containerCalls * depthOfEntries entries) :
    ∀ object, storeEntriesIn room object entries = .error .nestingTooDeep := by
  induction entries with
  | nil => exact absurd hroom (Nat.not_lt_zero room)
  | cons e entries ih =>
      obtain ⟨key, w⟩ := e
      obtain ⟨name, rfl⟩ := hnames _ List.mem_cons_self
      obtain ⟨hfirst, hrest⟩ := List.forall_mem_cons.1 h
      intro object
      rw [storeEntriesIn_text_cons (hpresent _ List.mem_cons_self)]
      rcases lt_or_ge room (containerCalls * w.depth) with hdeep | hdeep
      · rw [hfirst hdeep]
        rfl
      · obtain ⟨v, hkeeps⟩ := exists_keeps_of_plain w room (hplain _ List.mem_cons_self) hdeep
        rw [depthOfEntries, ← Nat.mul_max_mul_left] at hroom
        rw [hkeeps.converts]
        exact ih (fun e he => hnames e (List.mem_cons_of_mem _ he))
          (fun e he => hpresent e (List.mem_cons_of_mem _ he))
          (fun e he => hplain e (List.mem_cons_of_mem _ he)) hrest (by omega) _

/-- A container has no conversion where there is no room for it, or none for its parts. -/
theorem enter_bind_eq_error {α : Type} {f : Nat → Except ConversionError α}
    (h : containerCalls ≤ room → f (room - containerCalls) = .error .nestingTooDeep) :
    (enter containerCalls room >>= f) = .error .nestingTooDeep := by
  unfold enter
  split
  next => rfl
  next hroom => exact h (Nat.not_lt.1 hroom)

theorem convertIn_of_deep (w : HostValue) : ∀ room, w.Plain → room < containerCalls * w.depth →
    w.convertIn room = .error .nestingTooDeep := by
  induction w using induction_parts with
  | whole w ih =>
      intro room hplain hroom
      have hrow : ∀ {items}, w.IsRow items → w.parts = items → (∀ w ∈ items, w.Plain) →
          room < containerCalls * (depthOfItems items + 1) →
          w.convertIn room = .error .nestingTooDeep := by
        rintro _ hw rfl hitems hroom
        rw [Nat.mul_succ] at hroom
        rw [hw.convertIn, HostValue.convertIn]
        refine enter_bind_eq_error fun hcalls => ?_
        rw [convertItems_of_deep hitems (fun w hw => ih w hw _ (hitems w hw)) (by omega)]
        rfl
      cases hplain with
      | list h => exact hrow (.inl rfl) rfl h hroom
      | tuple h => exact hrow (.inr rfl) rfl h hroom
      | @mapping entries hkeys hnames hpresent h =>
          rw [depth, Nat.mul_succ] at hroom
          rw [HostValue.convertIn]
          refine enter_bind_eq_error fun hcalls => ?_
          rw [storeEntriesIn_of_deep hnames hpresent h
            (fun e he => ih e.2 (List.mem_map_of_mem he) _ (h e he)) (by omega)]
          rfl
      | _ => exact absurd hroom (Nat.not_lt_zero room)

/-- **Conversion keeps what is equal.**  A plain host value has a conversion, if its containers
are not nested too deep.  What comes of it equals the host value as it was, and it equals what
comes of every host value that differs from it only by lists for tuples, tuples for lists, and
the order of the entries of mappings. -/
theorem exists_convert_of_plain {w : HostValue} (h : w.Plain) :
    (w.depth ≤ maxDepth → ∃ v, w.convert = .ok v ∧ v.equalsHost w = true ∧
      ∀ w', w.Rearranged w' → ∃ v', w'.convert = .ok v' ∧ v.equals v' = true) ∧
    (maxDepth < w.depth → w.convert = .error .nestingTooDeep) := by
  constructor
  · intro hdepth
    obtain ⟨v, hkeeps⟩ := exists_keeps_of_plain w callRoom h (calls_le_of_le_maxDepth hdepth)
    exact ⟨v, hkeeps.converts, hkeeps.self, hkeeps.rearranged⟩
  · intro hdepth
    have hroom : callRoom < w.depth * containerCalls := Nat.lt_mul_of_div_lt hdepth (by decide)
    exact convertIn_of_deep w callRoom h (Nat.mul_comm .. ▸ hroom)

/-- A list of a mapping with a tuple in it, in which a mutable byte string and no value stand. -/
def order : HostValue := .list [.mapping [(.text "paid", .bool true),
  (.text "lines", .tuple [.buffer [120], .absent, .float ⟨0x3FF8000000000000⟩])]]

/-- The same with a tuple for the list, a list for the tuple, and the entries turned round. -/
def turned : HostValue := .tuple [.mapping [
  (.text "lines", .list [.buffer [120], .absent, .float ⟨0x3FF8000000000000⟩]),
  (.text "paid", .bool true)]]

theorem exists_convert_of_plain_order :
    order.Plain ∧ order.depth ≤ maxDepth ∧ order.Rearranged turned ∧
      ∃ v v', order.convert = .ok v ∧ v.equalsHost order = true ∧
        turned.convert = .ok v' ∧ v.equals v' = true := by
  have hlines : (HostValue.tuple [.buffer [120], .absent, .float ⟨0x3FF8000000000000⟩]).Plain := by
    refine .tuple ?_
    simp only [List.forall_mem_cons]
    exact ⟨.buffer _, .absent, .float (by decide), nofun⟩
  have hplain : order.Plain := by
    refine .list (List.forall_mem_singleton.2 (.mapping (by decide) ?_ ?_ ?_)) <;>
      simp only [List.forall_mem_cons]
    · exact ⟨⟨_, rfl⟩, ⟨_, rfl⟩, nofun⟩
    · exact ⟨rfl, rfl, nofun⟩
    · exact ⟨.bool true, hlines, nofun⟩
  have hrearranged : order.Rearranged turned := by
    have hrow : ∀ items, Rearranged (.tuple items) (.list items) :=
      fun items => .row (.inr rfl) (.inl rfl) (rearrangedItems_self items)
    exact .row (.inl rfl) (.inr rfl)
      (.cons (.mapping (.cons .same (.cons (hrow _) .nil)) (.swap ..)) .nil)
  have hdepth : order.depth ≤ maxDepth := by decide
  obtain ⟨v, hconverts, hself, hothers⟩ := (exists_convert_of_plain hplain).1 hdepth
  obtain ⟨v', hconverts', hequals⟩ := hothers turned hrearranged
  exact ⟨hplain, hdepth, hrearranged, v, v', hconverts, hself, hconverts', hequals⟩

/-- Lists within lists, each behind an empty mapping. -/
def nest : Nat → HostValue
  | 0 => .int 1
  | n + 1 => .list [.mapping [], nest n]

theorem nest_plain (n : Nat) : (nest n).Plain := by
  induction n with
  | zero => exact .int 1
  | succ n ih =>
      refine .list (List.forall_mem_cons.2 ⟨?_, List.forall_mem_singleton.2 ih⟩)
      exact .mapping .nil nofun nofun nofun

theorem depth_nest (n : Nat) : n ≤ (nest n).depth := by
  induction n with
  | zero => exact Nat.zero_le _
  | succ n ih =>
      have hinner : (nest n).depth ≤ depthOfItems [.mapping [], nest n] :=
        depth_le_of_mem_items _ (List.mem_cons_of_mem _ List.mem_cons_self)
      rw [nest, depth]
      omega

/-- A plain list may have no conversion. -/
theorem nest_no_conversion :
    (nest 250).Plain ∧ (nest 250).convert = .error .nestingTooDeep := by
  refine ⟨nest_plain 250, convertIn_of_deep _ _ (nest_plain 250) ?_⟩
  exact Nat.lt_of_lt_of_le (by decide) (Nat.mul_le_mul_left containerCalls (depth_nest 250))

end HostValue

end Stencil
