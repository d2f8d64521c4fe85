/-
# `Stencil.Proofs.Following` — where a path leads

A path begins at the value that a context shows under a name, and goes from there by what
each of its segments selects (`Value.Selects`): of an object the entry under that key, of a
sequence the element at that decimal index, and below anything else no value.  Whatever is
missing on the way is no error, but no value: a name without a binding, a key that the object
does not have, an index beyond the end of the sequence, a segment that is no index.

There is one exception.  An index is read from its digits, of which there must not be too
many (`maxDigits`).  At a sequence a segment of more digits is an error, also where the
element is there, as zeros in front are digits too.

    one segment:   what is selected, or a long index    (`Selects.member_eq`, `LongIndex.member_eq`)
    a path:        by induction on its segments         (`Value.follow_eq_ok`, `follow_eq_error`)

**Proved here**, for every context and every path:

    a path is followed to where it leads, unless it meets a long index
      on the way, and only then it is an error             (`Context.resolve_iff`)
-/
import Mathlib.Data.Nat.Digits.Defs
import Stencil.Proofs.Running

namespace Stencil

/-- The segment is written with ASCII digits, at least one, and they spell the number. -/
def IsIndex (segment : String) (n : Nat) : Prop :=
  segment.toList ≠ [] ∧ (∀ c ∈ segment.toList, '0' ≤ c ∧ c ≤ '9') ∧
    n = Nat.ofDigits 10 (segment.toList.reverse.map fun c => c.toNat - '0'.toNat)

namespace Value

/-- What a segment selects in a value. -/
inductive Selects : Value → String → Value → Prop where
  | entry {entries : List (Text × Value)} {key : String} {v : Value}
      (h : entries.lookup (Text.whole key) = some v) : Selects (.object entries) key v
  | noEntry {entries : List (Text × Value)} {key : String}
      (h : entries.lookup (Text.whole key) = none) : Selects (.object entries) key .absent
  | element {items : List Value} {segment : String} {n : Nat} {v : Value}
      (hn : IsIndex segment n) (h : items[n]? = some v) : Selects (.sequence items) segment v
  | beyond {items : List Value} {segment : String} {n : Nat}
      (hn : IsIndex segment n) (h : items.length ≤ n) : Selects (.sequence items) segment .absent
  | noIndex {items : List Value} {segment : String}
      (h : ∀ n, ¬ IsIndex segment n) : Selects (.sequence items) segment .absent
  | below {v : Value} {segment : String} (h : v.size? = none) : Selects v segment .absent

/-- Where the segments lead from a value, one after the other. -/
inductive LeadsTo : Value → List String → Value → Prop where
  | here {v : Value} : LeadsTo v [] v
  | step {v w u : Value} {segment : String} {rest : List String}
      (h : v.Selects segment w) (hrest : LeadsTo w rest u) : LeadsTo v (segment :: rest) u

/-- The value is a sequence, and the segment an index of too many digits. -/
def LongIndex (v : Value) (segment : String) : Prop :=
  (∃ items, v = .sequence items) ∧ (∃ n, IsIndex segment n) ∧ maxDigits < segment.length

/-- Somewhere on its way the path comes to a sequence with an index of too many digits. -/
inductive MeetsLongIndex : Value → List String → Prop where
  | here {v : Value} {segment : String} {rest : List String} (h : v.LongIndex segment) :
      MeetsLongIndex v (segment :: rest)
  | later {v w : Value} {segment : String} {rest : List String}
      (h : v.Selects segment w) (hrest : MeetsLongIndex w rest) : MeetsLongIndex v (segment :: rest)

end Value

/-- What a context shows under a name: the innermost binding, be it to no value, and no value
where there is none. -/
inductive Context.Shows : Context → String → Value → Prop where
  | overlay {c : Context} {name : String} {v : Value} : Shows (.overlay name v c) name v
  | outer {c : Context} {own name : String} {v w : Value} (hne : own ≠ name)
      (h : Shows c name v) : Shows (.overlay own w c) name v
  | entry {bindings : Table Text Value} {name : String} {v : Value}
      (h : bindings.lookup (Text.whole name) = some v) : Shows (.ofTable bindings) name v
  | unbound {bindings : Table Text Value} {name : String}
      (h : bindings.lookup (Text.whole name) = none) : Shows (.ofTable bindings) name .absent

/-- The first entry under a key. -/
theorem Table.find?_eq_lookup {κ α : Type} [DecidableEq κ] (t : Table κ α) (key : κ) :
    t.find? key = List.lookup key t := by
  induction t with
  | nil => rfl
  | cons entry t ih =>
      by_cases h : entry.1 = key
      · rw [find?, if_pos h, ← h, List.lookup_cons_self]
      · have hne : (key == entry.1) = false := beq_eq_false_iff_ne.2 (Ne.symm h)
        rw [find?, if_neg h, ih, List.lookup_cons, hne]

/-! ## Indexes -/

namespace Integer

theorem isDigit_iff (c : Char) : c.isDigit = true ↔ '0' ≤ c ∧ c ≤ '9' := by
  rw [Char.isDigit, Bool.and_eq_true, decide_eq_true_eq, decide_eq_true_eq]
  rfl

theorem ofDigits_eq (digits : List Nat) : ofDigits digits = Nat.ofDigits 10 digits.reverse := by
  rw [ofDigits, ofLowDigits_eq_foldr, Nat.ofDigits_eq_foldr]
  rfl

theorem asciiDigits?_eq_some {segment : String} {digits : List Nat} :
    asciiDigits? segment = some digits ↔
      (segment.toList ≠ [] ∧ ∀ c ∈ segment.toList, '0' ≤ c ∧ c ≤ '9') ∧
        digits = segment.toList.map fun c => c.toNat - '0'.toNat := by
  rw [asciiDigits?, Option.ite_none_left_eq_some, Bool.or_eq_true, not_or, List.isEmpty_iff,
    Bool.not_eq_true', Bool.not_eq_false, List.all_eq_true, Option.some_inj]
  simp only [isDigit_iff]
  exact and_congr_right fun _ => eq_comm

/-- The digits of an index spell it, and there is one for each of its characters. -/
theorem isIndex_of_asciiDigits? {segment : String} {digits : List Nat}
    (h : asciiDigits? segment = some digits) :
    IsIndex segment (ofDigits digits) ∧ digits.length = segment.length := by
  obtain ⟨⟨hne, hdigits⟩, rfl⟩ := asciiDigits?_eq_some.1 h
  refine ⟨⟨hne, hdigits, ?_⟩, ?_⟩
  · rw [ofDigits_eq, List.map_reverse]
  · rw [List.length_map, String.length_toList]

theorem not_isIndex_of_asciiDigits? {segment : String} (h : asciiDigits? segment = none) (n : Nat) :
    ¬ IsIndex segment n := by
  rintro ⟨hne, hdigits, -⟩
  have hsome := asciiDigits?_eq_some.2 ⟨⟨hne, hdigits⟩, rfl⟩
  rw [h] at hsome
  cases hsome

end Integer

theorem IsIndex.unique {segment : String} {m n : Nat} (hm : IsIndex segment m)
    (hn : IsIndex segment n) : m = n :=
  hm.2.2.trans hn.2.2.symm

/-- Every index has its digits. -/
theorem IsIndex.digits {segment : String} {n : Nat} (h : IsIndex segment n) :
    ∃ digits, Integer.asciiDigits? segment = some digits ∧ Integer.ofDigits digits = n ∧
      digits.length = segment.length := by
  cases hdigits : Integer.asciiDigits? segment with
  | none => exact absurd h (Integer.not_isIndex_of_asciiDigits? hdigits n)
  | some digits =>
      obtain ⟨hindex, hlength⟩ := Integer.isIndex_of_asciiDigits? hdigits
      exact ⟨digits, rfl, hindex.unique h, hlength⟩

/-! ## One segment -/

namespace Value

theorem short_of_not_longIndex {items : List Value} {segment : String} {n : Nat}
    (hn : IsIndex segment n) (hlong : ¬ LongIndex (.sequence items) segment) :
    segment.length ≤ maxDigits :=
  Nat.le_of_not_lt fun h => hlong ⟨⟨items, rfl⟩, ⟨n, hn⟩, h⟩

/-- The element of a sequence at an index that is not too long. -/
theorem member_sequence {items : List Value} {segment : String} {n : Nat} (hn : IsIndex segment n)
    (hshort : segment.length ≤ maxDigits) :
    member (.sequence items) segment = .ok (items[n]?.getD .absent) := by
  obtain ⟨digits, hdigits, rfl, hlength⟩ := hn.digits
  simp only [member, hdigits, Integer.naturalOfDigits, hlength, if_pos hshort, Except.map]

/-- Every segment selects something in every value, be it no value. -/
theorem exists_selects (v : Value) (segment : String) : ∃ w, v.Selects segment w := by
  cases v with
  | object entries =>
      cases h : entries.lookup (Text.whole segment) with
      | none => exact ⟨_, .noEntry h⟩
      | some w => exact ⟨w, .entry h⟩
  | sequence items =>
      by_cases hindex : ∃ n, IsIndex segment n
      · obtain ⟨n, hn⟩ := hindex
        by_cases hlt : n < items.length
        · exact ⟨items[n], .element hn (List.getElem?_eq_getElem hlt)⟩
        · exact ⟨_, .beyond hn (Nat.le_of_not_lt hlt)⟩
      · exact ⟨_, .noIndex fun n hn => hindex ⟨n, hn⟩⟩
  | _ => exact ⟨_, .below rfl⟩

/-- A segment that is no long index is followed to what it selects. -/
theorem Selects.member_eq {v w : Value} {segment : String} (h : v.Selects segment w)
    (hlong : ¬ v.LongIndex segment) : v.member segment = .ok w := by
  cases h with
  | entry h => rw [member, Table.find?_eq_lookup, h, Option.getD_some]
  | noEntry h => rw [member, Table.find?_eq_lookup, h, Option.getD_none]
  | @element items _ n _ hn h =>
      rw [member_sequence hn (short_of_not_longIndex hn hlong), h, Option.getD_some]
  | @beyond items _ n hn h =>
      rw [member_sequence hn (short_of_not_longIndex hn hlong), List.getElem?_eq_none h,
        Option.getD_none]
  | noIndex h =>
      cases hdigits : Integer.asciiDigits? segment with
      | none => simp only [member, hdigits]
      | some digits => exact absurd (Integer.isIndex_of_asciiDigits? hdigits).1 (h _)
  | below h => cases v <;> first | rfl | cases h

/-- A long index is an error. -/
theorem LongIndex.member_eq {v : Value} {segment : String} (h : v.LongIndex segment) :
    ∃ e, v.member segment = .error e := by
  obtain ⟨⟨items, rfl⟩, ⟨n, hn⟩, hlong⟩ := h
  obtain ⟨digits, hdigits, -, hlength⟩ := hn.digits
  refine ⟨⟨some digits.length⟩, ?_⟩
  rw [member, hdigits]
  simp only [Integer.naturalOfDigits, hlength, if_neg (Nat.not_le.2 hlong), Except.map]

/-! ## A path -/

/-- Every path leads somewhere, be it to no value. -/
theorem exists_leadsTo (v : Value) (segments : List String) : ∃ w, v.LeadsTo segments w := by
  induction segments generalizing v with
  | nil => exact ⟨v, .here⟩
  | cons segment rest ih =>
      obtain ⟨w, hw⟩ := v.exists_selects segment
      obtain ⟨u, hu⟩ := ih w
      exact ⟨u, .step hw hu⟩

/-- One step of a path: from a value that is there, to what its first segment selects. -/
theorem follow_cons {v w : Value} {segment : String} (rest : List String)
    (h : v.member segment = .ok w) : v.follow (segment :: rest) = w.follow rest := by
  cases v with
  | absent =>
      cases h
      cases rest <;> rfl
  | _ => simp only [follow, isAbsent, Bool.false_eq_true, if_false, h]

/-- A path without a long index is followed to where it leads. -/
theorem LeadsTo.follow_eq {v w : Value} {segments : List String} (h : v.LeadsTo segments w)
    (hlong : ¬ v.MeetsLongIndex segments) : v.follow segments = .ok w := by
  induction h with
  | here => rfl
  | step h _ ih =>
      rw [follow_cons _ (h.member_eq fun hl => hlong (.here hl))]
      exact ih fun hl => hlong (.later h hl)

theorem LongIndex.follow_eq {v : Value} {segment : String} (h : v.LongIndex segment)
    (rest : List String) : ∃ e, v.follow (segment :: rest) = .error e := by
  obtain ⟨e, he⟩ := h.member_eq
  obtain ⟨⟨items, rfl⟩, -⟩ := h
  exact ⟨e, by simp only [follow, isAbsent, Bool.false_eq_true, if_false, he]⟩

/-- A long index on the way is an error. -/
theorem MeetsLongIndex.follow_eq {v : Value} {segments : List String}
    (h : v.MeetsLongIndex segments) : ∃ e, v.follow segments = .error e := by
  induction h with
  | here h => exact h.follow_eq _
  | @later v w segment rest h _ ih =>
      by_cases hl : v.LongIndex segment
      · exact hl.follow_eq rest
      · rwa [follow_cons rest (h.member_eq hl)]

theorem follow_eq_ok {v w : Value} {segments : List String} :
    v.follow segments = .ok w ↔ v.LeadsTo segments w ∧ ¬ v.MeetsLongIndex segments := by
  constructor
  · intro h
    have hlong : ¬ v.MeetsLongIndex segments := by
      intro hl
      obtain ⟨e, he⟩ := hl.follow_eq
      cases he.symm.trans h
    obtain ⟨u, hu⟩ := v.exists_leadsTo segments
    cases h.symm.trans (hu.follow_eq hlong)
    exact ⟨hu, hlong⟩
  · rintro ⟨h, hlong⟩
    exact h.follow_eq hlong

theorem follow_eq_error {v : Value} {segments : List String} :
    (∃ e, v.follow segments = .error e) ↔ v.MeetsLongIndex segments := by
  constructor
  · rintro ⟨e, he⟩
    by_contra hlong
    obtain ⟨w, hw⟩ := v.exists_leadsTo segments
    cases he.symm.trans (hw.follow_eq hlong)
  · exact MeetsLongIndex.follow_eq

end Value

/-! ## From a name on -/

namespace Context

theorem shows_lookup (c : Context) (name : String) : c.Shows name (c.lookup name) := by
  induction c with
  | ofTable bindings =>
      rw [lookup, Table.find?_eq_lookup]
      cases h : List.lookup (Text.whole name) bindings with
      | none => exact .unbound h
      | some v => exact .entry h
  | overlay own value outer ih =>
      by_cases h : own = name
      · subst h
        rw [lookup_overlay_self]
        exact .overlay
      · rw [lookup_overlay_of_ne h]
        exact .outer h ih

theorem Shows.eq_lookup {c : Context} {name : String} {v : Value} (h : c.Shows name v) :
    v = c.lookup name := by
  induction h with
  | overlay => rw [lookup_overlay_self]
  | outer hne _ ih => rw [lookup_overlay_of_ne hne, ih]
  | entry h => rw [lookup, Table.find?_eq_lookup, h, Option.getD_some]
  | unbound h => rw [lookup, Table.find?_eq_lookup, h, Option.getD_none]

/-- What a context shows under the name of a path is where the path is followed from. -/
theorem resolve_cons_of_shows {c : Context} {name : String} {v : Value} (h : c.Shows name v)
    (segments : List String) :
    c.resolve (name :: segments) = (v.follow segments).mapError .tooManyDigits := by
  rw [resolve, h.eq_lookup]

/-- **A path is followed to where it leads.**  It starts at what the context shows under its
name, and selects from there by one segment after the other; where anything is missing, it
leads to no value.  Only a path that comes to a sequence with an index of too many digits is
an error. -/
theorem resolve_iff (c : Context) (name : String) (segments : List String) :
    (∀ w, c.resolve (name :: segments) = .ok w ↔
      ∃ v, c.Shows name v ∧ v.LeadsTo segments w ∧ ¬ v.MeetsLongIndex segments) ∧
    ((∃ e, c.resolve (name :: segments) = .error e) ↔
      ∃ v, c.Shows name v ∧ v.MeetsLongIndex segments) := by
  have hv := c.shows_lookup name
  refine ⟨fun w => ⟨fun h => ?_, ?_⟩, ?_, ?_⟩
  · rw [resolve_cons_of_shows hv, mapError_eq_ok, Value.follow_eq_ok] at h
    exact ⟨_, hv, h⟩
  · rintro ⟨v, hshows, h⟩
    rw [resolve_cons_of_shows hshows, mapError_eq_ok, Value.follow_eq_ok]
    exact h
  · rintro ⟨e, he⟩
    rw [resolve_cons_of_shows hv, mapError_eq_error] at he
    obtain ⟨d, hd, -⟩ := he
    exact ⟨_, hv, Value.follow_eq_error.1 ⟨d, hd⟩⟩
  · rintro ⟨v, hshows, hlong⟩
    obtain ⟨e, he⟩ := Value.follow_eq_error.2 hlong
    refine ⟨.tooManyDigits e, ?_⟩
    rw [resolve_cons_of_shows hshows, mapError_eq_error]
    exact ⟨e, he, rfl⟩

/-- The first element of a sequence is not found under zeros that are too many. -/
theorem resolve_not_total : ¬ ∀ (c : Context) (name : String) (segments : List String),
    ∃ w, c.resolve (name :: segments) = .ok w := by
  intro htotal
  let zeros := String.ofList (List.replicate 4301 '0')
  obtain ⟨w, hw⟩ := htotal (.ofTable [("xs", .sequence [.text "a"])]) "xs" [zeros]
  have hzeros : zeros.toList = List.replicate 4301 '0' := String.toList_ofList
  have hlong : Value.LongIndex (.sequence [.text "a"]) zeros := by
    refine ⟨⟨_, rfl⟩, ⟨_, ?_, ?_, rfl⟩, ?_⟩
    · rw [hzeros]
      nofun
    · intro c hc
      rw [hzeros] at hc
      cases List.eq_of_mem_replicate hc
      decide
    · rw [← String.length_toList, hzeros, List.length_replicate]
      decide
  obtain ⟨e, he⟩ := hlong.follow_eq []
  rw [resolve_cons_of_shows (v := .sequence [.text "a"]) (.entry (by rfl)), he] at hw
  cases hw

end Context

end Stencil
