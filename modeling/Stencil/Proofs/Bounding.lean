/-
# `Stencil.Proofs.Bounding` — calls keep a cursor within its bytes

A host makes any calls on a cursor, in any order, and goes on after those that fail.  A call takes
what it finds ahead, step by step, and some of the steps trust an earlier look; still none leads
beyond the bytes of the cursor.

| a call | moves the cursor |
| :-- | :-- |
| `advance` | on, but not beyond the end, where it stands within its bytes |
| `seek` | to a position of the code, in front of it or behind, or not at all |
| any other | on over bytes that lie ahead, be it that it fails |

From beyond the end `advance` would move back to it.  So to stand within the bytes is the invariant,
and what one call does is said of a cursor that stands there (`SourceCall.ahead_after`,
`CodeCall.within_after`).

A call that fails need not leave the cursor where it is.  Those that read a name, a path, a string
or a body stop where they find the fault, and the others take all that they ask for or nothing
(`IsWhole`).  There is no third kind: for each of the former there are bytes on which it fails and
has moved the cursor.

**Proved here**, for every byte string, every position in it and every sequence of calls:

    a cursor stays within its bytes, only a seek moves it back, and exactly the
      calls that are whole leave it where it is when they fail  (`Cursor.position_afterAll`)
-/
import Mathlib.Data.List.Induction
import Stencil.Cursor.Call
import Stencil.Proofs.Decoding

namespace Stencil

/-! ## Standing within bytes -/

namespace Cursor

variable {data : Bytes} {c c' : Cursor}

/-- The cursor stands within these bytes, or at their end. -/
structure Within (c : Cursor) (data : Bytes) : Prop where
  data_eq : c.data = data
  position_le : c.position ≤ data.length

theorem within_ofPosition {start : Nat} (h : start ≤ data.length) :
    (ofPosition data start).Within data :=
  ⟨rfl, h⟩

theorem Within.position_add_rest (h : c.Within data) :
    c.position + c.rest.length = data.length := by
  rw [c.rest_eq, List.length_drop, h.data_eq]
  exact Nat.add_sub_cancel' h.position_le

theorem Within.ahead (h : c.Within data) (hahead : c.Ahead c') : c'.Within data := by
  refine ⟨hahead.data_eq.trans h.data_eq, ?_⟩
  rw [← h.position_add_rest, ← hahead.position_add_rest]
  exact Nat.le_add_right _ _

theorem Ahead.position_le (h : c.Ahead c') : c.position ≤ c'.position := by
  obtain ⟨count, -, rfl⟩ := h
  exact Nat.le_add_right _ _

theorem ahead_skip (c : Cursor) (inClass : UInt8 → Bool) : c.Ahead (c.skip inClass) :=
  ahead_forward (List.takeWhile_prefix _).length_le

/-- Within its bytes a cursor does not move back where it advances, not even to the end. -/
theorem Within.ahead_advance (h : c.Within data) (count : Nat) : c.Ahead (c.advance count) := by
  have hrest := h.position_add_rest
  unfold advance
  rw [h.data_eq]
  split
  · exact ahead_forward (by omega)
  · have hend : ofPosition data data.length = c.forward c.rest.length :=
      ext_of_position h.data_eq.symm hrest.symm
    rw [hend]
    exact ahead_forward (Nat.le_refl _)

end Cursor

/-! ## Readers that fail -/

namespace Reader

variable {ε δ α β κ : Type} {Answer : κ → Type} {r : Reader ε α} {c c' : Cursor}

/-- Within its bytes, the cursor is left where it is by a failure. -/
def KeepsPlace (r : Reader ε α) : Prop :=
  ∀ c e c', c.position ≤ c.data.length → r c = .error e c' → c' = c

theorem KeepsPlace.map {f : α → β} (h : KeepsPlace r) : KeepsPlace (f <$> r) := by
  intro c e c' hc hfail
  simp only [Functor.map, EStateM.map] at hfail
  split at hfail <;> cases hfail
  exact h _ _ _ hc (by assumption)

/-- A reader that never fails. -/
theorem keepsPlace_ok (f : Cursor → α) (g : Cursor → Cursor) :
    KeepsPlace (fun c => .ok (f c) (g c) : Reader ε α) := nofun

/-- A reader that fails where it stands. -/
theorem keepsPlace_error (f : Cursor → ε) :
    KeepsPlace (fun c => .error (f c) c : Reader ε α) := by
  rintro c _ _ - ⟨⟩
  rfl

theorem KeepsPlace.ite {s : Reader ε α} {p : Cursor → Prop} [DecidablePred p]
    (hr : KeepsPlace r) (hs : KeepsPlace s) :
    KeepsPlace (fun c => if p c then r c else s c) := by
  intro c e c' hc hfail
  dsimp only at hfail
  split at hfail
  · exact hr c e c' hc hfail
  · exact hs c e c' hc hfail

theorem KeepsPlace.position_eq_zero (h : KeepsPlace r) (data : Bytes) {e : ε}
    (hfail : r (.ofBytes data) = .error e c') : c'.position = 0 := by
  rw [h _ _ _ (Nat.zero_le _) hfail]
  rfl

section Adapt

variable {f : ε → δ}

theorem adaptExcept_eq_ok {a : α} : r.adaptExcept f c = .ok a c' ↔ r c = .ok a c' := by
  rw [EStateM.adaptExcept]
  cases r c with
  | ok b d =>
      constructor
      · rintro ⟨⟩
        rfl
      · rintro ⟨⟩
        rfl
  | error e c' => exact ⟨nofun, nofun⟩

theorem adaptExcept_eq_error {d : δ} :
    r.adaptExcept f c = .error d c' ↔ ∃ e, r c = .error e c' ∧ d = f e := by
  rw [EStateM.adaptExcept]
  cases r c with
  | ok a c' => exact ⟨nofun, nofun⟩
  | error e c' =>
      constructor
      · rintro ⟨⟩
        exact ⟨e, rfl, rfl⟩
      · rintro ⟨_, ⟨⟩, rfl⟩
        rfl

theorem Advances.adapt (h : Advances r) : Advances (r.adaptExcept f) where
  ok hok := h.ok (adaptExcept_eq_ok.1 hok)
  error hfail := by
    obtain ⟨e, hfail, -⟩ := adaptExcept_eq_error.1 hfail
    exact h.error hfail

theorem keepsPlace_adapt : KeepsPlace (r.adaptExcept f) ↔ KeepsPlace r := by
  constructor
  · intro h c e c' hc hfail
    exact h _ _ _ hc (adaptExcept_eq_error.2 ⟨e, hfail, rfl⟩)
  · intro h c d c' hc hfail
    obtain ⟨e, hfail, -⟩ := adaptExcept_eq_error.1 hfail
    exact h _ _ _ hc hfail

end Adapt

/-! ## One call after the other -/

theorem Advances.after (h : Advances r) (c : Cursor) : c.Ahead (r.after c) := by
  unfold Reader.after
  cases hr : r c with
  | ok a c' => exact h.ok hr
  | error e c' => exact h.error hr

section AfterAll

variable {run : (call : κ) → Reader ε (Answer call)}

theorem afterAll_concat (c : Cursor) (calls : List κ) (call : κ) :
    afterAll run c (calls ++ [call]) = (run call).after (afterAll run c calls) := by
  rw [afterAll, List.foldl_append]
  rfl

/-- If one call keeps a cursor within its bytes, so do many. -/
theorem within_afterAll {data : Bytes}
    (hstep : ∀ call {c : Cursor}, c.Within data → ((run call).after c).Within data)
    (hc : c.Within data) (calls : List κ) : (afterAll run c calls).Within data := by
  induction calls using List.reverseRecOn with
  | nil => exact hc
  | append_singleton calls call ih =>
      rw [afterAll_concat]
      exact hstep call ih

end AfterAll

end Reader

open Reader (KeepsPlace keepsPlace_ok keepsPlace_error keepsPlace_adapt)

/-! ## Calls on source -/

namespace SourceReader

theorem keepsPlace_expectByte (expected : UInt8) : KeepsPlace (expectByte expected) :=
  .ite (keepsPlace_ok _ _) (keepsPlace_error _)

theorem advances_expectCode (expected : CodePoint) : Reader.Advances (expectCode expected) := by
  constructor
  · intro c a c' h
    unfold expectCode at h
    split at h
    · exact (advances_expectByte _).ok h
    · cases h
  · intro c e c' h
    unfold expectCode at h
    split at h
    · exact (advances_expectByte _).error h
    · cases h
      exact .refl c

theorem keepsPlace_expectCode (expected : CodePoint) : KeepsPlace (expectCode expected) :=
  .ite (keepsPlace_expectByte _) (keepsPlace_error _)

theorem keepsPlace_closeTag : KeepsPlace closeTag :=
  .ite (keepsPlace_error _) (keepsPlace_expectByte _)

/-- Where no delimiter is found, the cursor comes to the end.  So it keeps its place only if it
cannot fail before the end, because every byte is a delimiter. -/
theorem keepsPlace_readUntil_iff {isDelimiter : UInt8 → Bool} {required : Bool} :
    KeepsPlace (readUntil isDelimiter required) ↔
      (required = true → ∀ b, isDelimiter b = true) := by
  constructor
  · rintro h rfl b
    by_contra hb
    rw [Bool.not_eq_true] at hb
    have hfail : readUntil isDelimiter true (.ofBytes [b]) =
        .error (.unexpectedEnd 1) ((Cursor.ofBytes [b]).forward 1) := by
      simp [readUntil, Cursor.ofBytes, Cursor.forward, hb]
    exact Nat.one_ne_zero (h.position_eq_zero [b] hfail)
  · intro h c e c' _ hfail
    simp only [readUntil] at hfail
    split at hfail
    · cases hfail
    · split at hfail <;> cases hfail
      next hrequired =>
        have hnone : c.rest.takeWhile (fun b => !isDelimiter b) = [] := by
          cases c.rest with
          | nil => rfl
          | cons b rest =>
              rw [List.takeWhile_cons, h hrequired b]
              rfl
        rw [hnone]
        exact c.forward_zero

theorem not_keepsPlace_readArguments : ¬ KeepsPlace readArguments := by
  intro h
  have hfail : readArguments (.ofBytes [Sign.quote]) =
      .error (.tagNotClosed 0) ((Cursor.ofBytes [Sign.quote]).forward 1) := by
    rw [readArguments, readArgumentsFrom_cons rfl]
    rfl
  exact Nat.one_ne_zero (h.position_eq_zero _ hfail)

end SourceReader

namespace SourceCall

variable {data : Bytes} {c : Cursor}

/-- The calls that take all that they ask for or nothing, those included that never fail.  To read
up to a delimiter is such a call only where the first byte ahead is sure to be one. -/
def IsWhole : SourceCall → Prop
  | expect _ | closeTag => True
  | readUntil isDelimiter required => required = true → ∀ b, isDelimiter b = true
  | readString | readTagString | readTagName | readArguments | readBody _ => False
  | atEnd | peek _ | advance _ | startsWith _ | skip _ | skipBlanks | nextSignificant => True

theorem advances_expectNumber (number : Nat) : Reader.Advances (expectNumber number) := by
  unfold expectNumber
  split
  · exact (SourceReader.advances_expectCode _).adapt
  · exact .throw _

theorem keepsPlace_expectNumber (number : Nat) : KeepsPlace (expectNumber number) := by
  unfold expectNumber
  split
  · exact keepsPlace_adapt.2 (SourceReader.keepsPlace_expectCode _)
  · exact keepsPlace_error _

/-- Within its bytes a call moves the cursor on over bytes that lie ahead, be it that it fails. -/
theorem ahead_after (call : SourceCall) (h : c.Within data) : c.Ahead (call.run.after c) := by
  cases call with
  | atEnd | peek | startsWith | nextSignificant => exact .refl c
  | advance count => exact h.ahead_advance count
  | skip inClass => exact c.ahead_skip inClass
  | skipBlanks => exact c.ahead_skipBlanks
  | expect number => exact (advances_expectNumber number).after c
  | readUntil => exact (SourceReader.advances_readUntil _ _).adapt.after c
  | readString => exact SourceReader.advances_readString.adapt.after c
  | readTagString => exact SourceReader.advances_readTagString.adapt.after c
  | closeTag => exact SourceReader.advances_closeTag.adapt.after c
  | readTagName => exact SourceReader.advances_readTagName.adapt.after c
  | readArguments => exact SourceReader.advances_readArguments.adapt.after c
  | readBody counting => exact (SourceReader.advances_readBody counting).adapt.after c

/-- Which calls leave the cursor where it is if they fail.  Each of the others does so on some
bytes, and on these it has moved the cursor. -/
theorem isWhole_iff (call : SourceCall) : call.IsWhole ↔ KeepsPlace call.run := by
  cases call with
  | atEnd | peek | startsWith | nextSignificant | advance | skip | skipBlanks =>
      exact iff_of_true trivial (keepsPlace_ok _ _)
  | expect number => exact iff_of_true trivial (keepsPlace_expectNumber number)
  | closeTag =>
      exact iff_of_true trivial (keepsPlace_adapt.2 SourceReader.keepsPlace_closeTag)
  | readUntil => exact SourceReader.keepsPlace_readUntil_iff.symm.trans keepsPlace_adapt.symm
  | readString | readTagString | readTagName =>
      -- A quote that nothing closes is taken, and is no end of a name either.
      refine iff_of_false not_false fun h => ?_
      exact Nat.one_ne_zero ((keepsPlace_adapt.1 h).position_eq_zero [Sign.quote] rfl)
  | readArguments =>
      exact iff_of_false not_false fun h =>
        SourceReader.not_keepsPlace_readArguments (keepsPlace_adapt.1 h)
  | readBody counting =>
      -- A brace that nothing closes.
      refine iff_of_false not_false fun h => ?_
      exact Nat.one_ne_zero ((keepsPlace_adapt.1 h).position_eq_zero [Sign.braceOpen] rfl)

theorem afterAll_concat (start : Nat) (calls : List SourceCall) (call : SourceCall) :
    afterAll data start (calls ++ [call]) = call.run.after (afterAll data start calls) :=
  Reader.afterAll_concat ..

theorem within_afterAll {start : Nat} (h : start ≤ data.length) (calls : List SourceCall) :
    (afterAll data start calls).Within data :=
  Reader.within_afterAll (fun call _ hc => hc.ahead (call.ahead_after hc))
    (Cursor.within_ofPosition h) calls

end SourceCall

/-! ## Calls on bytecode -/

namespace CodeReader

theorem advances_peekByte : Reader.Advances peekByte := by
  constructor
  all_goals
    intro c _ c' h
    unfold peekByte at h
    split at h <;> cases h
    exact .refl c

theorem keepsPlace_require (count : Nat) : KeepsPlace (require count) :=
  .ite (keepsPlace_ok _ _) (keepsPlace_error _)

theorem keepsPlace_seek (position : Nat) : KeepsPlace (seek position) :=
  .ite (keepsPlace_ok _ _) (keepsPlace_error _)

theorem keepsPlace_peekByte : KeepsPlace peekByte := by
  intro c e c' _ hfail
  unfold peekByte at hfail
  split at hfail <;> cases hfail
  rfl

theorem keepsPlace_readByte : KeepsPlace readByte := by
  intro c e c' _ hfail
  unfold readByte at hfail
  split at hfail <;> cases hfail
  rfl

theorem keepsPlace_readBytes (count : Nat) : KeepsPlace (readBytes count) :=
  .ite (keepsPlace_ok _ _) (keepsPlace_error _)

theorem keepsPlace_readLength : KeepsPlace readLength :=
  (keepsPlace_readBytes _).map

theorem keepsPlace_readClosed : KeepsPlace readClosed := by
  intro c e c' _ hfail
  simp only [readClosed] at hfail
  split at hfail <;> cases hfail
  rfl

/-- A name that is no text has been read when it is found to be none. -/
theorem not_keepsPlace_readName : ¬ KeepsPlace readName := by
  intro h
  have hclosed : readClosed (.ofBytes [0xFF, Opcode.stop]) =
      .ok [0xFF] ((Cursor.ofBytes [0xFF, Opcode.stop]).forward 2) := rfl
  have hpieces : Utf8.pieces [0xFF] = [.error ⟨1, .invalidStart⟩] := by
    rw [Utf8.pieces_cons]
    exact congrArg _ Utf8.pieces_nil
  have hdecode : Utf8.decode? [0xFF] = none := by
    rw [Utf8.decode?, Utf8.decode, hpieces]
    rfl
  have hfail : readName (.ofBytes [0xFF, Opcode.stop]) =
      .error (.undecodableName [0xFF]) ((Cursor.ofBytes [0xFF, Opcode.stop]).forward 2) := by
    simp only [readName, Bind.bind, EStateM.bind, hclosed, hdecode]
    rfl
  exact Nat.succ_ne_zero 1 (h.position_eq_zero _ hfail)

/-- A path without segments has been read when it is found to have none. -/
theorem not_keepsPlace_readPath : ¬ KeepsPlace readPath := by
  intro h
  have hnames : readNames [] (.ofBytes [Opcode.stop]) =
      .ok [] ((Cursor.ofBytes [Opcode.stop]).forward 1) := by
    rw [readNames]
    rfl
  have hfail : readPath (.ofBytes [Opcode.stop]) =
      .error .emptyPath ((Cursor.ofBytes [Opcode.stop]).forward 1) := by
    simp only [readPath, Bind.bind, EStateM.bind, hnames]
    rfl
  exact Nat.one_ne_zero (h.position_eq_zero _ hfail)

end CodeReader

namespace CodeCall

variable {data : Bytes} {c : Cursor}

/-- The calls that take all that they ask for or nothing, those included that never fail. -/
def IsWhole : CodeCall → Prop
  | require _ | seek _ | peekByte | readByte | readBytes _ | readLength | readClosed => True
  | readName | readPath => False
  | atEnd => True

/-- A seek goes to a position of the code, and otherwise nowhere. -/
theorem after_seek (target : Nat) (c : Cursor) : (seek target).run.after c =
    if target ≤ c.data.length then .ofPosition c.data target else c := by
  by_cases htarget : target ≤ c.data.length
  · simp only [Reader.after, run, CodeReader.seek, if_pos htarget]
  · simp only [Reader.after, run, CodeReader.seek, if_neg htarget]

/-- A call moves the cursor on over bytes that lie ahead, be it that it fails, or it is a seek. -/
theorem ahead_or_seek (call : CodeCall) (c : Cursor) :
    c.Ahead (call.run.after c) ∨ ∃ target, call = .seek target := by
  cases call with
  | seek target => exact .inr ⟨target, rfl⟩
  | atEnd => exact .inl (.refl c)
  | require count => exact .inl ((CodeReader.advances_require count).after c)
  | peekByte => exact .inl (CodeReader.advances_peekByte.after c)
  | readByte => exact .inl (CodeReader.advances_readByte.after c)
  | readBytes count => exact .inl ((CodeReader.advances_readBytes count).after c)
  | readLength => exact .inl (CodeReader.advances_readLength.after c)
  | readClosed => exact .inl (CodeReader.advances_readClosed.after c)
  | readName => exact .inl (CodeReader.advances_readName.after c)
  | readPath => exact .inl (CodeReader.advances_readPath.after c)

theorem within_after (call : CodeCall) (h : c.Within data) : (call.run.after c).Within data := by
  rcases call.ahead_or_seek c with hahead | ⟨target, rfl⟩
  · exact h.ahead hahead
  · rw [after_seek, h.data_eq]
    split
    · exact Cursor.within_ofPosition (by assumption)
    · exact h

/-- Within its bytes the cursor is moved back by a seek to a position in front of it, and by
nothing else. -/
theorem position_after_lt_iff (call : CodeCall) (h : c.Within data) :
    (call.run.after c).position < c.position ↔ ∃ target < c.position, call = .seek target := by
  constructor
  · intro hback
    rcases call.ahead_or_seek c with hahead | ⟨target, rfl⟩
    · exact absurd hahead.position_le (Nat.not_le.2 hback)
    · rw [after_seek] at hback
      split at hback
      · exact ⟨target, hback, rfl⟩
      · exact absurd hback (Nat.lt_irrefl _)
  · rintro ⟨target, htarget, rfl⟩
    have hwithin : target ≤ c.data.length := by
      rw [h.data_eq]
      exact Nat.le_trans (Nat.le_of_lt htarget) h.position_le
    rw [after_seek, if_pos hwithin]
    exact htarget

/-- Which calls leave the cursor where it is if they fail.  Each of the others does so on some
bytes, and on these it has moved the cursor. -/
theorem isWhole_iff (call : CodeCall) : call.IsWhole ↔ KeepsPlace call.run := by
  cases call with
  | atEnd => exact iff_of_true trivial (keepsPlace_ok _ _)
  | require count => exact iff_of_true trivial (CodeReader.keepsPlace_require count)
  | seek position => exact iff_of_true trivial (CodeReader.keepsPlace_seek position)
  | peekByte => exact iff_of_true trivial CodeReader.keepsPlace_peekByte
  | readByte => exact iff_of_true trivial CodeReader.keepsPlace_readByte
  | readBytes count => exact iff_of_true trivial (CodeReader.keepsPlace_readBytes count)
  | readLength => exact iff_of_true trivial CodeReader.keepsPlace_readLength
  | readClosed => exact iff_of_true trivial CodeReader.keepsPlace_readClosed
  | readName => exact iff_of_false not_false CodeReader.not_keepsPlace_readName
  | readPath => exact iff_of_false not_false CodeReader.not_keepsPlace_readPath

theorem afterAll_concat (start : Nat) (calls : List CodeCall) (call : CodeCall) :
    afterAll data start (calls ++ [call]) = call.run.after (afterAll data start calls) :=
  Reader.afterAll_concat ..

theorem within_afterAll {start : Nat} (h : start ≤ data.length) (calls : List CodeCall) :
    (afterAll data start calls).Within data :=
  Reader.within_afterAll (fun call _ hc => call.within_after hc) (Cursor.within_ofPosition h) calls

end CodeCall

/-! ## Any calls -/

namespace Cursor

/-- Whatever calls have been made on a cursor from a position within its bytes, those included
that fail, it stands within its bytes.  A call on source never moves it back, and a call on
bytecode exactly if it is a seek to a position in front of it.  The calls that are whole leave it
where it is when they fail, and each of the others can fail and have moved it. -/
theorem position_afterAll {data : Bytes} {start : Nat} (hstart : start ≤ data.length) :
    ((∀ calls : List SourceCall,
        (SourceCall.afterAll data start calls).position ≤ data.length) ∧
      (∀ (calls : List SourceCall) (call : SourceCall),
        (SourceCall.afterAll data start calls).position ≤
          (SourceCall.afterAll data start (calls ++ [call])).position) ∧
      ∀ call : SourceCall, call.IsWhole ↔ KeepsPlace call.run) ∧
    ((∀ calls : List CodeCall,
        (CodeCall.afterAll data start calls).position ≤ data.length) ∧
      (∀ (calls : List CodeCall) (call : CodeCall),
        (CodeCall.afterAll data start (calls ++ [call])).position <
            (CodeCall.afterAll data start calls).position ↔
          ∃ target < (CodeCall.afterAll data start calls).position, call = .seek target) ∧
      ∀ call : CodeCall, call.IsWhole ↔ KeepsPlace call.run) := by
  refine ⟨⟨fun calls => ?_, fun calls call => ?_, SourceCall.isWhole_iff⟩,
    fun calls => ?_, fun calls call => ?_, CodeCall.isWhole_iff⟩
  · exact (SourceCall.within_afterAll hstart calls).position_le
  · have hahead := call.ahead_after (SourceCall.within_afterAll hstart calls)
    rw [SourceCall.afterAll_concat]
    exact hahead.position_le
  · exact (CodeCall.within_afterAll hstart calls).position_le
  · rw [CodeCall.afterAll_concat]
    exact call.position_after_lt_iff (CodeCall.within_afterAll hstart calls)

/-- A string without its end, a name that is no text, and too little behind it for a length. -/
def cutShort : Bytes := [0x22, 0x61, 0xFF, 0x00, 0x62]

theorem position_afterAll_cutShort :
    1 ≤ cutShort.length ∧
      (SourceCall.afterAll cutShort 1 [.readTagName]).position = 5 ∧
      (SourceCall.afterAll cutShort 1 [.readTagName]).position ≤
        (SourceCall.afterAll cutShort 1 ([.readTagName] ++ [.advance 7])).position ∧
      (CodeCall.afterAll cutShort 1 [.readClosed, .readLength]).position = 4 ∧
      (CodeCall.afterAll cutShort 1 ([.readClosed, .readLength] ++ [.seek 2])).position <
        (CodeCall.afterAll cutShort 1 [.readClosed, .readLength]).position := by
  have hstart : 1 ≤ cutShort.length := by decide
  obtain ⟨⟨-, hsource, -⟩, -, hcode, -⟩ := position_afterAll hstart
  have hread : (CodeCall.afterAll cutShort 1 [.readClosed, .readLength]).position = 4 := rfl
  refine ⟨hstart, rfl, hsource _ _, hread, (hcode _ _).2 ⟨2, ?_, rfl⟩⟩
  rw [hread]
  decide

end Cursor

end Stencil
