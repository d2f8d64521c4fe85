/-
# `Stencil.Proofs.Advancing` — readers of source move forward, and how far

What a reader takes is known by what lies ahead of the cursor before and after (`Gives`).
A cursor is more than that, for it knows its position, and positions are what errors and
spans of a source are made of.

A reader moves its cursor on over bytes that lie ahead, and in no other way, be it that it
fails (`Reader.Advances`).  So the position stays within the source, and where it is known
what a reader takes, it is known where it stops:

    r advances and takes `taken`   ⟹   r c = .ok a (c.forward taken.length)    (`Gives.exact`)

There is one lemma for each reader, as for what a reader takes.
-/
import Stencil.Proofs.Extent
import Stencil.Proofs.Reading

namespace Stencil

open EStateM (Result)

/-! ## Moving on -/

namespace Cursor

/-- The other cursor is this one, moved on over bytes that lie ahead. -/
def Ahead (c c' : Cursor) : Prop := ∃ count ≤ c.rest.length, c' = c.forward count

theorem Ahead.refl (c : Cursor) : c.Ahead c := ⟨0, Nat.zero_le _, c.forward_zero.symm⟩

theorem Ahead.trans {c d e : Cursor} (hcd : c.Ahead d) (hde : d.Ahead e) : c.Ahead e := by
  obtain ⟨m, hm, rfl⟩ := hcd
  obtain ⟨n, hn, rfl⟩ := hde
  rw [length_rest_forward] at hn
  exact ⟨m + n, by omega, c.forward_forward m n⟩

theorem ahead_forward {c : Cursor} {count : Nat} (h : count ≤ c.rest.length) :
    c.Ahead (c.forward count) :=
  ⟨count, h, rfl⟩

theorem ahead_past (c : Cursor) {b : UInt8} {rest : Bytes} (h : c.rest = b :: rest) :
    c.Ahead (c.past h) := by
  rw [past_eq_forward]
  exact ahead_forward (by rw [h]; exact Nat.succ_pos _)

theorem ahead_skipBlanks (c : Cursor) : c.Ahead c.skipBlanks :=
  ahead_forward (List.takeWhile_prefix _).length_le

/-- A cursor that moves on stays on its byte string. -/
theorem Ahead.data_eq {c c' : Cursor} (h : c.Ahead c') : c'.data = c.data := by
  obtain ⟨count, -, rfl⟩ := h
  rfl

/-- What lies ahead of a cursor that moves on gets shorter by as much as it moves. -/
theorem Ahead.position_add_rest {c c' : Cursor} (h : c.Ahead c') :
    c'.position + c'.rest.length = c.position + c.rest.length := by
  obtain ⟨count, hcount, rfl⟩ := h
  rw [length_rest_forward]
  show c.position + count + _ = _
  omega

/-- Moved on over bytes that are known, a cursor has moved by their number. -/
theorem Ahead.eq_forward {c c' : Cursor} (h : c.Ahead c') {taken : Bytes}
    (hrest : c.rest = taken ++ c'.rest) : c' = c.forward taken.length := by
  obtain ⟨count, hcount, rfl⟩ := h
  have hlength := congrArg List.length hrest
  rw [List.length_append, length_rest_forward] at hlength
  have hsame : count = taken.length := by omega
  rw [hsame]

end Cursor

namespace Reader

variable {ε α β : Type}

/-- However the reader ends, it has moved its cursor on over bytes that lie ahead. -/
structure Advances (r : Reader ε α) : Prop where
  ok : ∀ {c a c'}, r c = .ok a c' → c.Ahead c'
  error : ∀ {c e c'}, r c = .error e c' → c.Ahead c'

namespace Advances

theorem pure (a : α) : Advances (Pure.pure a : Reader ε α) where
  ok := by
    rintro c _ _ ⟨⟩
    exact .refl c
  error := nofun

theorem throw (e : ε) : Advances (MonadExcept.throw e : Reader ε α) where
  ok := nofun
  error := by
    rintro c _ _ ⟨⟩
    exact .refl c

theorem bind {r : Reader ε α} {f : α → Reader ε β} (hr : Advances r)
    (hf : ∀ a, Advances (f a)) : Advances (r >>= f) where
  ok := by
    intro c b c' h
    obtain ⟨a, c₁, h₁, h₂⟩ := bind_eq_ok h
    exact (hr.ok h₁).trans ((hf a).ok h₂)
  error := by
    intro c e c' h
    simp only [Bind.bind, EStateM.bind] at h
    split at h
    next a c₁ h₁ => exact (hr.ok h₁).trans ((hf a).error h)
    next h₁ =>
      cases h
      exact hr.error h₁

theorem map {r : Reader ε α} {f : α → β} (hr : Advances r) : Advances (f <$> r) where
  ok := by
    intro c b c' h
    simp only [Functor.map, EStateM.map] at h
    split at h <;> cases h
    exact hr.ok (by assumption)
  error := by
    intro c e c' h
    simp only [Functor.map, EStateM.map] at h
    split at h <;> cases h
    exact hr.error (by assumption)

/-- A reader that looks at its cursor. -/
theorem get {f : Cursor → Reader ε β} (hf : ∀ c, Advances (f c)) :
    Advances (MonadState.get >>= f) where
  ok h := (hf _).ok h
  error h := (hf _).error h

end Advances

end Reader

/-! ## The readers -/

namespace SourceReader

open Reader (Advances)

theorem Gives.exact {α : Type} {r : SourceReader α} {taken after : Bytes} {a : α}
    (hr : Gives r taken after a) (hadvances : Advances r) {c : Cursor}
    (hc : c.rest = taken ++ after) : r c = .ok a (c.forward taken.length) := by
  obtain ⟨c', hok, hrest⟩ := hr c hc
  rw [← (hadvances.ok hok).eq_forward (hrest ▸ hc)]
  exact hok

theorem advances_checked {α : Type} (x : Except CompileError α) : Advances (checked x) := by
  cases x with
  | ok a => exact .pure a
  | error e => exact .throw e

theorem advances_readUntil (isDelimiter : UInt8 → Bool) (required : Bool) :
    Advances (readUntil isDelimiter required) := by
  have hfound : ∀ c : Cursor,
      (c.rest.takeWhile fun b => !isDelimiter b).length ≤ c.rest.length :=
    fun _ => (List.takeWhile_prefix _).length_le
  constructor
  · intro c a c' h
    simp only [readUntil] at h
    split at h
    next hdrop =>
      cases h
      have hlength := congrArg List.length hdrop
      rw [List.length_drop, List.length_cons] at hlength
      exact Cursor.ahead_forward (by omega)
    next =>
      split at h <;> cases h
      exact Cursor.ahead_forward (hfound c)
  · intro c e c' h
    simp only [readUntil] at h
    split at h
    · cases h
    · split at h <;> cases h
      exact Cursor.ahead_forward (hfound c)

theorem advances_skipBlanks : Advances skipBlanks where
  ok := by
    rintro c _ _ ⟨⟩
    exact c.ahead_skipBlanks
  error := nofun

theorem advances_expectByte (expected : UInt8) : Advances (expectByte expected) := by
  constructor
  · intro c a c' h
    have hrest := expectByte_eq_ok h
    unfold expectByte at h
    split at h <;> cases h
    exact Cursor.ahead_forward (by rw [hrest]; exact Nat.succ_pos _)
  · intro c e c' h
    unfold expectByte at h
    split at h <;> cases h
    exact .refl c

theorem advances_readString : Advances readString :=
  (advances_expectByte _).bind fun _ => advances_readUntil _ _

theorem advances_readTagString : Advances readTagString := by
  constructor
  · intro c a c' h
    unfold readTagString at h
    split at h
    · cases h
    · split at h
      · cases h
      · exact advances_readString.ok h
  · intro c e c' h
    unfold readTagString at h
    split at h
    · cases h
      exact .refl c
    · split at h
      next hread =>
        cases h
        exact advances_readString.error hread
      next => exact advances_readString.error h

theorem advances_closeTag : Advances closeTag := by
  constructor
  · intro c a c' h
    unfold closeTag at h
    split at h
    · cases h
    · exact (advances_expectByte _).ok h
  · intro c e c' h
    unfold closeTag at h
    split at h
    · cases h
      exact .refl c
    · exact (advances_expectByte _).error h

theorem advances_readTagName : Advances readTagName := by
  constructor
  · intro c a c' h
    simp only [readTagName] at h
    split at h
    · cases h
    next hdrop =>
      split at h <;> cases h
      have hlength := congrArg List.length hdrop
      rw [List.length_drop, List.length_cons] at hlength
      exact Cursor.ahead_forward (by omega)
  · intro c e c' h
    have hname : (c.rest.takeWhile fun b => !(Bytes.isBlank b || b == Sign.parenOpen)).length ≤
        c.rest.length :=
      (List.takeWhile_prefix _).length_le
    simp only [readTagName] at h
    split at h
    · cases h
      exact Cursor.ahead_forward hname
    · split at h <;> cases h
      exact Cursor.ahead_forward hname

theorem advances_readArguments : Advances readArguments := by
  suffices ∀ found, Advances (readArgumentsFrom found) from this []
  intro found
  constructor
  · intro c a c' h
    fun_induction readArgumentsFrom found c with
    | case1 => cases h
    | case2 _ c _ hc =>
        cases h
        exact c.ahead_past hc
    | case3 => cases h
    | case4 _ c _ _ c₁ hread _ _ ih => exact (advances_readTagString.ok hread).trans (ih h)
    | case5 _ c _ _ hc _ _ ih => exact (c.ahead_past hc).trans (ih h)
  · intro c e c' h
    fun_induction readArgumentsFrom found c with
    | case1 =>
        cases h
        exact .refl _
    | case2 => cases h
    | case3 _ c _ _ _ hread =>
        cases h
        exact advances_readTagString.error hread
    | case4 _ c _ _ c₁ hread _ _ ih => exact (advances_readTagString.ok hread).trans (ih h)
    | case5 _ c _ _ hc _ _ ih => exact (c.ahead_past hc).trans (ih h)

theorem advances_readBodyEnd (counting : Bool) : Advances (readBodyEnd counting) := by
  constructor
  · intro c a c' h
    unfold readBodyEnd at h
    split at h <;> cases h
    next n hn =>
      obtain ⟨body, rest, hbody, hlength, -⟩ := closingIndex?_eq_some hn
      rw [Nat.zero_add] at hlength
      refine Cursor.ahead_forward ?_
      rw [hbody, List.length_append, List.length_cons]
      omega
  · intro c e c' h
    unfold readBodyEnd at h
    split at h <;> cases h
    exact Cursor.ahead_forward (Nat.le_refl _)

theorem advances_readBody (counting : Bool) : Advances (readBody counting) :=
  advances_skipBlanks.bind fun _ =>
    (advances_expectByte _).bind fun _ => advances_readBodyEnd counting

theorem advances_readStringArgument : Advances readStringArgument :=
  advances_readTagString.bind fun _ => advances_closeTag.bind fun _ => advances_checked _

theorem advances_readArgumentsOf (tag : String) (kinds : List ArgumentKind) :
    Advances (readArgumentsOf tag kinds) :=
  advances_readArguments.bind fun _ => (advances_checked _).bind fun _ =>
    (advances_checked _).bind fun _ => .pure _

theorem advances_readGuarded (scope : Option Bytes) : Advances (readGuarded scope) :=
  (advances_readArgumentsOf _ _).bind fun _ => (advances_checked _).bind fun _ =>
    (advances_readBody true).bind fun _ => .pure _

theorem advances_readClause (scope : Option Bytes) : Advances (readClause scope) := by
  refine advances_readTagName.bind fun name => ?_
  split
  · exact (advances_readGuarded scope).bind fun _ => .pure _
  split
  · exact (advances_readArgumentsOf _ _).bind fun _ =>
      (advances_readBody true).bind fun _ => .pure _
  · exact .throw _

/-- Where a clause lies ahead, its reader starts ahead. -/
theorem ahead_clause {c : Cursor} (h : c.skipBlanks.startsWith clauseSign = true) :
    c.Ahead (c.skipBlanks.forward clauseSign.length) :=
  c.ahead_skipBlanks.trans (Cursor.ahead_forward (startsWith_clauseSign.1 h).length_le)

theorem advances_readClauses (scope : Option Bytes) (branches : List (List String × Bytes)) :
    Advances (readClauses scope branches) := by
  constructor
  · intro c piece c' h
    fun_induction readClauses scope branches c with
    | case1 => cases h
    | case2 branches c hclause _ _ _ hread ih =>
        exact ((ahead_clause hclause).trans ((advances_readClause scope).ok hread)).trans (ih h)
    | case3 branches c hclause _ _ hread =>
        cases h
        exact (ahead_clause hclause).trans ((advances_readClause scope).ok hread)
    | case4 =>
        cases h
        exact .refl _
  · intro c e c' h
    fun_induction readClauses scope branches c with
    | case1 branches c hclause _ _ hread =>
        cases h
        exact (ahead_clause hclause).trans ((advances_readClause scope).error hread)
    | case2 branches c hclause _ _ _ hread ih =>
        exact ((ahead_clause hclause).trans ((advances_readClause scope).ok hread)).trans (ih h)
    | case3 => cases h
    | case4 => cases h

theorem advances_readBranch (scope : Option Bytes) : Advances (readBranch scope) :=
  (advances_readGuarded scope).bind fun _ => advances_readClauses scope _

theorem advances_readPrinted (start : Nat) : Advances (readPrinted start) := by
  constructor
  · intro c path c' h
    exact (advances_readUntil _ _).ok (readPrinted_eq_ok.1 h)
  · intro c e c' h
    unfold readPrinted at h
    split at h
    next hread =>
      cases h
      exact (advances_readUntil _ _).error hread
    next => exact (advances_readUntil _ _).error h

theorem advances_readPrint (scope : Option Bytes) : Advances (readPrint scope) := by
  refine .get fun c => (advances_readPrinted c.position).bind fun path => ?_
  split
  · exact .pure _
  · refine (advances_checked _).bind fun _ => .get fun _ => ?_
    split
    · exact (advances_readBody true).bind fun _ => .pure _
    · exact .pure _

theorem advances_readLoop (scope : Option Bytes) : Advances (readLoop scope) := by
  refine (advances_readArgumentsOf _ _).bind fun values => ?_
  dsimp only
  split
  · exact (advances_readBody true).bind fun _ => (advances_checked _).bind fun _ =>
      (advances_checked _).bind fun _ => .pure _
  · exact .throw _

theorem advances_readRaw (scope : Option Bytes) : Advances (readRaw scope) := by
  refine advances_readArguments.bind fun _ => (advances_checked _).bind fun _ => ?_
  split
  · refine .get fun _ => (advances_readBody false).bind fun _ => ?_
    split
    · exact .throw _
    · exact .pure _
  · exact (advances_checked _).bind fun _ => (advances_checked _).bind fun _ => .pure _

theorem advances_readTagRest (scope : Option Bytes) (tag : Tag) :
    Advances (readTagRest scope tag) := by
  cases tag with
  | print => exact advances_readPrint scope
  | loop => exact advances_readLoop scope
  | branch => exact advances_readBranch scope
  | raw => exact advances_readRaw scope
  | exportBody =>
      exact advances_readStringArgument.bind fun _ =>
        (advances_readBody true).bind fun _ => .pure _
  | embedFile | importBody | extendFile => exact advances_readStringArgument.map

/-- A tag moves the cursor on over bytes that lie ahead, be it that it is at fault. -/
theorem advances_readTag (tags : TagTable) (scope : Option Bytes) :
    Advances (readTag tags scope) := by
  refine advances_readTagName.bind fun name => ?_
  split
  · exact advances_readTagRest scope _
  · exact .throw _

end SourceReader

end Stencil
