/-
# `Stencil.Cursor` — a position in a byte string

A cursor knows the whole byte string, the position, and what lies ahead of it.
The last is determined by the other two, and the proof that it is stands in the
structure; so reading a byte costs one step and a seek stays possible.

A position may lie beyond the end.  Nothing lies ahead of it then, and even
nothing cannot be read there.

Readers are state monads over a cursor.  A reader that fails leaves the cursor
where the failure was found.  What a proof needs to know first about a reader is
that it never moves back; `Onward` says so, and is closed under sequencing.
-/
import Stencil.Bytes

namespace Stencil

structure Cursor where
  data : Bytes
  position : Nat
  rest : Bytes
  rest_eq : rest = data.drop position
deriving DecidableEq

namespace Cursor

def ofPosition (data : Bytes) (position : Nat) : Cursor :=
  ⟨data, position, data.drop position, rfl⟩

def ofBytes (data : Bytes) : Cursor :=
  ⟨data, 0, data, rfl⟩

def atEnd (c : Cursor) : Bool := c.rest.isEmpty

def forward (c : Cursor) (count : Nat) : Cursor :=
  ⟨c.data, c.position + count, c.rest.drop count, by rw [c.rest_eq, List.drop_drop]⟩

/-- The cursor just past the byte `b` that lies ahead. -/
def past (c : Cursor) {b : UInt8} {rest : Bytes} (h : c.rest = b :: rest) : Cursor :=
  ⟨c.data, c.position + 1, rest, by
    have := c.rest_eq.symm.trans h
    rw [← List.drop_drop, this]
    rfl⟩

/-- Do at least `count` bytes lie ahead? -/
def holds (c : Cursor) : Nat → Bool
  | 0 => c.position ≤ c.data.length
  | n + 1 => !(c.rest.drop n).isEmpty

theorem holds_iff (c : Cursor) (count : Nat) :
    c.holds count = true ↔ c.position + count ≤ c.data.length := by
  cases count with
  | zero => simp [holds]
  | succ n =>
    simp only [holds, Bool.not_eq_true', c.rest_eq, List.drop_drop, ← Bool.not_eq_true,
      List.isEmpty_iff, List.drop_eq_nil_iff]
    omega

theorem forward_zero (c : Cursor) : c.forward 0 = c := by
  simp [forward]

theorem length_rest_forward (c : Cursor) (count : Nat) :
    (c.forward count).rest.length = c.rest.length - count := by
  simp [forward]

/-- Behind the first of what lies ahead, the rest of it lies ahead. -/
theorem rest_forward_of_append {c : Cursor} {before behind : Bytes}
    (h : c.rest = before ++ behind) : (c.forward before.length).rest = behind := by
  show c.rest.drop before.length = behind
  rw [h, List.drop_left]

theorem rest_forward_of_append_cons {c : Cursor} {before behind : Bytes} {b : UInt8}
    (h : c.rest = before ++ b :: behind) : (c.forward (before.length + 1)).rest = behind := by
  show c.rest.drop (before.length + 1) = behind
  rw [h, ← List.drop_drop, List.drop_left]
  rfl

theorem length_rest_past (c : Cursor) {b : UInt8} {rest : Bytes} (h : c.rest = b :: rest) :
    (c.past h).rest.length < c.rest.length := by
  simp [past, h]

end Cursor

/-- A reader moves a cursor and yields a value or fails with an `ε`. -/
abbrev Reader (ε α : Type) := EStateM ε Cursor α

namespace Reader

/-- Whatever the reader yields, no more lies ahead afterwards than before. -/
def Onward {ε α : Type} (r : Reader ε α) : Prop :=
  ∀ c a c', r c = .ok a c' → c'.rest.length ≤ c.rest.length

/-- Whatever the reader yields, less lies ahead afterwards than before. -/
def Consumes {ε α : Type} (r : Reader ε α) : Prop :=
  ∀ c a c', r c = .ok a c' → c'.rest.length < c.rest.length

variable {ε α β : Type}

theorem Consumes.onward {r : Reader ε α} (h : Consumes r) : Onward r :=
  fun c a c' e => Nat.le_of_lt (h c a c' e)

theorem onward_pure (a : α) : Onward (pure a : Reader ε α) := by
  rintro c _ c' ⟨⟩
  exact Nat.le_refl _

theorem onward_throw (e : ε) : Onward (throw e : Reader ε α) := by
  rintro c _ c' ⟨⟩

theorem bind_eq_ok {r : Reader ε α} {f : α → Reader ε β} {c c' : Cursor} {b : β}
    (h : (r >>= f) c = .ok b c') : ∃ a c₁, r c = .ok a c₁ ∧ f a c₁ = .ok b c' := by
  simp only [bind, EStateM.bind] at h
  split at h
  · exact ⟨_, _, by assumption, h⟩
  · cases h

theorem onward_bind {r : Reader ε α} {f : α → Reader ε β}
    (hr : Onward r) (hf : ∀ a, Onward (f a)) : Onward (r >>= f) := by
  intro c b c' h
  obtain ⟨a, c₁, h₁, h₂⟩ := bind_eq_ok h
  exact Nat.le_trans (hf _ _ _ _ h₂) (hr _ _ _ h₁)

theorem Consumes.bind {r : Reader ε α} {f : α → Reader ε β}
    (hr : Consumes r) (hf : ∀ a, Onward (f a)) : Consumes (r >>= f) := by
  intro c b c' h
  obtain ⟨a, c₁, h₁, h₂⟩ := bind_eq_ok h
  exact Nat.lt_of_le_of_lt (hf _ _ _ _ h₂) (hr _ _ _ h₁)

theorem Onward.bindConsumes {r : Reader ε α} {f : α → Reader ε β}
    (hr : Onward r) (hf : ∀ a, Consumes (f a)) : Consumes (r >>= f) := by
  intro c b c' h
  obtain ⟨a, c₁, h₁, h₂⟩ := bind_eq_ok h
  exact Nat.lt_of_lt_of_le (hf _ _ _ _ h₂) (hr _ _ _ h₁)

end Reader

end Stencil
