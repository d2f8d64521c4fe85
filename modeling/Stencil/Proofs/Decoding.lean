/-
# `Stencil.Proofs.Decoding` — how the readers of bytecode move, and what they fail by

Bytecode that comes from no compiler is read by the same readers, so that what holds of them on
the bytes of a block is not enough.  On any bytes a reader moves its cursor on over bytes that
lie ahead, be it that it fails (`Reader.Advances`); and it fails by a fault of the code or of
the data, never by a limit of the run (`RunError.IsFault`).

There is one lemma of each kind for each reader, up to the one that reads an element to where
its blocks start.  What lies ahead there is shorter than what lay behind the opcode, and so
follow the two facts on which every proof about arbitrary code rests: an induction over what
lies ahead of a block (`Machine.block_induction`), and what a block can fail by
(`Machine.blockFrom_fails`).
-/
import Stencil.Proofs.Advancing
import Stencil.Proofs.Running

namespace Stencil

/-! ## Failing -/

/-- The errors that tell what is wrong with the code or with the data; the others are limits of
a run. -/
def RunError.IsFault : RunError → Prop
  | stepLimitExceeded _ | depthExceeded => False
  | _ => True

namespace Reader

variable {ε α β : Type}

/-- Every error of the reader is one of these. -/
def FailsOnlyBy (P : ε → Prop) (r : Reader ε α) : Prop :=
  ∀ c e c', r c = .error e c' → P e

namespace FailsOnlyBy

variable {P : ε → Prop}

theorem pure (a : α) : FailsOnlyBy P (Pure.pure a : Reader ε α) := nofun

theorem throw {e : ε} (h : P e) : FailsOnlyBy P (MonadExcept.throw e : Reader ε α) := by
  rintro c _ _ ⟨⟩
  exact h

theorem bind {r : Reader ε α} {f : α → Reader ε β} (hr : FailsOnlyBy P r)
    (hf : ∀ a, FailsOnlyBy P (f a)) : FailsOnlyBy P (r >>= f) := by
  intro c e c' h
  simp only [Bind.bind, EStateM.bind] at h
  split at h
  next a c₁ _ => exact hf a _ _ _ h
  next hread =>
    cases h
    exact hr _ _ _ hread

theorem map {r : Reader ε α} {f : α → β} (hr : FailsOnlyBy P r) :
    FailsOnlyBy P (f <$> r) := by
  intro c e c' h
  simp only [Functor.map, EStateM.map] at h
  split at h <;> cases h
  exact hr _ _ _ (by assumption)

end FailsOnlyBy

end Reader

/-! ## The parts of an element -/

namespace CodeReader

open Reader (Advances FailsOnlyBy)

/-- A cursor that holds bytes has them ahead. -/
theorem ahead_of_holds {c : Cursor} {count : Nat} (h : c.holds count = true) :
    c.Ahead (c.forward count) := by
  have hwithin := (c.holds_iff count).1 h
  refine Cursor.ahead_forward ?_
  rw [c.rest_eq, List.length_drop]
  omega

theorem advances_require (count : Nat) : Advances (require count) := by
  constructor
  all_goals
    intro c _ c' h
    unfold require at h
    split at h <;> cases h
    exact .refl c

theorem advances_readByte : Advances readByte := by
  constructor
  · intro c b c' h
    unfold readByte at h
    split at h <;> cases h
    exact c.ahead_past (by assumption)
  · intro c e c' h
    unfold readByte at h
    split at h <;> cases h
    exact .refl c

theorem advances_readBytes (count : Nat) : Advances (readBytes count) := by
  constructor
  · intro c data c' h
    unfold readBytes at h
    split at h <;> cases h
    exact ahead_of_holds (by assumption)
  · intro c e c' h
    unfold readBytes at h
    split at h <;> cases h
    exact .refl c

theorem advances_readLength : Advances readLength :=
  (advances_readBytes _).map

theorem advances_readClosed : Advances readClosed := by
  constructor
  · intro c data c' h
    simp only [readClosed] at h
    split at h <;> cases h
    next hdrop =>
      have hlength := congrArg List.length hdrop
      rw [List.length_drop, List.length_cons] at hlength
      exact Cursor.ahead_forward (by omega)
  · intro c e c' h
    simp only [readClosed] at h
    split at h <;> cases h
    exact .refl c

theorem advances_readName : Advances readName := by
  refine advances_readClosed.bind fun data => ?_
  split
  · exact .pure _
  · exact .throw _

theorem advances_readNames (found : List String) : Advances (readNames found) := by
  constructor
  · intro c names c' h
    fun_induction readNames found c with
    | case1 => cases h
    | case2 _ c _ hc =>
        cases h
        exact c.ahead_past hc
    | case3 => cases h
    | case4 _ c _ _ _ _ name c₁ hread ih => exact (advances_readName.ok hread).trans (ih h)
  · intro c e c' h
    fun_induction readNames found c with
    | case1 =>
        cases h
        exact .refl _
    | case2 => cases h
    | case3 _ c _ _ _ _ _ _ hread =>
        cases h
        exact advances_readName.error hread
    | case4 _ c _ _ _ _ name c₁ hread ih => exact (advances_readName.ok hread).trans (ih h)

theorem advances_readPath : Advances readPath := by
  refine (advances_readNames []).bind fun segments => ?_
  split
  · exact .throw _
  · exact .pure _

theorem faults_require (count : Nat) : FailsOnlyBy RunError.IsFault (require count) := by
  intro c e c' h
  unfold require at h
  split at h <;> cases h
  trivial

theorem faults_readByte : FailsOnlyBy RunError.IsFault readByte := by
  intro c e c' h
  unfold readByte at h
  split at h <;> cases h
  trivial

theorem faults_readBytes (count : Nat) : FailsOnlyBy RunError.IsFault (readBytes count) := by
  intro c e c' h
  unfold readBytes at h
  split at h <;> cases h
  trivial

theorem faults_readLength : FailsOnlyBy RunError.IsFault readLength :=
  (faults_readBytes _).map

theorem faults_readName : FailsOnlyBy RunError.IsFault readName := by
  refine .bind (fun c e c' h => ?_) fun data => ?_
  · simp only [readClosed] at h
    split at h <;> cases h
    trivial
  · split
    · exact .pure _
    · exact .throw trivial

theorem faults_readNames (found : List String) :
    FailsOnlyBy RunError.IsFault (readNames found) := by
  intro c e c' h
  fun_induction readNames found c with
  | case1 =>
      cases h
      trivial
  | case2 => cases h
  | case3 _ c _ _ _ _ _ _ hread =>
      cases h
      exact faults_readName _ _ _ hread
  | case4 _ c _ _ _ _ name c₁ hread ih => exact ih h

theorem faults_readPath : FailsOnlyBy RunError.IsFault readPath := by
  refine (faults_readNames []).bind fun segments => ?_
  split
  · exact .throw trivial
  · exact .pure _

end CodeReader

/-! ## Elements -/

namespace Machine

open CodeReader
open Reader (Advances FailsOnlyBy)

theorem advances_checked {α : Type} (x : Except RunError α) : Advances (checked x) := by
  cases x with
  | ok a => exact .pure a
  | error e => exact .throw e

theorem advances_failBehind {α : Type} (e : Nat → RunError) :
    Advances (failBehind e : CodeReader α) where
  ok := nofun
  error := by
    rintro c _ _ ⟨⟩
    exact .refl c

theorem advances_evaluate (context : Context) : Advances (evaluate context) := by
  refine advances_readByte.bind fun opcode => ?_
  split
  · exact advances_readPath.bind fun _ => advances_checked _
  split
  · exact .pure _
  · exact advances_failBehind _

theorem advances_readStatement (context : Context) : Advances (readStatement context) := by
  refine advances_readByte.bind fun opcode => ?_
  split
  · exact (advances_evaluate context).bind fun _ => advances_readLength.bind fun _ =>
      advances_readLength.bind fun _ => (advances_require _).bind fun _ => .pure _
  split
  · exact advances_readName.bind fun _ => (advances_evaluate context).bind fun _ =>
      advances_readLength.bind fun _ => (advances_require _).bind fun _ => .pure _
  split
  · exact (advances_evaluate context).bind fun _ => (advances_checked _).bind fun _ => .pure _
  · exact advances_failBehind _

theorem advances_readTask (context : Context) (opcode : UInt8) :
    Advances (readTask context opcode) := by
  unfold readTask
  split
  · exact advances_readLength.bind fun _ => (advances_readBytes _).bind fun _ => .pure _
  split
  · exact advances_readStatement context
  · exact advances_failBehind _

theorem faults_checked {α : Type} {x : Except RunError α} (h : ∀ e, x = .error e → e.IsFault) :
    FailsOnlyBy RunError.IsFault (checked x) := by
  cases x with
  | ok a => exact .pure a
  | error e => exact .throw (h e rfl)

theorem faults_failBehind {α : Type} {e : Nat → RunError} (h : ∀ position, (e position).IsFault) :
    FailsOnlyBy RunError.IsFault (failBehind e : CodeReader α) := by
  rintro c _ _ ⟨⟩
  exact h _

theorem faults_evaluate (context : Context) :
    FailsOnlyBy RunError.IsFault (evaluate context) := by
  refine faults_readByte.bind fun opcode => ?_
  split
  · refine faults_readPath.bind fun segments => faults_checked fun e he => ?_
    obtain ⟨fault, -, rfl⟩ := mapError_eq_error.1 he
    cases fault <;> trivial
  split
  · exact .pure _
  · exact faults_failBehind fun _ => trivial

theorem faults_readStatement (context : Context) :
    FailsOnlyBy RunError.IsFault (readStatement context) := by
  refine faults_readByte.bind fun opcode => ?_
  split
  · exact (faults_evaluate context).bind fun _ => faults_readLength.bind fun _ =>
      faults_readLength.bind fun _ => (faults_require _).bind fun _ => .pure _
  split
  · exact faults_readName.bind fun _ => (faults_evaluate context).bind fun _ =>
      faults_readLength.bind fun _ => (faults_require _).bind fun _ => .pure _
  split
  · refine (faults_evaluate context).bind fun v => .bind (faults_checked fun e he => ?_) fun _ =>
      .pure _
    obtain ⟨fault, -, rfl⟩ := mapError_eq_error.1 he
    cases fault <;> trivial
  · exact faults_failBehind fun _ => trivial

theorem faults_readTask (context : Context) (opcode : UInt8) :
    FailsOnlyBy RunError.IsFault (readTask context opcode) := by
  unfold readTask
  split
  · exact faults_readLength.bind fun _ => (faults_readBytes _).bind fun _ => .pure _
  split
  · exact faults_readStatement context
  · exact faults_failBehind fun _ => trivial

/-! ## Blocks -/

/-- Behind the head of an element less lies ahead than behind its first byte. -/
theorem rest_lt_of_readTask {context : Context} {c c' : Cursor} {opcode : UInt8} {bs : Bytes}
    {task : Task} (hc : c.rest = opcode :: bs)
    (htask : readTask context opcode (c.forward 1) = .ok task c') (count : Nat) :
    (c'.forward count).rest.length < bs.length := by
  have hshorter := consumes_readTask context opcode _ _ _ htask
  rw [Cursor.length_rest_forward, hc, List.length_cons] at hshorter
  rw [Cursor.length_rest_forward]
  omega

/-- What holds of a block where there is nothing, where it ends, and where an element stands if
it holds wherever less than that lies ahead, holds of every block. -/
theorem block_induction {motive : Cursor → Prop}
    (nothing : ∀ c, c.rest = [] → motive c)
    (stop : ∀ c after, c.rest = Opcode.stop :: after → motive c)
    (element : ∀ c opcode bs, c.rest = opcode :: bs → opcode ≠ Opcode.stop →
      (∀ c', c'.rest.length < bs.length → motive c') → motive c)
    (c : Cursor) : motive c := by
  induction hlength : c.rest.length using Nat.strongRecOn generalizing c with
  | ind n ih =>
      cases hc : c.rest with
      | nil => exact nothing c hc
      | cons opcode bs =>
          by_cases hstop : opcode = Opcode.stop
          · exact stop c bs (hstop ▸ hc)
          · refine element c opcode bs hc hstop fun c' hless => ih _ ?_ c' rfl
            rw [← hlength, hc]
            exact Nat.lt_succ_of_lt hless

/-- A block fails by the limit on the steps, by a fault of the code or the data, and by nesting if
there are fewer levels than bytes ahead. -/
theorem blockFrom_fails {P : RunError → Prop} (limits : Limits)
    (steps : ∀ n, limits.maxSteps = some n → P (.stepLimitExceeded n))
    (faults : ∀ e, e.IsFault → P e) (c : Cursor) :
    ∀ depth context, (depth < c.rest.length → P .depthExceeded) →
      Run.FailsOnlyBy P (blockFrom limits depth context c) := by
  induction c using block_induction with
  | nothing c hc =>
      intro depth context _
      rw [blockFrom_nil hc]
      exact .throw (faults _ trivial)
  | stop c after hc =>
      intro depth context _
      rw [blockFrom_stop hc]
      exact .pure _
  | element c opcode bs hc hstop ih =>
      intro depth context deep
      rw [hc, List.length_cons] at deep
      have hbehind : ∀ c', c'.rest.length < bs.length →
          Run.FailsOnlyBy P (blockFrom limits depth context c') := fun c' hless =>
        ih c' hless depth context fun h => deep (by omega)
      have hnested : ∀ context c', c'.rest.length < bs.length →
          Run.FailsOnlyBy P (Run.nested depth fun inner => blockFrom limits inner context c') :=
        fun context c' hless => .nested (fun h => deep (by omega)) fun inner hinner =>
          ih c' hless inner context hinner
      rw [blockFrom_eq hc hstop]
      refine .bind (.step steps) fun _ => ?_
      split
      next e _ htask => exact .throw (faults _ (faults_readTask _ _ _ _ _ htask))
      next task c' htask =>
        have hless := rest_lt_of_readTask hc htask
        cases task with
        | write data => exact .bind (.write data) fun _ => hbehind c' (c'.forward_zero ▸ hless 0)
        | choose holds yes no =>
            simp only [perform]
            split
            · exact .bind (hnested context _ (hless _)) fun _ => hbehind _ (hless _)
            · exact hbehind _ (hless _)
        | each name elements length =>
            refine .bind (.forM fun x _ => .bind (hnested _ c' (c'.forward_zero ▸ hless 0))
              fun _ => .pure _) fun _ => ?_
            unfold behindLoop
            split
            · exact .throw (faults _ trivial)
            split
            · rw [c'.forward_forward]
              exact hbehind _ (hless _)
            · exact .throw (faults _ trivial)

end Machine

end Stencil
