/-
# `Stencil.Proofs.Running` — running a block, and running its bytes

`Block.run` runs a tree: it has no cursor, skips nothing and goes back to nowhere.
This module shows that the machine does the same on the bytes of the tree, wherever they
stand:

    c faces b.elementBytes  ⟹   runBlock at c  =  b.run, and then runBlock behind them
                                                        (`Machine.blockFrom_elements`)
    c faces b.encode        ⟹   runBlock at c  =  b.run, and then c moved on by the bytes of b
                                                        (`Machine.blockFrom_eq_run`)

The induction is on the tree, and is done for the first, where the bytes behind the elements
may be any.  One step of the machine (`blockFrom_of_yields`) reads the head of an element and
hands a task to `perform`, which says what the machine does with it at the cursor behind the
head; the runs of nested blocks are those of subtrees, at cursors that face their bytes.

Steps, nesting, digits and lone surrogates are all that a tree can fail by (`Block.run_fails`).
-/
import Stencil.Proofs.Inherited

namespace Stencil

open EStateM (Result)

/-- A run of code: it makes progress, and fails with the progress made so far. -/
abbrev Run (α : Type) := EStateM RunError Progress α

namespace Run

variable {α β : Type}

/-- Counts a step, and fails if it is one too many. -/
def step (limits : Limits) : Run Unit := fun p =>
  match limits.exceededBy (p.steps + 1) with
  | some limit => .error (.stepLimitExceeded limit) p.tick
  | none => .ok () p.tick

/-- Writes bytes. -/
def write (data : Bytes) : Run Unit := modify (·.write data)

/-- A value or an error found without running anything. -/
def given (x : Except RunError α) : Run α :=
  match x with
  | .ok a => pure a
  | .error e => throw e

/-- Runs something one level deeper, if there is one. -/
def nested (depth : Nat) (body : Nat → Run α) : Run α :=
  match depth with
  | 0 => throw .depthExceeded
  | inner + 1 => body inner

@[simp] theorem given_ok (a : α) : given (.ok a) = pure a := rfl

theorem step_bind_of_some {limits : Limits} {limit : Int} {p : Progress} {f : Unit → Run α}
    (h : limits.exceededBy (p.steps + 1) = some limit) :
    (step limits >>= f) p = .error (.stepLimitExceeded limit) p.tick := by
  simp only [Bind.bind, EStateM.bind, step, h]

theorem step_bind_of_none {limits : Limits} {p : Progress} {f : Unit → Run α}
    (h : limits.exceededBy (p.steps + 1) = none) :
    (step limits >>= f) p = f () p.tick := by
  simp only [Bind.bind, EStateM.bind, step, h]

theorem bind_apply (m : Run α) (f : α → Run β) (p : Progress) :
    (m >>= f) p = match m p with
      | .ok a p => f a p
      | .error e p => .error e p := by
  cases h : m p <;> simp only [Bind.bind, EStateM.bind, h]

theorem given_bind (x : Except RunError α) (f : α → Except RunError β) :
    given (x >>= f) = given x >>= fun a => given (f a) := by
  cases x <;> rfl

theorem nested_bind (depth : Nat) (body : Nat → Run α) (f : α → Run β) :
    (nested depth fun inner => body inner >>= f) = nested depth body >>= f := by
  cases depth <;> rfl

end Run

/-! ## Trees -/

namespace Block

open Run

/-- Runs a block in a context, with `depth` more levels of nesting allowed. -/
def run (limits : Limits) : Block → Nat → Context → Run Unit
  | done, _, _ => pure ()
  | raw data next, depth, context => do
    step limits
    write data
    next.run limits depth context
  | print e next, depth, context => do
    step limits
    let v ← given (e.value context)
    let data ← given (v.output.mapError .ofOutputFault)
    write data
    next.run limits depth context
  | branch e yes next, depth, context => do
    step limits
    let v ← given (e.value context)
    if v.isTrue then
      nested depth fun inner => yes.run limits inner context
    next.run limits depth context
  | branchElse e yes no next, depth, context => do
    step limits
    let v ← given (e.value context)
    if v.isTrue then
      nested depth fun inner => yes.run limits inner context
    else
      nested depth fun inner => no.run limits inner context
    next.run limits depth context
  | loop name e body next, depth, context => do
    step limits
    let v ← given (e.value context)
    v.elements.forM fun x =>
      nested depth fun inner => body.run limits inner (context.overlay name x)
    next.run limits depth context

end Block

/-! ## One element of the machine -/

namespace Machine

open Run CodeReader

/-- `runBlock` as a run. -/
def blockFrom (limits : Limits) (depth : Nat) (context : Context) (c : Cursor) : Run Cursor :=
  fun p => runBlock limits depth context c p

/-- Runs what lies behind the body of a loop: the byte that ends the loop, and the rest
of the block. -/
def behindLoop (limits : Limits) (depth : Nat) (context : Context) (c : Cursor) : Run Cursor :=
  match c.rest with
  | [] => throw (.unclosedLoop c.position)
  | b :: _ =>
    if b = Opcode.stop then blockFrom limits depth context (c.forward 1)
    else throw (.unclosedLoop c.position)

/-- What the machine does with a task, at the cursor behind the head of its element. -/
def perform (limits : Limits) (depth : Nat) (context : Context) (c : Cursor) : Task → Run Cursor
  | .write data => do
    write data
    blockFrom limits depth context c
  | .choose holds yes no => do
    if holds || 0 < no then
      let _ ← nested depth fun inner =>
        blockFrom limits inner context (c.forward (if holds then 0 else yes))
    blockFrom limits depth context (c.forward (yes + no))
  | .each name elements length => do
    elements.forM fun x => do
      let _ ← nested depth fun inner => blockFrom limits inner (context.overlay name x) c
    behindLoop limits depth context (c.forward length)

theorem runEach_cons (body : Value → Progress → Result RunError Progress Cursor) (x : Value)
    (xs : List Value) (p : Progress) :
    runEach body (x :: xs) p = EStateM.bind (body x) (fun _ => runEach body xs) p := by
  simp only [runEach, EStateM.bind]
  cases body x p <;> rfl

theorem runEach_eq_forM (body : Value → Run Cursor) (elements : List Value) (p : Progress) :
    runEach body elements p = (elements.forM fun x => do let _ ← body x : Run Unit) p := by
  induction elements generalizing p with
  | nil => rfl
  | cons x xs ih =>
      have hrest : runEach body xs = (xs.forM fun x => do let _ ← body x : Run Unit) := funext ih
      show _ = ((do let _ ← body x) >>= fun _ => (xs.forM fun x => do let _ ← body x : Run Unit)) p
      rw [bind_assoc, ← hrest]
      exact runEach_cons body x xs p

theorem blockFrom_nil {limits : Limits} {depth : Nat} {context : Context} {c : Cursor}
    (h : c.rest = []) :
    blockFrom limits depth context c = throw (.unexpectedEnd c.position) := by
  funext p
  show runBlock limits depth context c p = .error (.unexpectedEnd c.position) p
  rw [runBlock]
  split
  next he =>
    cases he.symm.trans (readByte_nil h)
    rfl
  next hok => cases hok.symm.trans (readByte_nil h)

theorem blockFrom_stop {limits : Limits} {depth : Nat} {context : Context} {c : Cursor}
    {after : Bytes} (h : c.rest = Opcode.stop :: after) :
    blockFrom limits depth context c = pure (c.forward 1) := by
  funext p
  show runBlock limits depth context c p = .ok (c.forward 1) p
  rw [runBlock]
  split
  next he => cases he.symm.trans (readByte_cons h)
  next hok =>
    cases hok.symm.trans (readByte_cons h)
    exact if_pos rfl

theorem behindLoop_nil {limits : Limits} {depth : Nat} {context : Context} {c : Cursor}
    (h : c.rest = []) :
    behindLoop limits depth context c = throw (.unclosedLoop c.position) := by
  rw [behindLoop, h]

theorem behindLoop_cons {limits : Limits} {depth : Nat} {context : Context} {c : Cursor}
    {b : UInt8} {bs : Bytes} (h : c.rest = b :: bs) :
    behindLoop limits depth context c =
      if b = Opcode.stop then blockFrom limits depth context (c.forward 1)
      else throw (.unclosedLoop c.position) := by
  rw [behindLoop, h]

theorem runBlock_behindLoop (limits : Limits) (depth : Nat) (context : Context) (c : Cursor)
    (p : Progress) :
    (match h : c.rest with
      | [] => .error (.unclosedLoop c.position) p
      | b :: _ =>
        if b = Opcode.stop then runBlock limits depth context (c.past h) p
        else .error (.unclosedLoop c.position) p) =
      behindLoop limits depth context c p := by
  split
  next hnil => rw [behindLoop_nil hnil]; rfl
  next hcons =>
    rw [behindLoop_cons hcons, Cursor.past_eq_forward]
    split <;> rfl

theorem blockFrom_eq {limits : Limits} {depth : Nat} {context : Context} {c : Cursor}
    {opcode : UInt8} {bs : Bytes} (h : c.rest = opcode :: bs) (hne : opcode ≠ Opcode.stop) :
    blockFrom limits depth context c = (do
      step limits
      match readTask context opcode (c.forward 1) with
      | .error e _ => throw e
      | .ok task c' => perform limits depth context c' task) := by
  funext p
  show runBlock limits depth context c p = _
  rw [runBlock]
  split
  next he => cases he.symm.trans (readByte_cons h)
  next hok =>
    cases hok.symm.trans (readByte_cons h)
    rw [if_neg hne]
    split
    next hlimit => rw [step_bind_of_some hlimit]
    next hlimit =>
      rw [step_bind_of_none hlimit]
      split
      next htask => rw [htask]; rfl
      next htask => rw [htask]; rfl
      next holds yes no c' htask =>
        rw [htask]
        show _ = perform limits depth context c' (.choose holds yes no) p.tick
        simp only [perform]
        split
        next hruns =>
          cases depth with
          | zero => rfl
          | succ inner =>
              simp only [bind, EStateM.bind, nested, blockFrom]
              cases runBlock limits inner context _ p.tick <;> rfl
        next hskips => rfl
      next name elements length c' htask =>
        rw [htask]
        show _ = perform limits depth context c' (.each name elements length) p.tick
        generalize hran : runEach _ elements p.tick = ran
        have heach : (elements.forM fun x => do
            let _ ← nested depth fun inner =>
              blockFrom limits inner (context.overlay name x) c' : Run Unit) p.tick = ran := by
          rw [← hran, ← runEach_eq_forM]
          cases depth <;> rfl
        simp only [perform]
        rw [bind_apply, heach]
        cases ran with
        | error e p => rfl
        | ok _ p =>
            exact runBlock_behindLoop limits depth context (c'.forward length) p

/-- One element, of which it is known what its head is read as. -/
theorem blockFrom_of_yields {limits : Limits} {depth : Nat} {context : Context} {c : Cursor}
    {opcode : UInt8} {header after : Bytes} {x : Except RunError Task}
    (hne : opcode ≠ Opcode.stop) (hy : Yields (readTask context opcode) header after x)
    (hc : c.Faces (opcode :: header ++ after)) :
    blockFrom limits depth context c = (do
      step limits
      let task ← given x
      perform limits depth context (c.forward (opcode :: header).length) task) := by
  rw [blockFrom_eq hc.2 hne]
  have hhead : (c.forward 1).Faces (header ++ after) :=
    Cursor.Faces.forward (show c.Faces ([opcode] ++ (header ++ after)) from hc)
  have hread := hy _ hhead
  cases x with
  | error e =>
      obtain ⟨c', he⟩ := hread
      rw [he]
      rfl
  | ok task =>
      rw [hread, c.forward_forward, List.length_cons, Nat.add_comm]
      rfl

/-! ## The machine on the bytes of a tree -/

theorem perform_branch {limits : Limits} {depth : Nat} {context : Context} {c d : Cursor}
    {holds : Bool} {yes : Nat} {runYes : Nat → Run Unit}
    (hyes : ∀ inner, blockFrom limits inner context c = do runYes inner; return d) :
    perform limits depth context c (.choose holds yes 0) = (do
      if holds then nested depth runYes
      blockFrom limits depth context (c.forward yes)) := by
  have hrun := nested_bind depth runYes fun _ => pure d
  cases holds with
  | true =>
      simp only [perform, Bool.true_or, if_true, c.forward_zero, hyes, hrun, bind_assoc, pure_bind,
        Nat.add_zero]
  | false =>
      simp only [perform, Bool.false_or, Nat.lt_irrefl, decide_false, Bool.false_eq_true, if_false,
        Nat.add_zero]

theorem perform_branchElse {limits : Limits} {depth : Nat} {context : Context} {c d d' : Cursor}
    {holds : Bool} {yes no : Nat} {runYes runNo : Nat → Run Unit}
    (hyes : ∀ inner, blockFrom limits inner context c = do runYes inner; return d)
    (hno : ∀ inner,
      blockFrom limits inner context (c.forward yes) = do runNo inner; return d')
    (hpos : 0 < no) :
    perform limits depth context c (.choose holds yes no) = (do
      if holds then nested depth runYes else nested depth runNo
      blockFrom limits depth context (c.forward (yes + no))) := by
  cases holds with
  | true =>
      have hrun := nested_bind depth runYes fun _ => pure d
      simp only [perform, Bool.true_or, if_true, c.forward_zero, hyes, hrun, bind_assoc, pure_bind]
  | false =>
      have hrun := nested_bind depth runNo fun _ => pure d'
      simp only [perform, Bool.false_or, hpos, decide_true, if_true, Bool.false_eq_true, if_false,
        hno, hrun, bind_assoc, pure_bind]

theorem perform_each {limits : Limits} {depth : Nat} {context : Context} {c d : Cursor}
    {name : String} {elements : List Value} {length : Nat} {run : Nat → Value → Run Unit}
    (hbody : ∀ inner x,
      blockFrom limits inner (context.overlay name x) c = do run inner x; return d) :
    perform limits depth context c (.each name elements length) = (do
      elements.forM fun x => nested depth fun inner => run inner x
      behindLoop limits depth context (c.forward length)) := by
  have hrun := fun x => nested_bind depth (run · x) fun _ => pure d
  simp only [perform, hbody, hrun, bind_assoc, pure_bind, bind_pure_unit]

/-- If the machine runs the elements of a block wherever they stand, then also the block: it stops
behind the byte that ends it. -/
theorem blockFrom_of_elements {b : Block} {limits : Limits} {depth : Nat} {context : Context}
    {run : Run Unit}
    (h : ∀ {c : Cursor} {after : Bytes}, c.Faces (b.elementBytes ++ after) →
      blockFrom limits depth context c = (do
        run
        blockFrom limits depth context (c.forward b.elementBytes.length)))
    {c : Cursor} {after : Bytes} (hc : c.Faces (b.encode ++ after)) :
    blockFrom limits depth context c = (do run; return c.forward b.encode.length) := by
  rw [b.encode_eq_elementBytes, List.append_assoc] at hc
  rw [h hc, blockFrom_stop hc.forward.2, b.encode_eq_elementBytes, ← c.forward_append]
  rfl

/-- Whatever stands behind its elements, the machine runs a block and goes on there. -/
theorem blockFrom_elements {b : Block} (hb : b.Legible) (hl : b.LengthsFit) (limits : Limits)
    (depth : Nat) (context : Context) {c : Cursor} {after : Bytes}
    (hc : c.Faces (b.elementBytes ++ after)) :
    blockFrom limits depth context c = (do
      b.run limits depth context
      blockFrom limits depth context (c.forward b.elementBytes.length)) := by
  induction b generalizing depth context c after with
  | done => rfl
  | raw data next ih =>
      rw [Block.elementBytes_of_encode (Block.encode_raw data next)] at hc ⊢
      rw [List.append_assoc] at hc
      have hnext := ih hb.2 hl.2 depth context hc.forward
      rw [blockFrom_of_yields (by decide) (yields_raw hl.1) hc]
      simp only [given_ok, pure_bind, perform, hnext, Block.run, bind_assoc, c.forward_append]
  | print e next ih =>
      rw [Block.elementBytes_of_encode (Block.encode_print e next)] at hc ⊢
      rw [List.append_assoc] at hc
      have hnext := ih hb.2 hl depth context hc.forward
      rw [blockFrom_of_yields (by decide) (yields_print hb.1) hc]
      simp only [given_bind, printTask, given_ok, pure_bind, perform, hnext, Block.run, bind_assoc,
        c.forward_append]
  | branch e yes next ihY ih =>
      rw [Block.elementBytes_of_encode (Block.encode_branch e yes next)] at hc ⊢
      rw [List.append_assoc, List.append_assoc] at hc
      have hyes := fun inner =>
        blockFrom_of_elements (ihY hb.2.1 hl.2.1 inner context) hc.forward
      have hnext := ih hb.2.2 hl.2.2 depth context hc.forward.forward
      rw [blockFrom_of_yields (by decide) (yields_branch hb.1 hl.1 (by decide) rfl) hc]
      simp only [given_bind, bind_assoc, given_ok, pure_bind, Block.run]
      refine bind_congr fun _ => bind_congr fun v => ?_
      rw [perform_branch hyes, hnext]
      cases v.isTrue <;>
        simp only [if_true, Bool.false_eq_true, if_false, bind_assoc, c.forward_append,
          List.append_assoc]
  | branchElse e yes no next ihY ihN ih =>
      obtain ⟨hyb, hnb, hly, hln, hl⟩ := hl
      rw [Block.elementBytes_of_encode (Block.encode_branchElse e yes no next)] at hc ⊢
      rw [List.append_assoc, List.append_assoc, List.append_assoc] at hc
      have hyes := fun inner =>
        blockFrom_of_elements (ihY hb.2.1 hly inner context) hc.forward
      have hno := fun inner =>
        blockFrom_of_elements (ihN hb.2.2.1 hln inner context) hc.forward.forward
      have hnext := ih hb.2.2.2 hl depth context hc.forward.forward.forward
      rw [blockFrom_of_yields (by decide) (yields_branch hb.1 hyb hnb List.length_append)
        (by rwa [List.append_assoc])]
      simp only [given_bind, bind_assoc, given_ok, pure_bind, Block.run]
      refine bind_congr fun _ => bind_congr fun v => ?_
      rw [perform_branchElse hyes hno no.length_encode_pos, ← (c.forward _).forward_forward, hnext]
      cases v.isTrue <;>
        simp only [if_true, Bool.false_eq_true, if_false, bind_assoc, c.forward_append,
          List.append_assoc]
  | loop name e body next ihB ih =>
      rw [Block.elementBytes_of_encode (Block.encode_loop name e body next)] at hc ⊢
      rw [List.append_assoc, List.append_assoc, List.append_assoc] at hc
      have hbody := fun inner x =>
        blockFrom_of_elements (ihB hb.2.2.1 hl.2.1 inner (context.overlay name x)) hc.forward
      have hnext := ih hb.2.2.2 hl.2.2 depth context hc.forward.forward.forward
      rw [blockFrom_of_yields (by decide) (yields_loop hb.1 hb.2.1 hl.1) hc]
      simp only [given_bind, bind_assoc, given_ok, pure_bind, Block.run]
      refine bind_congr fun _ => bind_congr fun v => ?_
      rw [perform_each hbody, behindLoop_cons hc.forward.forward.2, if_pos rfl]
      refine bind_congr fun _ => ?_
      refine hnext.trans ?_
      simp only [c.forward_append, List.append_assoc]

/-- Wherever the bytes of a block stand, the machine runs the block and stops behind them. -/
theorem blockFrom_eq_run {b : Block} (hb : b.Legible) (hl : b.LengthsFit) (limits : Limits)
    (depth : Nat) (context : Context) {c : Cursor} {after : Bytes}
    (hc : c.Faces (b.encode ++ after)) :
    blockFrom limits depth context c = (do
      b.run limits depth context
      return c.forward b.encode.length) :=
  blockFrom_of_elements (blockFrom_elements hb hl limits depth context) hc

/-- On code that begins with the bytes of a block, the machine runs the block and stops behind
them, whatever comes then. -/
theorem runBlock_encode_append {b : Block} (hb : b.Legible) (hl : b.LengthsFit) (limits : Limits)
    (depth : Nat) (context : Context) (after : Bytes) (p : Progress) :
    runBlock limits depth context (Cursor.ofBytes (b.encode ++ after)) p =
      match b.run limits depth context p with
      | .ok _ p => .ok ((Cursor.ofBytes (b.encode ++ after)).forward b.encode.length) p
      | .error e p => .error e p := by
  have hfaces := Cursor.faces_ofBytes (b.encode ++ after)
  have hrun := congrFun (blockFrom_eq_run hb hl limits depth context hfaces) p
  rw [bind_apply] at hrun
  refine hrun.trans ?_
  cases b.run limits depth context p <;> rfl

/-- Started on the bytes of a block, the machine runs the block and stops behind them. -/
theorem start_encode {limits : Limits} {b : Block} (hb : b.Legible) (hl : b.LengthsFit)
    (context : Context) :
    start limits b.encode context =
      match b.run limits maxDepth context .start with
      | .ok _ p => .ok ((Cursor.ofBytes b.encode).forward b.encode.length) p
      | .error e p => .error e p := by
  have hrun := runBlock_encode_append hb hl limits maxDepth context [] .start
  rwa [List.append_nil] at hrun

/-- The output of running the bytes of a block is that of running the block. -/
theorem run_encode {limits : Limits} {b : Block} (hb : b.Legible) (hl : b.LengthsFit)
    (context : Context) :
    run limits b.encode context =
      match b.run limits maxDepth context .start with
      | .ok _ p => .ok p.output
      | .error e _ => .error e := by
  rw [run, start_encode hb hl]
  cases b.run limits maxDepth context .start <;> rfl

end Machine

/-! ## What a tree can fail by -/

namespace Run

variable {α β : Type} {P : RunError → Prop}

/-- Every error of the run is one of these. -/
def FailsOnlyBy (P : RunError → Prop) (m : Run α) : Prop :=
  ∀ p e p', m p = .error e p' → P e

namespace FailsOnlyBy

theorem pure (a : α) : FailsOnlyBy P (Pure.pure a : Run α) := by
  rintro p e p' ⟨⟩

theorem throw {e : RunError} (h : P e) : FailsOnlyBy P (throw e : Run α) := by
  rintro p _ p' ⟨⟩
  exact h

theorem write (data : Bytes) : FailsOnlyBy P (Run.write data) := by
  rintro p e p' ⟨⟩

theorem bind {m : Run α} {f : α → Run β} (hm : FailsOnlyBy P m)
    (hf : ∀ a, FailsOnlyBy P (f a)) : FailsOnlyBy P (m >>= f) := by
  intro p e p' h
  rw [bind_apply] at h
  split at h
  next hok => exact hf _ _ _ _ h
  next herr =>
    cases h
    exact hm _ _ _ herr

theorem step {limits : Limits}
    (h : ∀ n, limits.maxSteps = some n → P (.stepLimitExceeded n)) :
    FailsOnlyBy P (Run.step limits) := by
  intro p e p' hp
  unfold Run.step at hp
  split at hp
  next limit hlimit =>
    cases hp
    exact h limit (Option.filter_eq_some_iff.1 hlimit).1
  next => cases hp

theorem given {x : Except RunError α} {f : α → Run β} (h : ∀ e, x = .error e → P e)
    (hf : ∀ a, x = .ok a → FailsOnlyBy P (f a)) : FailsOnlyBy P (Run.given x >>= f) := by
  cases x with
  | ok a => exact hf a rfl
  | error e => exact FailsOnlyBy.throw (h e rfl)

theorem nested {depth inside : Nat} {body : Nat → Run α}
    (deep : depth < inside + 1 → P .depthExceeded)
    (hbody : ∀ inner, (inner < inside → P .depthExceeded) → FailsOnlyBy P (body inner)) :
    FailsOnlyBy P (Run.nested depth body) := by
  cases depth with
  | zero => exact FailsOnlyBy.throw (deep (Nat.succ_pos inside))
  | succ inner => exact hbody inner fun h => deep (Nat.succ_lt_succ h)

theorem forM {body : Value → Run Unit} {elements : List Value}
    (h : ∀ x ∈ elements, FailsOnlyBy P (body x)) : FailsOnlyBy P (elements.forM body) := by
  induction elements with
  | nil => exact .pure ()
  | cons x xs ih =>
      obtain ⟨hx, hxs⟩ := List.forall_mem_cons.1 h
      exact .bind hx fun _ => ih hxs

end FailsOnlyBy

end Run

/-- A value of a well-formed expression is missing for one reason only. -/
theorem Expr.value_error {e : Expr} (he : e.WellFormed) {context : Context} {error : RunError}
    (h : e.value context = .error error) : ∃ digits, error = .tooManyDigits digits := by
  cases e with
  | always => cases h
  | path segments =>
      cases segments with
      | nil => exact absurd rfl he.1
      | cons name rest =>
          obtain ⟨_, hresolve, rfl⟩ := mapError_eq_error.1 h
          obtain ⟨digits, -, rfl⟩ := mapError_eq_error.1 hresolve
          exact ⟨digits, rfl⟩

namespace Block

/-- How deep the blocks of a block are nested. -/
def nesting : Block → Nat
  | done => 0
  | raw _ next => next.nesting
  | print _ next => next.nesting
  | branch _ yes next => max (yes.nesting + 1) next.nesting
  | branchElse _ yes no next => max (max (yes.nesting + 1) (no.nesting + 1)) next.nesting
  | loop _ _ body next => max (body.nesting + 1) next.nesting

section

variable {P : RunError → Prop} {limits : Limits} {context : Context}

open Run

/-- What is common to all statements: a step, and the value of an expression. -/
theorem value_fails {e : Expr} {f : Value → Run Unit} (he : e.WellFormed)
    (steps : ∀ n, limits.maxSteps = some n → P (.stepLimitExceeded n))
    (digits : ∀ d, P (.tooManyDigits d))
    (hf : ∀ v, e.value context = .ok v → FailsOnlyBy P (f v)) :
    FailsOnlyBy P (do step limits; let v ← given (e.value context); f v) := by
  refine .bind (.step steps) fun _ => .given (fun error h => ?_) hf
  obtain ⟨d, rfl⟩ := Expr.value_error he h
  exact digits d

/-- A block fails by too many steps, by nesting that goes too deep, by a number of too many
digits, and by a text of the context that has no bytes, and by nothing else. -/
theorem run_fails {b : Block} {depth : Nat} (hb : b.Legible)
    (steps : ∀ n, limits.maxSteps = some n → P (.stepLimitExceeded n))
    (deep : depth < b.nesting → P .depthExceeded)
    (digits : ∀ d, P (.tooManyDigits d))
    (lone : ¬ context.Whole → ∀ l, P (.loneSurrogates l)) :
    FailsOnlyBy P (b.run limits depth context) := by
  induction b generalizing depth context with
  | done => exact .pure ()
  | raw data next ih =>
      have hnext : FailsOnlyBy P (next.run limits depth context) := ih hb.2 deep lone
      exact .bind (.step steps) fun _ => .bind (.write data) fun _ => hnext
  | print e next ih =>
      have hnext : FailsOnlyBy P (next.run limits depth context) := ih hb.2 deep lone
      refine value_fails hb.1 steps digits fun v hv => ?_
      refine .given (fun error h => ?_) fun data _ => .bind (.write data) fun _ => hnext
      obtain ⟨fault, hfault, rfl⟩ := mapError_eq_error.1 h
      cases fault with
      | tooManyDigits d => exact digits d
      | loneSurrogates l =>
          refine lone (fun hwhole => ?_) l
          exact (Value.inherited_whole.value hwhole hv).output_ne_loneSurrogates l hfault
  | branch e yes next ihY ih =>
      have hyes : FailsOnlyBy P (nested depth fun inner => yes.run limits inner context) :=
        .nested (fun h => deep (Nat.lt_of_lt_of_le h (Nat.le_max_left _ _)))
          fun _ hin => ihY hb.2.1 hin lone
      have hnext : FailsOnlyBy P (next.run limits depth context) :=
        ih hb.2.2 (fun h => deep (Nat.lt_of_lt_of_le h (Nat.le_max_right _ _))) lone
      refine value_fails hb.1 steps digits fun v _ => ?_
      split
      · exact .bind hyes fun _ => hnext
      · exact hnext
  | branchElse e yes no next ihY ihN ih =>
      have hblocks : max (yes.nesting + 1) (no.nesting + 1) ≤ (branchElse e yes no next).nesting :=
        Nat.le_max_left _ _
      have hyes : FailsOnlyBy P (nested depth fun inner => yes.run limits inner context) :=
        .nested (fun h => deep (Nat.lt_of_lt_of_le h (Nat.le_trans (Nat.le_max_left _ _) hblocks)))
          fun _ hin => ihY hb.2.1 hin lone
      have hno : FailsOnlyBy P (nested depth fun inner => no.run limits inner context) :=
        .nested (fun h => deep (Nat.lt_of_lt_of_le h (Nat.le_trans (Nat.le_max_right _ _) hblocks)))
          fun _ hin => ihN hb.2.2.1 hin lone
      have hnext : FailsOnlyBy P (next.run limits depth context) :=
        ih hb.2.2.2 (fun h => deep (Nat.lt_of_lt_of_le h (Nat.le_max_right _ _))) lone
      refine value_fails hb.1 steps digits fun v _ => ?_
      split
      · exact .bind hyes fun _ => hnext
      · exact .bind hno fun _ => hnext
  | loop name e body next ihB ih =>
      have hnext : FailsOnlyBy P (next.run limits depth context) :=
        ih hb.2.2.2 (fun h => deep (Nat.lt_of_lt_of_le h (Nat.le_max_right _ _))) lone
      refine value_fails hb.2.1 steps digits fun v hv => .bind (.forM fun x hx => ?_) fun _ => hnext
      refine .nested (fun h => deep (Nat.lt_of_lt_of_le h (Nat.le_max_left _ _))) fun _ hin => ?_
      refine ihB hb.2.2.1 hin fun hnot => lone fun hwhole => hnot ⟨?_, hwhole⟩
      exact Value.inherited_whole.elements (Value.inherited_whole.value hwhole hv) x hx

end

end Block

end Stencil
