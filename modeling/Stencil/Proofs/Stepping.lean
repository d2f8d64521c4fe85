/-
# `Stencil.Proofs.Stepping` — every run of the machine ends

`Machine.runBlock` calls itself for nested blocks.  That it is defined at all says that it ends,
but not how it comes to that.  This module has the machine in another form, which calls nothing:
a state holds what is left to do when a block ends, as a stack with a frame for each block that
is being run for a statement (`Machine.State`), and a step deals with a byte that ends a block or
with an element (`State.next`).  The stack has no limit.

**What a step does**, from a block that has come to `c`:

    passes    on to c' > c in the same block             the same stack
    enters    c' = start of a block > statement + 1      one frame more
    repeats   c' = start of the body, once more          the same frame, fewer elements left
    leaves    c' > statement                             one frame less
    ends      with a result or an error

A block may have run far beyond the length that is stated for it, so that `leaves` and `repeats`
move back.  But never to the statement of the frame or before it, and the statements of a stack
lie one behind the other within the code: so the stack is never higher than the code is long.

**Proved here**, for all code and every context: each step of a run is such a move
(`State.orderly_next`); the run ends, as what lies ahead of a block gets shorter
(`followsFrom`); and it ends with the result that `runBlock` has with as many levels as the code
has bytes, while with fewer that has the same result or goes too deep (`every_run_ends`).
-/
import Mathlib.Logic.Function.Iterate
import Stencil.Proofs.Decoding

namespace Stencil

open EStateM (Result)

namespace Machine

open CodeReader

/-! ## The machine without calls -/

/-- What is left to do for a statement when a block of it ends: to go on behind its blocks, or to
run its body for the elements that are left. -/
inductive Pending where
  | goOn (behind : Cursor)
  | iterate (name : String) (elements : List Value) (length : Nat)

namespace Pending

/-- How many elements are left. -/
def left : Pending → Nat
  | goOn _ => 0
  | iterate _ elements _ => elements.length

end Pending

/-- A block that is being run for a statement: where the element of the statement starts, where
the block started, and the context and the rest of the work of the statement. -/
structure Frame where
  statement : Nat
  entered : Cursor
  context : Context
  pending : Pending

/-- The machine within a run, at a cursor of the block that it is running, or at the end. -/
inductive State where
  | running (context : Context) (c : Cursor) (p : Progress) (frames : List Frame)
  | ended (result : Result RunError Progress Cursor)

namespace State

/-- Before anything has run. -/
def start (code : Bytes) (context : Context) : State :=
  running context (Cursor.ofBytes code) .start []

/-- The blocks that are being run for statements, the innermost first. -/
def frames : State → List Frame
  | running _ _ _ frames => frames
  | ended _ => []

/-- Goes on behind the body of a loop, if the byte there ends the loop. -/
def closeLoop (context : Context) (c : Cursor) (p : Progress) (frames : List Frame) : State :=
  match c.rest with
  | [] => ended (.error (.unclosedLoop c.position) p)
  | b :: _ =>
    if b = Opcode.stop then running context (c.forward 1) p frames
    else ended (.error (.unclosedLoop c.position) p)

/-- Enters the body of a loop for the first of the elements, or goes on behind it if there are
none. -/
def iterate (statement : Nat) (context : Context) (body : Cursor) (name : String) (length : Nat)
    (p : Progress) (frames : List Frame) : List Value → State
  | [] => closeLoop context (body.forward length) p frames
  | x :: xs =>
    running (context.overlay name x) body p
      (⟨statement, body, context, .iterate name xs length⟩ :: frames)

/-- Goes on where a block ends that left the cursor there. -/
def leave (c : Cursor) (p : Progress) : List Frame → State
  | [] => ended (.ok c p)
  | f :: frames =>
    match f.pending with
    | .goOn behind => running f.context behind p frames
    | .iterate name elements length =>
      iterate f.statement f.context f.entered name length p frames elements

/-- Does what the element at a position asks for, whose head has been read. -/
def undertake (statement : Nat) (context : Context) (c : Cursor) (p : Progress)
    (frames : List Frame) : Task → State
  | .write data => running context c (p.write data) frames
  | .choose holds yes no =>
    let behind := c.forward (yes + no)
    if holds || 0 < no then
      let entered := c.forward (if holds then 0 else yes)
      running context entered p (⟨statement, entered, context, .goOn behind⟩ :: frames)
    else running context behind p frames
  | .each name elements length => iterate statement context c name length p frames elements

/-- One step: the byte that ends a block, or an element up to its blocks. -/
def next (limits : Limits) : State → State
  | ended result => ended result
  | running context c p frames =>
    match readByte c with
    | .error e _ => ended (.error e p)
    | .ok opcode c₁ =>
      if opcode = Opcode.stop then leave c₁ p frames
      else
        match limits.exceededBy (p.steps + 1) with
        | some limit => ended (.error (.stepLimitExceeded limit) p.tick)
        | none =>
          match readTask context opcode c₁ with
          | .error e _ => ended (.error e p.tick)
          | .ok task c₂ => undertake c.position context c₂ p.tick frames task

/-! ## What a step does -/

/-- One state comes behind another: the block goes on, or a block of a statement is entered, run
again or left, or the run has ended. -/
inductive Move : State → State → Prop
  | passes {context c c' p p' frames} : c.position < c'.position →
      Move (running context c p frames) (running context c' p' frames)
  | enters {context context' c c' p p' f frames} : f.statement = c.position →
      f.statement + 1 < f.entered.position → f.entered = c' → f.context = context →
      Move (running context c p frames) (running context' c' p' (f :: frames))
  | repeats {context context' c c' p p' f f' frames} : f'.statement = f.statement →
      f'.entered = f.entered → f.entered = c' → f'.context = f.context →
      f'.pending.left < f.pending.left →
      Move (running context c p (f :: frames)) (running context' c' p' (f' :: frames))
  | leaves {context c c' p p' f frames} : f.statement < c'.position →
      Move (running context c p (f :: frames)) (running f.context c' p' frames)
  | ends {s result} : Move s (ended result)

end State

/-- The frame is one of a run of the code: its block started behind both opcodes of its
statement, and what comes behind its blocks is behind the statement too. -/
structure Frame.Orderly (code : Bytes) (f : Frame) : Prop where
  within : f.statement < code.length
  data_eq : f.entered.data = code
  entered : f.statement + 1 < f.entered.position
  behind : ∀ {d}, f.pending = .goOn d → d.data = code ∧ f.statement < d.position

/-- The frames are those of a run of the code whose innermost block has come to a position: each
block has come to the statement for which the next one is run. -/
inductive Stacked (code : Bytes) : Nat → List Frame → Prop
  | bottom (position : Nat) : Stacked code position []
  | on {position f frames} : f.Orderly code → f.entered.position ≤ position →
      Stacked code f.statement frames → Stacked code position (f :: frames)

namespace Stacked

variable {code : Bytes} {position : Nat} {frames : List Frame}

theorem mono {position' : Nat} (h : Stacked code position frames) (hle : position ≤ position') :
    Stacked code position' frames := by
  cases h with
  | bottom => exact .bottom position'
  | on hf hentered hframes => exact .on hf (Nat.le_trans hentered hle) hframes

/-- Each frame takes up one position more. -/
theorem length_le (h : Stacked code position frames) : frames.length ≤ position := by
  induction h with
  | bottom => exact Nat.zero_le _
  | on hf hentered hframes ih =>
      have := hf.entered
      rw [List.length_cons]
      omega

end Stacked

namespace State

/-- The state is one of a run of the code. -/
def Orderly (code : Bytes) : State → Prop
  | running _ c _ frames => c.data = code ∧ Stacked code c.position frames
  | ended _ => True

variable {code : Bytes}

theorem orderly_start (code : Bytes) (context : Context) : (start code context).Orderly code :=
  ⟨rfl, .bottom 0⟩

/-- The stack is never higher than the code is long. -/
theorem Orderly.length_frames {s : State} (h : s.Orderly code) :
    s.frames.length ≤ code.length := by
  cases s with
  | ended => exact Nat.zero_le _
  | running context c p frames =>
      cases h.2 with
      | bottom => exact Nat.zero_le _
      | on hf _ hframes => exact Nat.lt_of_le_of_lt hframes.length_le hf.within

/-- Behind the body of a loop the block goes on behind one more byte, or the run ends. -/
theorem closeLoop_of {P : State → Prop} {context : Context} {c : Cursor} {p : Progress}
    {frames : List Frame} (goesOn : P (running context (c.forward 1) p frames))
    (ends : ∀ result, P (ended result)) : P (closeLoop context c p frames) := by
  unfold closeLoop
  split
  · exact ends _
  split
  · exact goesOn
  · exact ends _

theorem orderly_iterate {statement : Nat} {body : Cursor} {frames : List Frame}
    (hwithin : statement < code.length) (hdata : body.data = code)
    (hbody : statement + 1 < body.position) (hframes : Stacked code statement frames)
    (context : Context) (name : String) (length : Nat) (p : Progress) (elements : List Value) :
    (iterate statement context body name length p frames elements).Orderly code := by
  cases elements with
  | nil =>
      refine closeLoop_of ⟨hdata, hframes.mono ?_⟩ fun _ => trivial
      show statement ≤ body.position + length + 1
      omega
  | cons x xs => exact ⟨hdata, .on ⟨hwithin, hdata, hbody, nofun⟩ (Nat.le_refl _) hframes⟩

section

variable {context : Context} {c : Cursor} {p : Progress} {frames : List Frame}

/-- Where a block ends, its statement runs it again or is left. -/
theorem orderly_leave (hstacked : Stacked code c.position frames) (c' : Cursor) :
    Move (running context c p frames) (leave c' p frames) ∧ (leave c' p frames).Orderly code := by
  cases hstacked with
  | bottom => exact ⟨.ends, trivial⟩
  | @on _ f frames hf _ hframes =>
      have hentered := hf.entered
      simp only [leave]
      split
      next behind hpending =>
        obtain ⟨hdata, hbehind⟩ := hf.behind hpending
        exact ⟨.leaves hbehind, hdata, hframes.mono (Nat.le_of_lt hbehind)⟩
      next name elements length hpending =>
        refine ⟨?_, orderly_iterate hf.within hf.data_eq hentered hframes _ _ _ _ _⟩
        cases elements with
        | nil =>
            refine closeLoop_of (P := Move _) (.leaves ?_) fun _ => .ends
            show f.statement < f.entered.position + length + 1
            omega
        | cons x xs =>
            refine .repeats rfl rfl rfl rfl ?_
            rw [hpending]
            exact Nat.lt_succ_self _

/-- An element is passed, or a block of its statement is entered. -/
theorem orderly_undertake {c' : Cursor} (hdata : c'.data = code)
    (hwithin : c.position < code.length) (hbehind : c.position + 1 < c'.position)
    (hstacked : Stacked code c.position frames) (p' : Progress) (task : Task) :
    Move (running context c p frames) (undertake c.position context c' p' frames task) ∧
      (undertake c.position context c' p' frames task).Orderly code := by
  have hpassed : ∀ count, c.position < (c'.forward count).position := fun count =>
    show c.position < c'.position + count by omega
  cases task with
  | write data =>
      have hpasses : c.position < c'.position := Nat.lt_of_succ_lt hbehind
      exact ⟨.passes hpasses, hdata, hstacked.mono (Nat.le_of_lt hpasses)⟩
  | choose holds yes no =>
      simp only [undertake]
      split
      · have hentered : c.position + 1 < (c'.forward (if holds then 0 else yes)).position :=
          Nat.lt_of_lt_of_le hbehind (Nat.le_add_right _ _)
        refine ⟨.enters rfl hentered rfl rfl, hdata, .on ⟨hwithin, hdata, hentered, ?_⟩
          (Nat.le_refl _) hstacked⟩
        rintro _ ⟨⟩
        exact ⟨hdata, hpassed _⟩
      · exact ⟨.passes (hpassed _), hdata, hstacked.mono (Nat.le_of_lt (hpassed _))⟩
  | each name elements length =>
      refine ⟨?_, orderly_iterate hwithin hdata hbehind hstacked _ _ _ _ _⟩
      cases elements with
      | nil =>
          exact closeLoop_of (P := Move _) (.passes (Nat.lt_succ_of_lt (hpassed length)))
            fun _ => .ends
      | cons x xs => exact .enters rfl hbehind rfl rfl

end

/-- Every step of a run is a move, and leads to a state of the run. -/
theorem orderly_next (limits : Limits) {s : State} (h : s.Orderly code) :
    Move s (s.next limits) ∧ (s.next limits).Orderly code := by
  cases s with
  | ended => exact ⟨.ends, trivial⟩
  | running context c p frames =>
      obtain ⟨rfl, hstacked⟩ := h
      simp only [next]
      split
      · exact ⟨.ends, trivial⟩
      next opcode c₁ hopcode =>
        have hahead := advances_readByte.ok hopcode
        have hshorter := consumes_readByte _ _ _ hopcode
        have hmoved := hahead.position_add_rest
        split
        · exact orderly_leave hstacked c₁
        split
        · exact ⟨.ends, trivial⟩
        split
        · exact ⟨.ends, trivial⟩
        next task c₂ htask =>
          have hahead' := (advances_readTask context opcode).ok htask
          have hshorter' := consumes_readTask context opcode _ _ _ htask
          have hmoved' := hahead'.position_add_rest
          have hrest := congrArg List.length c.rest_eq
          rw [List.length_drop] at hrest
          exact orderly_undertake (hahead'.data_eq.trans hahead.data_eq) (by omega) (by omega)
            hstacked p.tick task

theorem orderly_steps (limits : Limits) (code : Bytes) (context : Context) (n : Nat) :
    ((next limits)^[n] (start code context)).Orderly code := by
  induction n with
  | zero => exact orderly_start code context
  | succ n ih =>
      rw [Function.iterate_succ_apply']
      exact (orderly_next limits ih).2

/-! ## What the steps lead to -/

section

variable {limits : Limits} {context : Context} {c : Cursor} {p : Progress} {frames : List Frame}

theorem next_nothing (h : c.rest = []) :
    (running context c p frames).next limits = ended (.error (.unexpectedEnd c.position) p) := by
  simp only [next, readByte_nil h]

theorem next_stop {after : Bytes} (h : c.rest = Opcode.stop :: after) :
    (running context c p frames).next limits = leave (c.forward 1) p frames := by
  simp only [next, readByte_cons h, if_true]

theorem next_element {opcode : UInt8} {bs : Bytes} (h : c.rest = opcode :: bs)
    (hne : opcode ≠ Opcode.stop) :
    (running context c p frames).next limits =
      match limits.exceededBy (p.steps + 1) with
      | some limit => ended (.error (.stepLimitExceeded limit) p.tick)
      | none =>
        match readTask context opcode (c.forward 1) with
        | .error e _ => ended (.error e p.tick)
        | .ok task c' => undertake c.position context c' p.tick frames task := by
  simp only [next, readByte_cons h, if_neg hne]

end

/-- Some number of steps leads from one state to the other. -/
def Reaches (limits : Limits) (s s' : State) : Prop :=
  ∃ n, (next limits)^[n] s = s'

theorem Reaches.refl {limits : Limits} (s : State) : Reaches limits s s := ⟨0, rfl⟩

theorem Reaches.trans {limits : Limits} {s s' s'' : State} (h : Reaches limits s s')
    (h' : Reaches limits s' s'') : Reaches limits s s'' := by
  obtain ⟨m, rfl⟩ := h
  obtain ⟨n, rfl⟩ := h'
  exact ⟨n + m, Function.iterate_add_apply _ n m s⟩

theorem iterate_ended (limits : Limits) (result : Result RunError Progress Cursor) (n : Nat) :
    (next limits)^[n] (ended result) = ended result := by
  induction n with
  | zero => rfl
  | succ n ih => rwa [Function.iterate_succ_apply]

/-- A run ends in one way. -/
theorem Reaches.ended_unique {limits : Limits} {s : State}
    {result result' : Result RunError Progress Cursor} (h : Reaches limits s (ended result))
    (h' : Reaches limits s (ended result')) : result = result' := by
  obtain ⟨m, hm⟩ := h
  obtain ⟨n, hn⟩ := h'
  have hmore := congrArg (next limits)^[n] hm
  have hmore' := congrArg (next limits)^[m] hn
  rw [← Function.iterate_add_apply, iterate_ended] at hmore hmore'
  rw [Nat.add_comm, hmore] at hmore'
  exact ended.inj hmore'

end State

/-! ## The steps of a block -/

open State

/-- Steps from the state lead to where the result is taken up, or to the end with the error,
unless the error is that of going too deep. -/
def Leads {α : Type} (limits : Limits) (s : State) (result : Result RunError Progress α)
    (behind : α → Progress → State) : Prop :=
  match result with
  | .ok a p => Reaches limits s (behind a p)
  | .error e p => e = .depthExceeded ∨ Reaches limits s (ended (.error e p))

theorem Leads.of_reaches {α : Type} {limits : Limits} {s s' : State}
    {result : Result RunError Progress α} {behind : α → Progress → State}
    (h : Reaches limits s s') (hresult : Leads limits s' result behind) :
    Leads limits s result behind := by
  cases result with
  | ok a p => exact h.trans hresult
  | error e p => exact hresult.imp_right h.trans

/-- With whatever progress the run starts, steps lead from here to what it results in. -/
def Follows {α : Type} (limits : Limits) (here : Progress → State) (m : Run α)
    (behind : α → Progress → State) : Prop :=
  ∀ p, Leads limits (here p) (m p) behind

namespace Follows

variable {α β : Type} {limits : Limits} {here : Progress → State}

theorem pure (a : α) (behind : α → Progress → State) :
    Follows limits (behind a) (Pure.pure a) behind :=
  fun p => .refl (behind a p)

theorem throw (e : RunError) (behind : α → Progress → State) :
    Follows limits (fun p => ended (.error e p)) (throw e) behind :=
  fun _ => .inr (.refl _)

theorem write (data : Bytes) (behind : Unit → Progress → State) :
    Follows limits (fun p => behind () (p.write data)) (Run.write data) behind :=
  fun p => .refl (behind () (p.write data))

theorem bind {m : Run α} {f : α → Run β} {between : α → Progress → State}
    {behind : β → Progress → State} (hm : Follows limits here m between)
    (hf : ∀ a, Follows limits (between a) (f a) behind) : Follows limits here (m >>= f) behind := by
  intro p
  have hp := hm p
  rw [Run.bind_apply]
  cases hresult : m p with
  | ok a p' =>
      rw [hresult] at hp
      exact .of_reaches hp (hf a p')
  | error e p' =>
      rw [hresult] at hp
      exact hp

theorem nested {depth : Nat} {body : Nat → Run α} {behind : α → Progress → State}
    (h : ∀ inner, Follows limits here (body inner) behind) :
    Follows limits here (Run.nested depth body) behind := by
  cases depth with
  | zero => exact fun p => .inl rfl
  | succ inner => exact h inner

theorem forM (here : List Value → Progress → State) {f : Value → Run Unit}
    (h : ∀ x xs, Follows limits (here (x :: xs)) (f x) fun _ => here xs) :
    ∀ elements : List Value, Follows limits (here elements) (elements.forM f) fun _ => here []
  | [] => pure () fun _ => here []
  | x :: xs => bind (h x xs) fun _ => forM here h xs

end Follows

/-- With any levels and any frames, the steps of the block at the cursor lead to where the frames
lead when it ends. -/
def FollowsFrom (limits : Limits) (c : Cursor) : Prop :=
  ∀ depth context frames, Follows limits (fun p => running context c p frames)
    (blockFrom limits depth context c) fun c' p => leave c' p frames

section

variable {limits : Limits}

theorem follows_behindLoop {c : Cursor} (h : FollowsFrom limits (c.forward 1)) (depth : Nat)
    (context : Context) (frames : List Frame) :
    Follows limits (fun p => closeLoop context c p frames) (behindLoop limits depth context c)
      fun c' p => leave c' p frames := by
  cases hc : c.rest with
  | nil =>
      simp only [closeLoop, hc, behindLoop_nil hc]
      exact .throw _ _
  | cons b bs =>
      simp only [closeLoop, hc, behindLoop_cons hc]
      split
      · exact h depth context frames
      · exact .throw _ _

/-- What an element asks for is done in steps. -/
theorem follows_perform {c : Cursor} (h : ∀ count, FollowsFrom limits (c.forward count))
    (statement depth : Nat) (context : Context) (frames : List Frame) (task : Task) :
    Follows limits (fun p => undertake statement context c p frames task)
      (perform limits depth context c task) fun c' p => leave c' p frames := by
  have hc : FollowsFrom limits c := c.forward_zero ▸ h 0
  cases task with
  | write data =>
      refine .bind (.write data fun _ p => running context c p frames) fun _ => ?_
      exact hc depth context frames
  | choose holds yes no =>
      have hbehind := h (yes + no) depth context frames
      simp only [perform, undertake]
      split
      · exact .bind (.nested fun inner => h _ inner context (_ :: frames)) fun _ => hbehind
      · exact hbehind
  | each name elements length =>
      have hclose : FollowsFrom limits ((c.forward length).forward 1) := by
        rw [c.forward_forward]
        exact h (length + 1)
      refine .bind (.forM (fun xs p => iterate statement context c name length p frames xs)
        (fun x xs => ?_) elements) fun _ => follows_behindLoop hclose depth context frames
      -- the frame of the body goes on with the elements that are left
      exact .bind (.nested fun inner => hc inner (context.overlay name x) (_ :: frames)) fun _ =>
        .pure () fun _ p => iterate statement context c name length p frames xs

end

/-- The steps of every block lead to where the frames lead when it ends. -/
theorem followsFrom (limits : Limits) (c : Cursor) : FollowsFrom limits c := by
  induction c using block_induction with
  | nothing c hc =>
      intro depth context frames p
      rw [blockFrom_nil hc]
      exact .inr ⟨1, next_nothing hc⟩
  | stop c after hc =>
      intro depth context frames p
      rw [blockFrom_stop hc]
      exact ⟨1, next_stop hc⟩
  | element c opcode bs hc hstop ih =>
      intro depth context frames p
      rw [blockFrom_eq hc hstop]
      refine .of_reaches ⟨1, next_element hc hstop⟩ ?_
      cases hlimit : limits.exceededBy (p.steps + 1) with
      | some limit =>
          rw [Run.step_bind_of_some hlimit]
          exact .inr (.refl _)
      | none =>
          rw [Run.step_bind_of_none hlimit]
          cases htask : readTask context opcode (c.forward 1) with
          | error e _ => exact .inr (.refl _)
          | ok task c' =>
              exact follows_perform (fun count => ih _ (rest_lt_of_readTask hc htask count))
                c.position depth context frames task p.tick

/-! ## Every run ends -/

/-- The steps of a run lead to what `runBlock` results in, unless that goes too deep. -/
theorem reaches_runBlock (limits : Limits) (levels : Nat) (code : Bytes) (context : Context) :
    Reaches limits (State.start code context)
        (ended (runBlock limits levels context (Cursor.ofBytes code) .start)) ∨
      ∃ p, runBlock limits levels context (Cursor.ofBytes code) .start =
        .error .depthExceeded p := by
  have hleads := followsFrom limits (Cursor.ofBytes code) levels context [] .start
  change Leads _ _ (runBlock limits levels context (Cursor.ofBytes code) .start) _ at hleads
  cases hresult : runBlock limits levels context (Cursor.ofBytes code) .start with
  | ok c p =>
      rw [hresult] at hleads
      exact .inl hleads
  | error e p =>
      rw [hresult] at hleads
      exact hleads.symm.imp_right fun he => ⟨p, congrArg (Result.error · p) he⟩

/-- With a level for each byte of the code, no run goes too deep. -/
theorem runBlock_ne_depthExceeded (limits : Limits) {levels : Nat} {code : Bytes}
    (h : code.length ≤ levels) (context : Context) (p : Progress) :
    runBlock limits levels context (Cursor.ofBytes code) .start ≠ .error .depthExceeded p := by
  intro hresult
  have hfault : ∀ e : RunError, e.IsFault → e ≠ .depthExceeded := by
    rintro _ he rfl
    exact he
  exact blockFrom_fails limits (fun _ _ => nofun) hfault (Cursor.ofBytes code) levels context
    (fun hless => absurd h (Nat.not_le_of_lt hless)) _ _ _ hresult rfl

/-- Of every code, in every context and with any limit on the steps, the run is a finite number
of moves that ends with a result or an error, on a stack that is never higher than the code is
long.  It is the run that `runBlock` makes with as many levels of nesting as the code has bytes
or more; with fewer levels that run is the same, or goes too deep. -/
theorem every_run_ends (limits : Limits) (code : Bytes) (context : Context) :
    (∀ n, Move ((next limits)^[n] (State.start code context))
      ((next limits)^[n + 1] (State.start code context))) ∧
    (∀ n, ((next limits)^[n] (State.start code context)).frames.length ≤ code.length) ∧
    ∃ n result, (next limits)^[n] (State.start code context) = ended result ∧
      (∀ p, result ≠ .error .depthExceeded p) ∧
      (∀ more, runBlock limits (code.length + more) context (Cursor.ofBytes code) .start = result) ∧
      ∀ levels, runBlock limits levels context (Cursor.ofBytes code) .start = result ∨
        ∃ p, runBlock limits levels context (Cursor.ofBytes code) .start =
          .error .depthExceeded p := by
  have hdeep := fun levels (h : code.length ≤ levels) => runBlock_ne_depthExceeded limits h context
  have hreaches := fun levels h => (reaches_runBlock limits levels code context).resolve_right
    fun ⟨p, hp⟩ => hdeep levels h p hp
  obtain ⟨n, hn⟩ := hreaches code.length (Nat.le_refl _)
  refine ⟨fun n => ?_, fun n => (orderly_steps limits code context n).length_frames, n, _, hn,
    hdeep code.length (Nat.le_refl _), fun more => ?_, fun levels => ?_⟩
  · rw [Function.iterate_succ_apply']
    exact (orderly_next limits (orderly_steps limits code context n)).1
  · exact (hreaches _ (Nat.le_add_right _ more)).ended_unique ⟨n, hn⟩
  · exact (reaches_runBlock limits levels code context).imp_left fun h => h.ended_unique ⟨n, hn⟩

end Machine

end Stencil
