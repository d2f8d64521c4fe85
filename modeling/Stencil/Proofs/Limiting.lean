/-
# `Stencil.Proofs.Limiting` — a limit on the steps cuts a run off

The machine counts an element before it reads on, and looks at the limit there and nowhere else.
So a run with a limit does what the run without does, up to the first element that is one too
many; and what the run without would do from there, be it an error, is not seen any more.

With `k` the count that the run without a limit ends with, the run with the limit `n` is

    the same                 if k ≤ n, or if it starts no element at all, however low the limit
    StepLimitExceeded n      otherwise

It is one relation between runs (`Run.Limited`), which holds of a step by the rule above and is
closed under sequencing.  An interpreter that runs many times counts anew each time, so that the
same holds of each of its runs (`Interpreter.runs_limited`).
-/
import Stencil.Proofs.Stepping
import Stencil.Render.Interpreter

namespace Stencil

open EStateM (Result)

namespace Run

variable {α β : Type}

/-- The progress made when a run is over, by a result or by an error. -/
def progress : Result RunError Progress α → Progress
  | .ok _ p => p
  | .error _ p => p

/-- Two results of runs that started with the same progress: the second is that of a run without
a limit, and the first is the same or that of a run cut off at the limit. -/
structure LimitedAt (n : Int) (p : Progress) (limited unlimited : Result RunError Progress α) :
    Prop where
  grows : p.steps ≤ (progress unlimited).steps
  same : (progress unlimited).steps = p.steps ∨ (progress unlimited).steps ≤ n →
    limited = unlimited
  cut : (progress unlimited).steps ≠ p.steps → n < (progress unlimited).steps →
    ∃ p', limited = .error (.stepLimitExceeded n) p'

/-- With whatever progress they start, the first run is the second one under a limit. -/
def Limited (n : Int) (limited unlimited : Run α) : Prop :=
  ∀ p, LimitedAt n p (limited p) (unlimited p)

namespace Limited

variable {n : Int}

/-- A run that takes no steps is under every limit. -/
theorem of_steps_eq {m : Run α} (h : ∀ p, (progress (m p)).steps = p.steps) : Limited n m m :=
  fun p => ⟨Nat.le_of_eq (h p).symm, fun _ => rfl, fun hne => absurd (h p) hne⟩

theorem pure (a : α) : Limited n (Pure.pure a : Run α) (Pure.pure a) :=
  of_steps_eq fun _ => rfl

theorem throw (e : RunError) : Limited n (throw e : Run α) (throw e) :=
  of_steps_eq fun _ => rfl

theorem write (data : Bytes) : Limited n (Run.write data) (Run.write data) :=
  of_steps_eq fun _ => rfl

theorem step : Limited n (Run.step ⟨some n⟩) (Run.step .unbounded) := by
  intro p
  by_cases hexceeds : n < ((p.steps + 1 : Nat) : Int)
  · have hlimit : (⟨some n⟩ : Limits).exceededBy (p.steps + 1) = some n :=
      Option.filter_eq_some_iff.2 ⟨rfl, decide_eq_true hexceeds⟩
    refine ⟨Nat.le_succ _, fun h => ?_, fun _ _ => ⟨p.tick, by rw [Run.step, hlimit]⟩⟩
    change p.steps + 1 = p.steps ∨ ((p.steps + 1 : Nat) : Int) ≤ n at h
    omega
  · have hlimit : (⟨some n⟩ : Limits).exceededBy (p.steps + 1) = none :=
      Option.filter_eq_none_iff.2 fun limit hlimit => by
        obtain rfl := Option.some.inj hlimit
        simpa using hexceeds
    exact ⟨Nat.le_succ _, fun _ => by rw [Run.step, hlimit]; rfl,
      fun _ h => absurd h hexceeds⟩

theorem bind {m u : Run α} {f g : α → Run β} (hmu : Limited n m u)
    (hfg : ∀ a, Limited n (f a) (g a)) : Limited n (m >>= f) (u >>= g) := by
  intro p
  have hfirst := hmu p
  rw [bind_apply, bind_apply]
  cases hu : u p with
  | error e q =>
      rw [hu] at hfirst
      refine ⟨hfirst.grows, fun h => by rw [hfirst.same h], fun hne hlt => ?_⟩
      obtain ⟨p', hcut⟩ := hfirst.cut hne hlt
      exact ⟨p', by rw [hcut]⟩
  | ok a q =>
      rw [hu] at hfirst
      change LimitedAt n p _ (g a q)
      have hsecond := hfg a q
      have hgrows : p.steps ≤ q.steps := hfirst.grows
      have hgrows' := hsecond.grows
      refine ⟨Nat.le_trans hgrows hgrows', fun h => ?_, fun hne hlt => ?_⟩
      · have hearlier : q.steps = p.steps ∨ (q.steps : Int) ≤ n := by omega
        rw [hfirst.same hearlier]
        exact hsecond.same (by omega)
      · by_cases hearlier : q.steps = p.steps ∨ (q.steps : Int) ≤ n
        · rw [hfirst.same hearlier]
          exact hsecond.cut (by omega) hlt
        · obtain ⟨p', hcut⟩ := hfirst.cut (fun h => hearlier (.inl h))
            (Int.lt_of_not_ge fun h => hearlier (.inr h))
          exact ⟨p', by rw [hcut]⟩

theorem nested {depth : Nat} {body body' : Nat → Run α}
    (h : ∀ inner, Limited n (body inner) (body' inner)) :
    Limited n (Run.nested depth body) (Run.nested depth body') := by
  cases depth with
  | zero => exact throw _
  | succ inner => exact h inner

theorem forM {f g : Value → Run Unit} (h : ∀ x, Limited n (f x) (g x)) :
    ∀ elements : List Value, Limited n (elements.forM f) (elements.forM g)
  | [] => pure ()
  | x :: xs => bind (h x) fun _ => forM h xs

end Limited

end Run

/-! ## The machine under a limit -/

namespace Machine

open CodeReader
open Run (Limited LimitedAt)

/-- A block that is run under a limit is the block run without, up to the limit. -/
theorem limited_blockFrom (n : Int) (c : Cursor) : ∀ depth context,
    Limited n (blockFrom ⟨some n⟩ depth context c) (blockFrom .unbounded depth context c) := by
  induction c using block_induction with
  | nothing c hc =>
      intro depth context
      rw [blockFrom_nil hc, blockFrom_nil hc]
      exact .throw _
  | stop c after hc =>
      intro depth context
      rw [blockFrom_stop hc, blockFrom_stop hc]
      exact .pure _
  | element c opcode bs hc hstop ih =>
      intro depth context
      rw [blockFrom_eq hc hstop, blockFrom_eq hc hstop]
      refine .bind .step fun _ => ?_
      split
      · exact .throw _
      next task c' htask =>
        have hforward := fun count => ih _ (rest_lt_of_readTask hc htask count)
        have hc' := c'.forward_zero ▸ hforward 0
        cases task with
        | write data => exact .bind (.write data) fun _ => hc' depth context
        | choose holds yes no =>
            simp only [perform]
            split
            · exact .bind (.nested fun inner => hforward _ inner context) fun _ =>
                hforward _ depth context
            · exact hforward _ depth context
        | each name elements length =>
            refine .bind (.forM (fun x => .bind (.nested fun inner => hc' inner _) fun _ =>
              .pure _) elements) fun _ => ?_
            unfold behindLoop
            split
            · exact .throw _
            split
            · rw [c'.forward_forward]
              exact hforward _ depth context
            · exact .throw _

/-- How many elements a run without a limit starts, up to its result or its error. -/
def elementsStarted (code : Bytes) (context : Context) : Nat :=
  (Run.progress (start .unbounded code context)).steps

/-- With a limit the output or the error is the same if no more elements are started than the
limit allows, or none at all, and else the error that tells the limit. -/
theorem run_limited (n : Int) (code : Bytes) (context : Context) :
    run ⟨some n⟩ code context =
      if elementsStarted code context = 0 ∨ (elementsStarted code context : Int) ≤ n then
        run .unbounded code context
      else .error (.stepLimitExceeded n) := by
  have hlimited := limited_blockFrom n (Cursor.ofBytes code) maxDepth context .start
  change LimitedAt n .start (start ⟨some n⟩ code context) (start .unbounded code context)
    at hlimited
  split
  next hwithin => rw [run, hlimited.same hwithin, run]
  next hbeyond =>
    obtain ⟨p', hcut⟩ := hlimited.cut (fun h => hbeyond (.inl h))
      (Int.lt_of_not_ge fun h => hbeyond (.inr h))
    rw [run, hcut]

/-! ## What the steps count -/

namespace State

/-- How many steps are counted. -/
def steps : State → Nat
  | running _ _ p _ => p.steps
  | ended result => (Run.progress result).steps

/-- Is the next byte one that starts an element? -/
def startsElement : State → Bool
  | running _ c _ _ =>
    match c.rest with
    | [] => false
    | opcode :: _ => opcode != Opcode.stop
  | ended _ => false

section

variable (context : Context) (c : Cursor) (p : Progress) (frames : List Frame)

theorem steps_closeLoop : (closeLoop context c p frames).steps = p.steps := by
  unfold closeLoop
  split
  · rfl
  · split <;> rfl

theorem steps_iterate (statement : Nat) (name : String) (length : Nat) (elements : List Value) :
    (iterate statement context c name length p frames elements).steps = p.steps := by
  cases elements with
  | nil => exact steps_closeLoop context (c.forward length) p frames
  | cons => rfl

theorem steps_leave : (leave c p frames).steps = p.steps := by
  cases frames with
  | nil => rfl
  | cons f frames =>
      simp only [leave]
      split
      · rfl
      · exact steps_iterate f.context f.entered p frames _ _ _ _

theorem steps_undertake (statement : Nat) (task : Task) :
    (undertake statement context c p frames task).steps = p.steps := by
  cases task with
  | write data => rfl
  | choose holds yes no =>
      simp only [undertake]
      split <;> rfl
  | each name elements length => exact steps_iterate context c p frames _ _ _ _

end

/-- A step is counted exactly if it starts an element. -/
theorem steps_next (s : State) :
    (s.next .unbounded).steps = s.steps + if s.startsElement then 1 else 0 := by
  cases s with
  | ended => rfl
  | running context c p frames =>
      cases hc : c.rest with
      | nil =>
          rw [next_nothing hc]
          simp only [startsElement, hc]
          rfl
      | cons opcode bs =>
          by_cases hstop : opcode = Opcode.stop
          · subst hstop
            rw [next_stop hc, steps_leave]
            simp only [startsElement, hc, bne_self_eq_false]
            rfl
          · rw [next_element hc hstop]
            simp only [startsElement, hc, bne_iff_ne.2 hstop, if_true]
            rw [show Limits.unbounded.exceededBy (p.steps + 1) = none from rfl]
            dsimp only
            split
            · rfl
            · exact steps_undertake _ _ _ _ _ _

/-- The count of a run is how many of its steps have started an element. -/
theorem steps_iterate_next (code : Bytes) (context : Context) (count : Nat) :
    ((next .unbounded)^[count] (start code context)).steps =
      (List.range count).countP fun i =>
        ((next .unbounded)^[i] (start code context)).startsElement := by
  induction count with
  | zero => rfl
  | succ count ih =>
      rw [Function.iterate_succ_apply', steps_next, ih, List.range_succ, List.countP_append,
        List.countP_singleton]

end State

/-- Unless the run goes too deep, the elements that it starts are those of its steps. -/
theorem elementsStarted_eq_countP (code : Bytes) (context : Context) :
    (∃ p, start .unbounded code context = .error .depthExceeded p) ∨
      ∃ count, (State.next .unbounded)^[count] (.start code context) =
          .ended (start .unbounded code context) ∧
        elementsStarted code context = (List.range count).countP fun i =>
          ((State.next .unbounded)^[i] (.start code context)).startsElement := by
  refine (reaches_runBlock .unbounded maxDepth code context).symm.imp_right ?_
  rintro ⟨count, hcount⟩
  refine ⟨count, hcount, ?_⟩
  rw [← State.steps_iterate_next, hcount]
  rfl

end Machine

/-! ## Many runs -/

namespace Interpreter

/-- Whatever an interpreter has counted so far, it runs its code from nothing done; and then it
has counted the steps of that run. -/
theorem run_eq (i : Interpreter) (context : Context) :
    i.run context =
      (Machine.run i.limits i.code context,
        { i with steps := (Run.progress (Machine.start i.limits i.code context)).steps }) := by
  have hstart : Machine.runBlock i.limits Machine.maxDepth context (Cursor.ofBytes i.code) ⟨0, []⟩ =
      Machine.start i.limits i.code context := rfl
  simp only [run, resume, reset, Machine.run, hstart]
  cases Machine.start i.limits i.code context <;> rfl

/-- Each of the runs of an interpreter is the run of its code, whatever came before it. -/
theorem runs_eq_map (i : Interpreter) (contexts : List Context) :
    i.runs contexts = contexts.map (Machine.run i.limits i.code) := by
  induction contexts generalizing i with
  | nil => rfl
  | cons context contexts ih =>
      rw [runs, run_eq]
      exact congrArg _ (ih _)

/-- Of an interpreter with a limit, whatever it has done before, each run gives the output or the
error that the run without a limit gives, if that starts no more elements than the limit allows
or none at all, and else the error that tells the limit.  The elements started are those of the
steps that the run takes. -/
theorem runs_limited (code : Bytes) (n : Int) (steps : Nat) (contexts : List Context) :
    (Interpreter.mk code ⟨some n⟩ steps).runs contexts = contexts.map (fun context =>
      if Machine.elementsStarted code context = 0 ∨ (Machine.elementsStarted code context : Int) ≤ n
      then Machine.run .unbounded code context
      else .error (.stepLimitExceeded n)) ∧
    ∀ context, (∃ p, Machine.start .unbounded code context = .error .depthExceeded p) ∨
      ∃ count, (Machine.State.next .unbounded)^[count] (.start code context) =
          .ended (Machine.start .unbounded code context) ∧
        Machine.elementsStarted code context = (List.range count).countP fun i =>
          ((Machine.State.next .unbounded)^[i] (.start code context)).startsElement := by
  refine ⟨?_, Machine.elementsStarted_eq_countP code⟩
  rw [runs_eq_map]
  exact List.map_congr_left fun context _ => Machine.run_limited n code context

/-- A run that starts no element is not cut off by a limit below zero. -/
theorem limit_below_zero_not_exceeded :
    ¬ ∀ (code : Bytes) (n : Int) (steps : Nat) (contexts : List Context),
      (Interpreter.mk code ⟨some n⟩ steps).runs contexts = contexts.map fun context =>
        if (Machine.elementsStarted code context : Int) ≤ n then
          Machine.run .unbounded code context
        else .error (.stepLimitExceeded n) := by
  intro h
  have hruns := h [Opcode.stop] (-1) 0 [.empty]
  have hends : (Cursor.ofBytes [Opcode.stop]).rest = Opcode.stop :: [] := rfl
  have hstop : ∀ limits, Machine.start limits [Opcode.stop] .empty =
      .ok ((Cursor.ofBytes [Opcode.stop]).forward 1) .start := fun limits =>
    congrFun (Machine.blockFrom_stop hends) .start
  rw [runs_eq_map] at hruns
  simp only [List.map_cons, Machine.run, Machine.elementsStarted, hstop] at hruns
  cases hruns

end Interpreter

end Stencil
