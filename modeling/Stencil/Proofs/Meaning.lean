/-
# `Stencil.Proofs.Meaning` — what a block means, and that the machine computes it

The meaning of a block in a context is a rendering: bytes, and a number of steps.  It is
put together from the meanings of the parts, and knows no code:

    raw data       data itself
    print e        the text of the value of e; nothing if there is no value
    branch e       the first block if e is the boolean `true`, else the second, if any
    loop n e       the body once for each element of e, in order, with n bound to it

Each element is one step more.  A number of too many digits makes an error of the whole, and
so does a text with a lone surrogate in it, where it is printed.

**Proved here.**  Without a limit on steps, and with as many levels as the block is deep,
the machine started at the first of the bytes of a block appends the meaning to what was
written, adds its steps, and stops just behind those bytes (`Machine.runBlock_denote`).
-/
import Stencil.Proofs.Running

namespace Stencil

/-! ## Renderings -/

/-- What a rendering comes to: the bytes written, and the steps taken. -/
structure Rendering where
  output : Bytes
  steps : Nat
deriving DecidableEq, Repr

namespace Rendering

/-- Nothing written, and no step taken. -/
def empty : Rendering := ⟨[], 0⟩

/-- One step. -/
def step : Rendering := ⟨[], 1⟩

/-- These bytes, written without a step of their own. -/
def text (data : Bytes) : Rendering := ⟨data, 0⟩

/-- One rendering and then another. -/
def append (r s : Rendering) : Rendering := ⟨r.output ++ s.output, r.steps + s.steps⟩

instance : Append Rendering := ⟨append⟩

/-- Renderings one after the other. -/
def concat (rs : List Rendering) : Rendering := rs.foldr append empty

end Rendering

namespace Block

/-- The meaning of a block in a context. -/
def denote : Block → Context → Except RunError Rendering
  | done, _ => return .empty
  | raw data next, context => do
    let rest ← next.denote context
    return .step ++ (.text data ++ rest)
  | print e next, context => do
    let v ← e.value context
    let data ← v.output.mapError .ofOutputFault
    let rest ← next.denote context
    return .step ++ (.text data ++ rest)
  | branch e yes next, context => do
    let v ← e.value context
    let block ← if v.isTrue then yes.denote context else pure .empty
    let rest ← next.denote context
    return .step ++ (block ++ rest)
  | branchElse e yes no next, context => do
    let v ← e.value context
    let block ← if v.isTrue then yes.denote context else no.denote context
    let rest ← next.denote context
    return .step ++ (block ++ rest)
  | loop name e body next, context => do
    let v ← e.value context
    let blocks ← v.elements.mapM fun x => body.denote (context.overlay name x)
    let rest ← next.denote context
    return .step ++ (.concat blocks ++ rest)

end Block

/-! ## Runs that render -/

/-- The progress made by a rendering. -/
def Progress.extend (p : Progress) (r : Rendering) : Progress :=
  ⟨p.steps + r.steps, r.output.reverseAux p.written⟩

namespace Progress

theorem extend_append (p : Progress) (r s : Rendering) :
    p.extend (r ++ s) = (p.extend r).extend s := by
  show Progress.mk (p.steps + (r.steps + s.steps)) ((r.output ++ s.output).reverseAux p.written) =
    Progress.mk (p.steps + r.steps + s.steps) (s.output.reverseAux (r.output.reverseAux p.written))
  simp only [Nat.add_assoc, List.reverseAux_eq, List.reverse_append, List.append_assoc]

theorem output_extend (p : Progress) (r : Rendering) :
    (p.extend r).output = p.output ++ r.output := by
  simp only [extend, output, List.reverseAux_eq, List.reverse_append, List.reverse_reverse]

theorem steps_extend (p : Progress) (r : Rendering) : (p.extend r).steps = p.steps + r.steps := rfl

end Progress

namespace Run

/-- The run makes the progress of a rendering, wherever it starts, or fails with the
error in its place. -/
def Renders (m : Run Unit) (x : Except RunError Rendering) : Prop :=
  ∀ p, match x with
    | .ok r => m p = .ok () (p.extend r)
    | .error e => ∃ p', m p = .error e p'

namespace Renders

theorem empty : Renders (pure ()) (pure .empty) := fun _ => rfl

theorem append {m n : Run Unit} {x y : Except RunError Rendering} (hm : Renders m x)
    (hn : Renders n y) :
    Renders (do m; n) (do let r ← x; let s ← y; return r ++ s) := by
  intro p
  have first := hm p
  cases x with
  | error e =>
      obtain ⟨p', he⟩ := first
      exact ⟨p', by rw [bind_apply, he]⟩
  | ok r =>
      have second := hn (p.extend r)
      have hbind : (do m; n : Run Unit) p = n (p.extend r) := by rw [bind_apply, first]
      cases y with
      | error e =>
          obtain ⟨p', he⟩ := second
          exact ⟨p', hbind.trans he⟩
      | ok s =>
          refine hbind.trans (second.trans ?_)
          rw [p.extend_append]

theorem given {α : Type} {x : Except RunError α} {f : α → Run Unit}
    {g : α → Except RunError Rendering} (h : ∀ a, Renders (f a) (g a)) :
    Renders (Run.given x >>= f) (x >>= g) := by
  cases x with
  | ok a => exact h a
  | error e => exact fun p => ⟨p, rfl⟩

theorem write (data : Bytes) : Renders (Run.write data) (return .text data) := fun _ => rfl

theorem step : Renders (Run.step .unbounded) (return .step) := fun _ => rfl

/-- A step that evaluates, what depends on the value, and what comes then. -/
theorem value (e : Expr) (context : Context) {f : Value → Run Unit}
    {g : Value → Except RunError Rendering} {m : Run Unit} {x : Except RunError Rendering}
    (hf : ∀ v, Renders (f v) (g v)) (h : Renders m x) :
    Renders (do Run.step .unbounded; let v ← Run.given (e.value context); f v; m)
      (do
        let v ← e.value context
        let block ← g v
        let rest ← x
        return .step ++ (block ++ rest)) := by
  have hall := step.append (given (x := e.value context) fun v => (hf v).append h)
  simpa only [bind_assoc, pure_bind] using hall

theorem forM {body : Value → Run Unit} {g : Value → Except RunError Rendering}
    (h : ∀ x, Renders (body x) (g x)) : ∀ elements : List Value,
      Renders (elements.forM body) (do let rs ← elements.mapM g; return .concat rs)
  | [] => empty
  | x :: xs => by
      have hall := (h x).append (forM h xs)
      simp only [List.mapM_cons, bind_assoc, pure_bind] at hall ⊢
      exact hall

theorem nested {depth inside : Nat} {m : Nat → Run Unit} {x : Except RunError Rendering}
    (hdepth : inside + 1 ≤ depth) (h : ∀ inner, inside ≤ inner → Renders (m inner) x) :
    Renders (Run.nested depth m) x := by
  cases depth with
  | zero => exact absurd hdepth (Nat.not_succ_le_zero inside)
  | succ inner => exact h inner (Nat.le_of_succ_le_succ hdepth)

theorem ite {m n : Run Unit} {x y : Except RunError Rendering} (c : Prop) [Decidable c]
    (hm : Renders m x) (hn : Renders n y) :
    Renders (if c then m else n) (if c then x else y) := by
  split
  · exact hm
  · exact hn

end Renders

end Run

theorem ite_bind {m : Type → Type} [Monad m] {α β : Type} {c : Prop} [Decidable c]
    (x y : m α) (f : α → m β) :
    (if c then x else y) >>= f = if c then x >>= f else y >>= f := by
  split <;> rfl

/-- With as many levels as it is deep, a block makes the progress of its meaning. -/
theorem Block.run_renders {b : Block} {depth : Nat} (hdepth : b.nesting ≤ depth)
    (context : Context) :
    Run.Renders (b.run .unbounded depth context) (b.denote context) := by
  induction b generalizing depth context with
  | done => exact .empty
  | raw data next ih =>
      have hnext := ih hdepth context
      have hall := Run.Renders.step.append ((Run.Renders.write data).append hnext)
      simpa only [run, denote, bind_assoc, pure_bind] using hall
  | print e next ih =>
      have hnext := ih hdepth context
      have hall := Run.Renders.value e context
        (fun v => Run.Renders.given (x := v.output.mapError .ofOutputFault) Run.Renders.write) hnext
      simpa only [run, denote, bind_assoc, pure_bind] using hall
  | branch e yes next ihY ih =>
      have hyes : Run.Renders (Run.nested depth fun inner => yes.run .unbounded inner context)
          (yes.denote context) :=
        .nested (Nat.le_trans (Nat.le_max_left _ _) hdepth) fun _ h => ihY h context
      have hnext := ih (Nat.le_trans (Nat.le_max_right _ _) hdepth) context
      have hall := Run.Renders.value e context
        (fun v => Run.Renders.ite v.isTrue hyes .empty) hnext
      simpa only [run, denote, ite_bind, pure_bind] using hall
  | branchElse e yes no next ihY ihN ih =>
      have hblocks := Nat.le_trans (Nat.le_max_left _ _) hdepth
      have hyes : Run.Renders (Run.nested depth fun inner => yes.run .unbounded inner context)
          (yes.denote context) :=
        .nested (Nat.le_trans (Nat.le_max_left _ _) hblocks) fun _ h => ihY h context
      have hno : Run.Renders (Run.nested depth fun inner => no.run .unbounded inner context)
          (no.denote context) :=
        .nested (Nat.le_trans (Nat.le_max_right _ _) hblocks) fun _ h => ihN h context
      have hnext := ih (Nat.le_trans (Nat.le_max_right _ _) hdepth) context
      have hall := Run.Renders.value e context
        (fun v => Run.Renders.ite v.isTrue hyes hno) hnext
      simpa only [run, denote, ite_bind] using hall
  | loop name e body next ihB ih =>
      have hbody := fun x =>
        Run.Renders.nested (Nat.le_trans (Nat.le_max_left _ _) hdepth) fun _ h =>
          ihB h (context.overlay name x)
      have hnext := ih (Nat.le_trans (Nat.le_max_right _ _) hdepth) context
      have hall := Run.Renders.value e context
        (fun v => Run.Renders.forM hbody v.elements) hnext
      simpa only [run, denote, bind_assoc, pure_bind] using hall

/-! ## The machine -/

namespace Machine

/-- Wherever the bytes of a block stand, the machine appends its meaning and stops just
behind them, or fails as its meaning does. -/
theorem runBlock_denote {t : Block} (legible : t.Legible) (fits : t.LengthsFit) {depth : Nat}
    (deep : t.nesting ≤ depth) (before after : Bytes) (context : Context) (p : Progress) :
    match t.denote context with
    | .ok r => ∃ p',
        runBlock .unbounded depth context
            (Cursor.ofPosition (before ++ t.encode ++ after) before.length) p =
          .ok (Cursor.ofPosition (before ++ t.encode ++ after)
            (before.length + t.encode.length)) p' ∧
        p'.output = p.output ++ r.output ∧ p'.steps = p.steps + r.steps
    | .error e => ((∃ digits, e = .tooManyDigits digits) ∨
          ¬ context.Whole ∧ ∃ lone, e = .loneSurrogates lone) ∧ ∃ p',
        runBlock .unbounded depth context
            (Cursor.ofPosition (before ++ t.encode ++ after) before.length) p = .error e p' := by
  have hfaces : (Cursor.ofPosition (before ++ t.encode ++ after) before.length).Faces
      (t.encode ++ after) := by
    rw [List.append_assoc]
    exact Cursor.faces_ofPosition before (t.encode ++ after)
  have hrun := congrFun (blockFrom_eq_run legible fits .unbounded depth context hfaces) p
  have hmeans := Block.run_renders deep context p
  have hfails : Run.FailsOnlyBy (fun e => (∃ digits, e = .tooManyDigits digits) ∨
      ¬ context.Whole ∧ ∃ lone, e = .loneSurrogates lone) (t.run .unbounded depth context) :=
    Block.run_fails legible (fun _ h => nomatch h) (fun h => absurd deep (Nat.not_le_of_lt h))
      (fun digits => .inl ⟨digits, rfl⟩) fun hbroken lone => .inr ⟨hbroken, lone, rfl⟩
  rw [Run.bind_apply] at hrun
  cases hd : t.denote context with
  | ok r =>
      rw [hd] at hmeans
      refine ⟨p.extend r, ?_, p.output_extend r, p.steps_extend r⟩
      refine hrun.trans ?_
      rw [hmeans, Cursor.forward_ofPosition]
      rfl
  | error e =>
      rw [hd] at hmeans
      obtain ⟨p', he⟩ := hmeans
      exact ⟨hfails p e p' he, p', hrun.trans (by rw [he])⟩

/-- A loop and a branch between other bytes: the theorem at a concrete block. -/
theorem runBlock_denote_loop :
    let t := Block.loop "x" (.path ["items"]) (.print (.path ["x"]) .done)
      (.branch .always (.raw [33] .done) .done)
    let context := Context.ofTable [("items", .sequence [.text "a", .absent, .text "b"])]
    t.Legible ∧ t.LengthsFit ∧ t.nesting ≤ 1 ∧
      ∃ p', runBlock .unbounded 1 context (Cursor.ofPosition ([7] ++ t.encode ++ [9]) 1) .start =
          .ok (Cursor.ofPosition ([7] ++ t.encode ++ [9]) (1 + t.encode.length)) p' ∧
        p'.output = [97, 98, 33] ∧ p'.steps = 6 := by
  intro t context
  have legible : t.Legible := by decide +kernel
  have fits : t.LengthsFit := by decide +kernel
  have deep : t.nesting ≤ 1 := by decide
  have h := runBlock_denote legible fits deep [7] [9] context .start
  have hmeaning : t.denote context = .ok ⟨[97, 98, 33], 6⟩ := by rfl
  rw [hmeaning] at h
  exact ⟨legible, fits, deep, h⟩

end Machine

end Stencil
