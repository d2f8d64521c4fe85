/-
# `Stencil.Proofs.Levels` — runs that have fewer levels of nesting

The levels of nesting that the machine allows are shared by a block and all blocks within it.
A block that runs within another has fewer of them than it has alone.  As long as they last it
does the same; and when they do not, the run ends for want of them (`Run.Shallower`).  So what
is proved of nested blocks is compared with what the same blocks do alone.

    depth ≤ depth'   ⟹   b.run at depth is b.run at depth', unless it goes too deep
                                                                     (`Block.run_levels`)

What a run comes to is a rendering or an error (`Run.rendering`), and running the bytes of a
block comes to what running the block does (`Machine.rendering_encode`).
-/
import Stencil.Proofs.Concatenation

namespace Stencil

namespace Run

variable {α β : Type}

/-- The first run is the second, unless it goes too deep. -/
def Shallower (m n : Run α) : Prop :=
  ∀ p, m p = n p ∨ ∃ p', m p = .error .depthExceeded p'

namespace Shallower

variable {m n : Run α}

theorem refl (m : Run α) : Shallower m m := fun _ => .inl rfl

theorem trans {k : Run α} (hmn : Shallower m n) (hnk : Shallower n k) : Shallower m k := by
  intro p
  rcases hmn p with hsame | hdeep
  · rw [hsame]
    exact hnk p
  · exact .inr hdeep

theorem bind {f g : α → Run β} (hmn : Shallower m n) (hfg : ∀ a, Shallower (f a) (g a)) :
    Shallower (m >>= f) (n >>= g) := by
  intro p
  rw [bind_apply, bind_apply]
  rcases hmn p with hsame | ⟨p', hdeep⟩
  · rw [hsame]
    cases n p with
    | ok a p₁ => exact hfg a p₁
    | error e p₁ => exact .inl rfl
  · rw [hdeep]
    exact .inr ⟨p', rfl⟩

/-- What comes first is the same. -/
theorem after {f g : α → Run β} (hfg : ∀ a, Shallower (f a) (g a)) :
    Shallower (m >>= f) (m >>= g) :=
  bind (refl m) hfg

/-- One level deeper a run does as it does alone, if it does so with the levels left. -/
theorem of_nested {depth : Nat} {body : Nat → Run α}
    (h : ∀ inner, inner < depth → Shallower (body inner) n) :
    Shallower (nested depth body) n := by
  cases depth with
  | zero => exact fun p => .inr ⟨p, rfl⟩
  | succ inner => exact h inner (Nat.lt_succ_self inner)

theorem nested {depth depth' : Nat} (hle : depth ≤ depth') {body : Nat → Run α}
    (h : ∀ inner inner', inner ≤ inner' → Shallower (body inner) (body inner')) :
    Shallower (nested depth body) (nested depth' body) := by
  cases depth' with
  | zero =>
      obtain rfl := Nat.le_zero.1 hle
      exact refl _
  | succ inner' =>
      exact of_nested fun inner hlt => h inner inner' (by omega)

theorem forM {f g : Value → Run Unit} (h : ∀ x, Shallower (f x) (g x)) :
    ∀ elements : List Value, Shallower (elements.forM f) (elements.forM g)
  | [] => refl _
  | x :: xs => bind (h x) fun _ => forM h xs

end Shallower

end Run

namespace Block

open Run

/-- With fewer levels a block runs as it does with more, unless it goes too deep. -/
theorem run_levels (b : Block) (limits : Limits) {depth depth' : Nat} (hle : depth ≤ depth')
    (context : Context) :
    Shallower (b.run limits depth context) (b.run limits depth' context) := by
  induction b generalizing depth depth' context with
  | done => exact .refl _
  | raw data next ih => exact .after fun _ => .after fun _ => ih hle context
  | print e next ih =>
      exact .after fun _ => .after fun _ => .after fun _ => .after fun _ => ih hle context
  | branch e yes next ihY ih =>
      have hyes := Shallower.nested hle fun _ _ hinner => ihY hinner context
      refine .after fun _ => .after fun v => ?_
      split
      · exact .bind hyes fun _ => ih hle context
      · exact ih hle context
  | branchElse e yes no next ihY ihN ih =>
      have hyes := Shallower.nested hle fun _ _ hinner => ihY hinner context
      have hno := Shallower.nested hle fun _ _ hinner => ihN hinner context
      refine .after fun _ => .after fun v => ?_
      split
      · exact .bind hyes fun _ => ih hle context
      · exact .bind hno fun _ => ih hle context
  | loop name e body next ihB ih =>
      have hbody := fun x =>
        Shallower.nested hle fun _ _ hinner => ihB hinner (context.overlay name x)
      exact .after fun _ => .after fun v => .bind (.forM hbody v.elements) fun _ => ih hle context

/-- A block that is not nested too deep does not go too deep. -/
theorem run_ne_depthExceeded {b : Block} (hb : b.Legible) {depth : Nat} (hdepth : b.nesting ≤ depth)
    (limits : Limits) (context : Context) (p p' : Progress) :
    b.run limits depth context p ≠ .error .depthExceeded p' := by
  intro h
  have hfails : FailsOnlyBy (· ≠ .depthExceeded) (b.run limits depth context) :=
    run_fails hb (fun _ _ => nofun) (fun hlt => absurd hdepth (Nat.not_le_of_lt hlt))
      (fun _ => nofun) fun _ _ => nofun
  exact hfails p _ p' h rfl

end Block

/-! ## What a run comes to -/

namespace Run

/-- What a run comes to if it starts from nothing: the bytes written and the steps taken. -/
def rendering (m : Run Unit) : Except RunError Rendering :=
  match m .start with
  | .ok _ p => .ok ⟨p.output, p.steps⟩
  | .error e _ => .error e

theorem Renders.rendering_eq {m : Run Unit} {x : Except RunError Rendering} (h : Renders m x) :
    m.rendering = x := by
  have hstart := h .start
  unfold rendering
  cases x with
  | ok r =>
      rw [hstart]
      show Except.ok (Rendering.mk (Progress.start.extend r).output (0 + r.steps)) = .ok r
      rw [Progress.output_extend, Nat.zero_add]
      rfl
  | error e =>
      obtain ⟨p, he⟩ := hstart
      rw [he]

theorem Shallower.rendering_eq {m n : Run Unit} (h : Shallower m n) :
    m.rendering = n.rendering ∨ m.rendering = .error .depthExceeded := by
  unfold rendering
  rcases h .start with hsame | ⟨p, hdeep⟩
  · rw [hsame]
    exact .inl rfl
  · rw [hdeep]
    exact .inr rfl

end Run

/-- What is not nested too deep does not come to that error. -/
theorem Block.rendering_ne_depthExceeded {b : Block} (hb : b.Legible) {depth : Nat}
    (hdepth : b.nesting ≤ depth) {limits : Limits} {context : Context} :
    (b.run limits depth context).rendering ≠ .error .depthExceeded := by
  intro h
  unfold Run.rendering at h
  split at h
  · cases h
  next herror =>
    cases h
    exact run_ne_depthExceeded hb hdepth limits context _ _ herror

namespace Machine

/-- What running code from nothing comes to. -/
def rendering (limits : Limits) (code : Bytes) (context : Context) : Except RunError Rendering :=
  match start limits code context with
  | .ok _ p => .ok ⟨p.output, p.steps⟩
  | .error e _ => .error e

theorem run_eq_rendering (limits : Limits) (code : Bytes) (context : Context) :
    run limits code context = (rendering limits code context).map Rendering.output := by
  unfold run rendering
  cases start limits code context <;> rfl

/-- Running the bytes of a block comes to what running the block does. -/
theorem rendering_encode {limits : Limits} {b : Block} (hb : b.Legible) (hl : b.LengthsFit)
    (context : Context) :
    rendering limits b.encode context = (b.run limits maxDepth context).rendering := by
  rw [rendering, Run.rendering, start_encode hb hl]
  cases b.run limits maxDepth context .start <;> rfl

end Machine

end Stencil
