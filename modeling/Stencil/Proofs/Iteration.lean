/-
# `Stencil.Proofs.Iteration` — a loop runs its body once for each element

The machine runs the body of a loop at one place of the code, and goes back there for every
element.  What it comes to is what the body comes to by itself, in a context with the element
laid over it under the name of the loop, for each element in order and up to the first error
(`Machine.iterations`).  An element that is absent is laid over as well, so that the name has
no value then, whatever it was bound to before.

A body runs one level deeper than its loop:

    the code of a loop, with levels + 1   =   a step, and its iterations, with levels each

So a body that alone uses up the levels of the machine is too deep for a loop.

What stands behind the loop is run in the context of the loop, so that it sees the name as it
was before; and it may be any bytes, as the machine comes to it all the same.

**Proved here**, for every loop that a compiler resolves:

    its code comes to its iterations, of the body that is compiled for it,
      wherever it stands, as long as the levels last (`Compiler.resolve_loop_iterates`)
    for some body the levels do not last               (`Compiler.resolve_loop_too_deep`)
-/
import Stencil.Proofs.Concatenation
import Stencil.Proofs.Selection

namespace Stencil

open EStateM (Result)

/-- What a loop over a value runs through, in order: the elements of a sequence, absent ones too;
the values of an object as they stand in it; a scalar once; and nothing where there is no value. -/
inductive Value.RunsThrough : Value → List Value → Prop where
  | absent : RunsThrough .absent []
  | sequence (items : List Value) : RunsThrough (.sequence items) items
  | object (entries : List (Text × Value)) : RunsThrough (.object entries) (entries.map Prod.snd)
  | scalar {v : Value} (present : v ≠ .absent) (whole : v.size? = none) : RunsThrough v [v]

theorem Value.runsThrough_elements (v : Value) : v.RunsThrough v.elements := by
  cases v with
  | absent => exact .absent
  | sequence items => exact .sequence items
  | object entries => exact .object entries
  | bool | int | float | text | bytes => exact .scalar nofun rfl

theorem Value.RunsThrough.elements_eq {v : Value} {elements : List Value}
    (h : v.RunsThrough elements) : v.elements = elements := by
  cases h with
  | absent | sequence | object => rfl
  | scalar present whole =>
      cases v with
      | absent => exact absurd rfl present
      | sequence | object => cases whole
      | bool | int | float | text | bytes => rfl

namespace Machine

/-- What has been written and how many steps have been taken where a run ends, or its error. -/
def outcome : Result RunError Progress Cursor → Except RunError Rendering
  | .ok _ p => .ok ⟨p.output, p.steps⟩
  | .error e _ => .error e

/-- What running code from nothing comes to, without a limit on the steps, and with so many
levels of nesting. -/
def comesTo (levels : Nat) (code : Bytes) (context : Context) : Except RunError Rendering :=
  outcome (runBlock .unbounded levels context (Cursor.ofBytes code) .start)

/-- What running code for each of the values comes to, with the value laid over the context under
a name: one rendering after the other, or the first error. -/
def iterations (levels : Nat) (code : Bytes) (name : String) (elements : List Value)
    (context : Context) : Except RunError Rendering := do
  let renderings ← elements.mapM fun x => comesTo levels code (context.overlay name x)
  return .concat renderings

/-- With any number of levels, running the bytes of a block comes to what running the block
does. -/
theorem comesTo_encode {b : Block} (hb : b.Legible) (hl : b.LengthsFit) (levels : Nat)
    (context : Context) :
    comesTo levels b.encode context = (b.run .unbounded levels context).rendering := by
  have hrun := runBlock_encode_append hb hl .unbounded levels context [] .start
  rw [List.append_nil] at hrun
  rw [comesTo, Run.rendering, hrun]
  cases b.run .unbounded levels context .start <;> rfl

end Machine

/-! ## Running a loop -/

namespace Block

open Run

/-- Wherever it starts, a block makes the progress that it makes from nothing. -/
theorem renders_rendering (b : Block) (levels : Nat) (context : Context) :
    Renders (b.run .unbounded levels context) (b.run .unbounded levels context).rendering := by
  obtain ⟨x, hx⟩ := b.exists_renders levels context
  rwa [hx.rendering_eq]

section

variable {name : String} {iterable : List String} {body : Block} {context : Context} {v : Value}

/-- A loop over a value takes a step, and then runs its body for each of the elements. -/
theorem run_loop (h : context.resolve iterable = .ok v) (depth : Nat) :
    (loop name (.path iterable) body .done).run .unbounded depth context = (do
      step .unbounded
      v.elements.forM fun x =>
        nested depth fun inner => body.run .unbounded inner (context.overlay name x)) := by
  rw [run, Expr.value_of_resolve h, given_ok, pure_bind]
  exact congrArg (step .unbounded >>= ·) (funext fun _ => bind_pure_unit)

/-- A step, and then the runs of a block for each of the values, come to iterations. -/
theorem renders_iterations (hbody : body.Legible) (fits : body.LengthsFit) (context : Context)
    (name : String) (elements : List Value) (levels : Nat) :
    Renders (do
      step .unbounded
      elements.forM fun x => body.run .unbounded levels (context.overlay name x))
      ((Machine.iterations levels body.encode name elements context).map (.step ++ ·)) := by
  have hiterations := Renders.forM
    (fun x => body.renders_rendering levels (context.overlay name x)) elements
  simp only [← Machine.comesTo_encode hbody fits] at hiterations
  exact Renders.step.append hiterations

variable (name) in
/-- With one level for itself, a loop comes to the iterations of its body. -/
theorem renders_loop (hbody : body.Legible) (fits : body.LengthsFit)
    (h : context.resolve iterable = .ok v) (levels : Nat) :
    Renders ((loop name (.path iterable) body .done).run .unbounded (levels + 1) context)
      ((Machine.iterations levels body.encode name v.elements context).map (.step ++ ·)) := by
  rw [run_loop h]
  exact renders_iterations hbody fits context name v.elements levels

/-- With as many levels as its body has alone, a loop comes to the same, unless it is nested too
deep and fails for that. -/
theorem rendering_loop (hloop : (loop name (.path iterable) body .done).Legible)
    (fits : body.LengthsFit) (h : context.resolve iterable = .ok v) (depth : Nat) :
    ((loop name (.path iterable) body .done).run .unbounded depth context).rendering =
        (Machine.iterations depth body.encode name v.elements context).map (.step ++ ·) ∨
      depth ≤ body.nesting ∧
        ((loop name (.path iterable) body .done).run .unbounded depth context).rendering =
          .error .depthExceeded := by
  have hshallower : Shallower ((loop name (.path iterable) body .done).run .unbounded depth context)
      (do
        step .unbounded
        v.elements.forM fun x => body.run .unbounded depth (context.overlay name x)) := by
    rw [run_loop h]
    refine .after fun _ => .forM (fun x => .of_nested fun inner hinner => ?_) v.elements
    exact body.run_levels .unbounded (Nat.le_of_lt hinner) (context.overlay name x)
  have hiterations :=
    (renders_iterations hloop.2.2.1 fits context name v.elements depth).rendering_eq
  rcases hshallower.rendering_eq with hsame | hdeep
  · exact .inl (hsame.trans hiterations)
  · refine .inr ⟨Nat.le_of_not_lt fun hdepth => ?_, hdeep⟩
    exact rendering_ne_depthExceeded hloop (Nat.max_le.2 ⟨hdepth, Nat.zero_le _⟩) hdeep

end

end Block

/-! ## Compiling it -/

namespace CompileM

/-- What is compiled under a scope is compiled from some state. -/
theorem exists_of_underScope {α : Type} {scope : Option Bytes} {m : CompileM α}
    {s s' : CompileState} {a : α} (h : underScope scope m s = .ok a s') :
    ∃ s₁ s₂, m s₁ = .ok a s₂ := by
  simp only [underScope, within] at h
  split at h <;> cases h
  exact ⟨_, _, by assumption⟩

/-- What leaves the state as it is under a scope does so in the state around it. -/
theorem underScope_of_ok {α : Type} {scope : Option Bytes} {m : CompileM α} {s : CompileState}
    {a : α} (h : m { s with scope := scope } = .ok a { s with scope := scope }) :
    underScope scope m s = .ok a s := by
  simp only [underScope, within, h]

end CompileM

namespace Compiler

/-- A loop is resolved to a loop over the block that is compiled for its body. -/
theorem resolve_loop_eq_ok {nested : Nested} {path name : String} {scope : Option Bytes}
    {iterable : List String} {source : Bytes} {s s' : CompileState} {code : Block} :
    Action.resolve nested (.defer path scope (.loop name iterable source)) s = .ok code s' ↔
      ∃ body, CompileM.underScope scope (nested.block source path) s = .ok body s' ∧
        code = .loop name (.path iterable) body .done := by
  simp only [Action.resolve, Action.resolveDeferral, Bind.bind, EStateM.bind]
  cases CompileM.underScope scope (nested.block source path) s with
  | ok body s₁ =>
      constructor
      · rintro ⟨⟩
        exact ⟨body, rfl, rfl⟩
      · rintro ⟨_, ⟨⟩, rfl⟩
        rfl
  | error e s₁ =>
      constructor
      · rintro ⟨⟩
      · rintro ⟨_, ⟨⟩, -⟩

/-- A loop that resolves, to code whose lengths have fields, runs the block that is compiled for
its body once for each element of its value, in order, and fails with the first error.  With
one level more for the loop than for its body this is so whatever the number of levels; with
the same number it is so as long as the levels last.  What stands behind the loop, be it any
bytes, is run in the context of the loop. -/
theorem resolve_loop_iterates {compiler : Compiler} {path name : String} {scope : Option Bytes}
    {iterable : List String} {source : Bytes} {s s' : CompileState} {code : Block}
    (hname : IsName name) (hiterable : IsPath iterable)
    (hresolve : Action.resolve (compiler.nestedWith compiler.blockOf)
      (.defer path scope (.loop name iterable source)) s = .ok code s')
    (fits : code.LengthsFit) :
    ∃ body, CompileM.underScope scope (compiler.blockOf source path) s = .ok body s' ∧
      ∀ context v, context.resolve iterable = .ok v → ∃ elements, v.RunsThrough elements ∧
        (∀ x ∈ elements, (context.overlay name x).resolve [name] = .ok x) ∧
        (∀ levels, Machine.comesTo (levels + 1) code.encode context =
          (Machine.iterations levels body.encode name elements context).map (.step ++ ·)) ∧
        (Machine.comesTo Machine.maxDepth code.encode context =
            (Machine.iterations Machine.maxDepth body.encode name elements context).map
              (.step ++ ·) ∨
          Machine.maxDepth ≤ body.nesting ∧
            Machine.comesTo Machine.maxDepth code.encode context = .error .depthExceeded) ∧
        ∀ levels before after p,
          match Machine.iterations levels body.encode name elements context with
          | .ok r =>
              Machine.runBlock .unbounded (levels + 1) context
                  (Cursor.ofPosition (before ++ code.elementBytes ++ after) before.length) p =
                Machine.runBlock .unbounded (levels + 1) context
                  (Cursor.ofPosition (before ++ code.elementBytes ++ after)
                    (before.length + code.elementBytes.length)) (p.extend (.step ++ r))
          | .error e => ∃ p',
              Machine.runBlock .unbounded (levels + 1) context
                  (Cursor.ofPosition (before ++ code.elementBytes ++ after) before.length) p =
                .error e p' := by
  obtain ⟨body, hbody, rfl⟩ := resolve_loop_eq_ok.1 hresolve
  obtain ⟨_, _, hblock⟩ := CompileM.exists_of_underScope hbody
  have hlegible : body.Legible := (compiler.compileBlock_ensures _ _ _ _ _ _ hblock).legible
  have hloop : (Block.loop name (.path iterable) body .done).Legible :=
    ⟨hname.2, hiterable, hlegible, trivial⟩
  refine ⟨body, hbody, fun context v hv => ⟨v.elements, v.runsThrough_elements, ?_⟩⟩
  refine ⟨fun x _ => ?_, fun levels => ?_, ?_, ?_⟩
  · rw [Context.resolve, Context.lookup_overlay_self]
    rfl
  · rw [Machine.comesTo_encode hloop fits]
    exact (Block.renders_loop name hlegible fits.2.1 hv levels).rendering_eq
  · rw [Machine.comesTo_encode hloop fits]
    exact Block.rendering_loop hloop fits.2.1 hv Machine.maxDepth
  · intro levels before after p
    have hrenders := Block.renders_loop name hlegible fits.2.1 hv levels p
    have hfaces := Cursor.faces_ofPosition before
      ((Block.loop name (.path iterable) body .done).elementBytes ++ after)
    rw [← List.append_assoc] at hfaces
    have hruns := congrFun (Machine.blockFrom_elements hloop fits .unbounded (levels + 1) context
      hfaces) p
    rw [Run.bind_apply, Cursor.forward_ofPosition] at hruns
    cases hiterations : Machine.iterations levels body.encode name v.elements context with
    | ok r =>
        rw [hiterations] at hrenders
        refine hruns.trans ?_
        rw [hrenders]
        rfl
    | error e =>
        rw [hiterations] at hrenders
        obtain ⟨p', he⟩ := hrenders
        exact ⟨p', hruns.trans (by rw [he])⟩

/-- A body that shows its scope and the name of the loop. -/
def listedSource : Bytes := Utf8.encode "#(self)#(x);"

/-- What it is compiled to, under a scope `u`. -/
def listedBody : Block :=
  .print (.path ["u"]) (.print (.path ["x"]) (.raw (Utf8.encode ";") .done))

/-- A loop over it. -/
def listedBlock : Block := .loop "x" (.path ["xs"]) listedBody .done

/-- The name of the loop is bound, and so is what the loop runs through. -/
def listedContext (xs : Value) : Context :=
  .ofTable [("u", .int 7), ("x", .text "o"), ("xs", xs)]

/-- A sequence whose second element is absent, an object, a scalar, and no value. -/
theorem resolve_loop_iterates_listed :
    IsName "x" ∧ IsPath ["xs"] ∧
      Action.resolve (plain.nestedWith plain.blockOf)
        (.defer "" (some (Utf8.encode "u")) (.loop "x" ["xs"] listedSource)) .fresh =
          .ok listedBlock .fresh ∧
      listedBlock.LengthsFit ∧
      Machine.comesTo 1 listedBlock.encode
        (listedContext (.sequence [.text "a", .absent, .text "b"])) =
          .ok ⟨Utf8.encode "7a;7;7b;", 10⟩ ∧
      Machine.comesTo Machine.maxDepth listedBlock.encode
        (listedContext (.sequence [.text "a", .absent, .text "b"])) =
          .ok ⟨Utf8.encode "7a;7;7b;", 10⟩ ∧
      Machine.comesTo Machine.maxDepth
        (listedBlock.elementBytes ++ (Block.print (.path ["x"]) .done).encode)
        (listedContext (.sequence [.text "a", .absent, .text "b"])) =
          .ok ⟨Utf8.encode "7a;7;7b;o", 11⟩ ∧
      Machine.comesTo 1 listedBlock.encode
        (listedContext (.object [("l", .text "c"), ("k", .text "d")])) =
          .ok ⟨Utf8.encode "7c;7d;", 7⟩ ∧
      Machine.comesTo 1 listedBlock.encode (listedContext (.text "ab")) =
        .ok ⟨Utf8.encode "7ab;", 4⟩ ∧
      Machine.comesTo 1 listedBlock.encode (listedContext .absent) = .ok ⟨[], 1⟩ := by
  have hname : IsName "x" := by decide +kernel
  have hiterable : IsPath ["xs"] := by decide +kernel
  have hresolve : Action.resolve (plain.nestedWith plain.blockOf)
      (.defer "" (some (Utf8.encode "u")) (.loop "x" ["xs"] listedSource)) .fresh =
        .ok listedBlock .fresh := by
    decide +kernel
  have hbody : CompileM.underScope (some (Utf8.encode "u")) (plain.blockOf listedSource "") .fresh =
      .ok listedBody .fresh := by
    decide +kernel
  have fits : listedBlock.LengthsFit := by decide +kernel
  have hiterations : ∀ levels, levels = 0 ∨ levels = 319 ∨ levels = 320 →
      Machine.iterations levels listedBody.encode "x" [.text "a", .absent, .text "b"]
        (listedContext (.sequence [.text "a", .absent, .text "b"])) =
          .ok ⟨Utf8.encode "7a;7;7b;", 9⟩ := by
    rintro _ (rfl | rfl | rfl) <;> decide +kernel
  obtain ⟨body, hcompiled, hloop⟩ := resolve_loop_iterates hname hiterable hresolve fits
  cases hcompiled.symm.trans hbody
  obtain ⟨_, hthrough, -, hcomes, hmost, hruns⟩ :=
    hloop (listedContext (.sequence [.text "a", .absent, .text "b"]))
      (.sequence [.text "a", .absent, .text "b"]) rfl
  cases hthrough.elements_eq
  obtain ⟨_, hobject, -, hvalues, -⟩ :=
    hloop (listedContext (.object [("l", .text "c"), ("k", .text "d")])) _ rfl
  cases hobject.elements_eq
  obtain ⟨_, hscalar, -, honce, -⟩ := hloop (listedContext (.text "ab")) _ rfl
  cases hscalar.elements_eq
  obtain ⟨_, habsent, -, hnone, -⟩ := hloop (listedContext .absent) _ rfl
  cases habsent.elements_eq
  refine ⟨hname, hiterable, hresolve, fits, ?_, ?_, ?_, ?_, ?_, ?_⟩
  · exact (hcomes 0).trans (congrArg _ (hiterations 0 (.inl rfl)))
  · rcases hmost with hmost | ⟨hdeep, -⟩
    · exact hmost.trans (congrArg _ (hiterations 320 (.inr (.inr rfl))))
    · exact absurd hdeep (by decide)
  · have hbehind := hruns 319 [] (Block.print (.path ["x"]) .done).encode .start
    have hlevel := hiterations 319 (.inr (.inl rfl))
    simp only [Value.elements, hlevel] at hbehind
    refine (congrArg Machine.outcome hbehind).trans ?_
    decide +kernel
  · exact (hvalues 0).trans (by decide +kernel)
  · exact (honce 0).trans (by decide +kernel)
  · exact (hnone 0).trans (by decide +kernel)

/-! ### A body that is too deep for a loop -/

/-- A source that is a chain of conditions becomes the chain of its blocks. -/
theorem blockOf_chain {compiler : Compiler} {path : String} {s s' : CompileState}
    (htag : compiler.tags.find? (Utf8.encode "if") = some .branch) (scope : Option Scope)
    (hscope : s.scope = scope.map Scope.path) (chain : Chain)
    {branches : List (List String × Block)} {no : Option Block}
    (h : chain.blocks (compiler.nestedWith compiler.blockOf) path scope s =
      .ok (branches, no) s') :
    compiler.blockOf chain.text path s = .ok (Block.chain branches no) s' := by
  have hthrough : Reading.Through compiler.tags (scope.map Scope.path) chain.text []
      [chain.piece scope] :=
    .tag (Chain.gives_readTag_text (by decide) htag scope chain)
  have hreading := hthrough.ofBytes_eq
  rw [← hscope] at hreading
  have hfirst : compiler.firstPass path [chain.piece scope] s = .ok [chain.action path scope] s :=
    mapM_cons_of_ok (Chain.ofPiece_piece _ path scope chain compiler.extension hscope) rfl
  have hsecond : compiler.secondPass [chain.action path scope] s =
      .ok [Block.chain branches no] s' :=
    mapM_cons_of_ok (Chain.resolve_eq_ok.2 ⟨branches, no, h, rfl⟩) rfl
  exact (blockOf_eq_ok hreading).2 ⟨_, s, _, hfirst, hsecond, (Block.append_done _).symm⟩

/-- A chain of as many clauses as the machine has levels. -/
def deepChain : Chain := Chain.longChain (Machine.maxDepth - 1)

/-- What it is compiled to. -/
def deepBody : Block :=
  Block.chain (Chain.longBranches (Machine.maxDepth - 1)) (some Chain.lastBlock)

/-- A loop over it. -/
def deepLoop : Block := .loop "y" (.path ["xs"]) deepBody .done

/-- One element, and no value for the conditions. -/
def deepContext : Context := .ofTable [("xs", .sequence [.text "a"])]

theorem blockOf_deepChain : CompileM.underScope none (plain.blockOf deepChain.text "") .fresh =
    .ok deepBody .fresh :=
  CompileM.underScope_of_ok (blockOf_chain (by decide +kernel) none rfl deepChain
    (Chain.blocks_longChain (Machine.maxDepth - 1)))

theorem legible_deepBody : deepBody.Legible := Chain.legible_longChain _

theorem lengthsFit_deepLoop : deepLoop.LengthsFit := by
  refine ⟨?_, Chain.lengthsFit_longChain _ (by decide), trivial⟩
  rw [deepBody, Chain.length_encode_longChain]
  decide

section DeepBody

variable {context : Context}

/-- As long as nothing is around it, there is a level for each clause. -/
theorem comesTo_deepBody (hx : context.resolve ["x"] = .ok .absent) :
    Machine.comesTo Machine.maxDepth deepBody.encode context = .ok ⟨Utf8.encode "E", 321⟩ := by
  have hlegible := legible_deepBody
  have hfits : deepBody.LengthsFit := lengthsFit_deepLoop.2.1
  have hne : Chain.longBranches (Machine.maxDepth - 1) ≠ [] := List.cons_ne_nil _ _
  have hvalues : ∀ branch ∈ Chain.longBranches (Machine.maxDepth - 1),
      ∃ v, context.resolve branch.1 = .ok v := by
    intro branch hbranch
    obtain ⟨v, hv, -⟩ := Chain.fails_longBranches hx hbranch
    exact ⟨v, hv⟩
  have hlast : Machine.rendering .unbounded Chain.lastBlock.encode context =
      .ok ⟨Utf8.encode "E", 1⟩ := by
    have hlegible : Chain.lastBlock.Legible := by decide +kernel
    have fits : Chain.lastBlock.LengthsFit := by decide +kernel
    rw [Machine.rendering_encode hlegible fits]
    rfl
  rw [Machine.comesTo_encode hlegible hfits, ← Machine.rendering_encode hlegible hfits]
  rcases Block.rendering_chain hne hlegible hfits hvalues with hselected | ⟨hnested, -⟩
  · rw [deepBody, hselected, Chain.selected_longBranches hx, Chain.tested_longBranches hx, hlast]
    rfl
  · rw [Chain.nesting_longChain] at hnested
    exact absurd hnested (by decide)

/-- Within a loop one level less is left. -/
theorem run_deepLoop (hx : (context.overlay "y" (.text "a")).resolve ["x"] = .ok .absent)
    (hxs : context.resolve ["xs"] = .ok (.sequence [.text "a"])) : ∃ p,
      deepLoop.run .unbounded Machine.maxDepth context .start = .error .depthExceeded p := by
  obtain ⟨p, hexhausted⟩ :=
    Chain.exhausted_longChain hx (Nat.le_refl (Machine.maxDepth - 1)) Progress.start.tick
  refine ⟨p, ?_⟩
  rw [deepLoop, Block.run_loop hxs, Run.step_bind_of_none rfl]
  show (deepBody.run .unbounded (Machine.maxDepth - 1) _ >>= _) Progress.start.tick = _
  rw [Run.bind_apply, deepBody, hexhausted]

end DeepBody

/-- The body runs for the one element, and a loop over this element has not the levels to run
it. -/
theorem resolve_loop_too_deep :
    Action.resolve (plain.nestedWith plain.blockOf)
        (.defer "" none (.loop "y" ["xs"] deepChain.text)) .fresh = .ok deepLoop .fresh ∧
      CompileM.underScope none (plain.blockOf deepChain.text "") .fresh = .ok deepBody .fresh ∧
      deepLoop.LengthsFit ∧
      deepContext.resolve ["xs"] = .ok (.sequence [.text "a"]) ∧
      Machine.comesTo Machine.maxDepth deepBody.encode (deepContext.overlay "y" (.text "a")) =
        .ok ⟨Utf8.encode "E", 321⟩ ∧
      Machine.comesTo Machine.maxDepth deepLoop.encode deepContext = .error .depthExceeded := by
  have hlegible : deepLoop.Legible :=
    ⟨by decide +kernel, by decide +kernel, legible_deepBody, trivial⟩
  have hdeep : Machine.comesTo Machine.maxDepth deepLoop.encode deepContext =
      .error .depthExceeded := by
    obtain ⟨p, hrun⟩ := @run_deepLoop deepContext rfl rfl
    rw [Machine.comesTo_encode hlegible lengthsFit_deepLoop, Run.rendering, hrun]
  exact ⟨resolve_loop_eq_ok.2 ⟨deepBody, blockOf_deepChain, rfl⟩, blockOf_deepChain,
    lengthsFit_deepLoop, rfl, comesTo_deepBody rfl, hdeep⟩

end Compiler

end Stencil
