/-
# `Stencil.Proofs.Selection` — the block of a chain that runs

A chain of conditions is compiled to one element.  Each further clause stands in the second
block of the clause before, and the `else` in the second block of the last.  So the lengths in
an element depend on all clauses behind it, and the machine goes one level deeper for each
condition that does not hold.

What it comes to is simple.  If every condition has a value, the machine runs the block of the
first one whose value is `true`, else that of the `else`, else none (`Block.selected`).  One
step is taken for each condition that is looked at (`Block.tested`), and no more are taken but
those of that block: no other block runs.

    the chain  =  its tested conditions, and then the selected block,
                    unless it goes too deep                               (`Block.run_chain`)

The exception is real.  The levels of nesting are shared by the chain and its blocks, and a
chain of many clauses uses them up (`Block.run_chain_exhausted`).
-/
import Stencil.Proofs.Chain
import Stencil.Proofs.Levels

namespace Stencil

open EStateM (Result)
open SourceReader (clauseSign readTag)
open Compiler (plain)

/-- The condition has a value in the context, and it is `true`. -/
def Context.holds (context : Context) (condition : List String) : Bool :=
  match context.resolve condition with
  | .ok v => v.isTrue
  | .error _ => false

section Resolves

variable {context : Context} {condition : List String} {v : Value}

theorem Context.holds_of_resolve (h : context.resolve condition = .ok v) :
    context.holds condition = v.isTrue := by
  rw [holds, h]

end Resolves

namespace Run

/-- So many steps, without a limit. -/
def steps (count : Nat) : Run Unit := modify fun p => { p with steps := p.steps + count }

theorem step_unbounded : step .unbounded = steps 1 := rfl

theorem steps_succ (count : Nat) : steps (count + 1) = (do steps 1; steps count) := by
  funext p
  show Result.ok () (Progress.mk (p.steps + (count + 1)) p.written) =
    Result.ok () (Progress.mk (p.steps + 1 + count) p.written)
  rw [Nat.add_assoc, Nat.add_comm 1 count]

theorem renders_steps (count : Nat) : Renders (steps count) (.ok ⟨[], count⟩) := fun _ => rfl

end Run

namespace Block

open Run

/-! ## What is selected -/

section Selected

variable (holds : List String → Bool)

/-- The block of the first condition that holds, else the last one, else none. -/
def selected (branches : List (List String × Block)) (otherwise : Option Block) : Block :=
  (((branches.find? fun branch => holds branch.1).map Prod.snd).or otherwise).getD .done

/-- How many conditions are looked at: those up to the first that holds. -/
def tested (branches : List (List String × Block)) : Nat :=
  min ((branches.findIdx fun branch => holds branch.1) + 1) branches.length

variable {holds} {branch : List String × Block} (rest : List (List String × Block))
  (otherwise : Option Block)

theorem selected_of_holds (h : holds branch.1 = true) :
    selected holds (branch :: rest) otherwise = branch.2 := by
  simp [selected, h]

theorem selected_of_fails (h : holds branch.1 = false) :
    selected holds (branch :: rest) otherwise = selected holds rest otherwise := by
  simp [selected, h]

theorem tested_of_holds (h : holds branch.1 = true) : tested holds (branch :: rest) = 1 := by
  simp [tested, List.findIdx_cons, h]

theorem tested_of_fails (h : holds branch.1 = false) :
    tested holds (branch :: rest) = tested holds rest + 1 := by
  simp only [tested, List.findIdx_cons, h, cond_false, List.length_cons]
  omega

/-- What holds of a chain, and of each block in what it holds of, holds of the block that is
selected. -/
theorem of_chain {P : Block → Prop} (hdone : P .done)
    (hbranch : ∀ e yes, P (.branch e yes .done) → P yes)
    (hbranchElse : ∀ e yes no, P (.branchElse e yes no .done) → P yes ∧ P no) :
    ∀ {branches : List (List String × Block)} {otherwise : Option Block}, branches ≠ [] →
      P (chain branches otherwise) → P (selected holds branches otherwise)
  | [clause], none, _, h => by
      cases hholds : holds clause.1 with
      | true => exact selected_of_holds [] none hholds ▸ hbranch _ _ h
      | false => exact selected_of_fails [] none hholds ▸ hdone
  | [clause], some no, _, h => by
      cases hholds : holds clause.1 with
      | true => exact selected_of_holds [] (some no) hholds ▸ (hbranchElse _ _ _ h).1
      | false => exact selected_of_fails [] (some no) hholds ▸ (hbranchElse _ _ _ h).2
  | clause :: second :: rest, otherwise, _, h => by
      obtain ⟨hyes, hno⟩ := hbranchElse _ _ _ h
      cases hholds : holds clause.1 with
      | true => exact selected_of_holds _ otherwise hholds ▸ hyes
      | false =>
          rw [selected_of_fails _ otherwise hholds]
          exact of_chain hdone hbranch hbranchElse (List.cons_ne_nil _ _) hno

end Selected

/-! ## Running a chain -/

section RunChain

variable {depth : Nat} {context : Context} {condition : List String} {v : Value}

/-- A condition that has a value, and one block for either case. -/
theorem run_branchElse (h : context.resolve condition = .ok v) (yes no : Block) :
    (branchElse (.path condition) yes no .done).run .unbounded depth context = (do
      steps 1
      nested depth fun inner =>
        (if context.holds condition then yes else no).run .unbounded inner context) := by
  rw [run, Expr.value_of_resolve h, Context.holds_of_resolve h, step_unbounded, given_ok, pure_bind]
  cases v.isTrue <;> exact congrArg (steps 1 >>= ·) (funext fun _ => bind_pure_unit)

/-- Where there is no second block, nothing is run in its place. -/
theorem run_branch (h : context.resolve condition = .ok v) (yes : Block) :
    (branch (.path condition) yes .done).run .unbounded depth context = (do
      steps 1
      if context.holds condition then
        nested depth fun inner => yes.run .unbounded inner context) := by
  rw [run, Expr.value_of_resolve h, Context.holds_of_resolve h, step_unbounded, given_ok, pure_bind]
  cases v.isTrue with
  | true => exact congrArg (steps 1 >>= ·) (funext fun _ => bind_pure_unit)
  | false => rfl

/-- If every condition has a value, a chain runs the block that is selected, after one step
for each condition that is looked at, unless it goes too deep. -/
theorem run_chain : ∀ {branches : List (List String × Block)} {otherwise : Option Block}
    {depth : Nat}, branches ≠ [] →
      (∀ branch ∈ branches, ∃ v, context.resolve branch.1 = .ok v) →
        Shallower ((chain branches otherwise).run .unbounded depth context) (do
          steps (tested context.holds branches)
          (selected context.holds branches otherwise).run .unbounded depth context)
  | [(condition, yes)], none, depth, _, hvalues => by
      obtain ⟨v, hv⟩ := hvalues _ List.mem_cons_self
      rw [chain, run_branch hv]
      cases hholds : context.holds condition with
      | true =>
          rw [tested_of_holds [] hholds, selected_of_holds [] none hholds]
          refine .after fun _ => .of_nested fun inner hinner => ?_
          exact yes.run_levels .unbounded (Nat.le_of_lt hinner) context
      | false =>
          rw [tested_of_fails [] hholds, selected_of_fails [] none hholds]
          exact .refl _
  | [(condition, yes)], some no, depth, _, hvalues => by
      obtain ⟨v, hv⟩ := hvalues _ List.mem_cons_self
      rw [chain, run_branchElse hv]
      have hsteps : tested context.holds [(condition, yes)] = 1 := by simp [tested]
      have hblock : selected context.holds [(condition, yes)] (some no) =
          if context.holds condition then yes else no := by
        cases hholds : context.holds condition with
        | true => exact selected_of_holds [] (some no) hholds
        | false => exact selected_of_fails [] (some no) hholds
      rw [hsteps, hblock]
      refine .after fun _ => .of_nested fun inner hinner => ?_
      exact run_levels _ .unbounded (Nat.le_of_lt hinner) context
  | (condition, yes) :: second :: rest, otherwise, depth, _, hvalues => by
      obtain ⟨v, hv⟩ := hvalues _ List.mem_cons_self
      show Shallower ((branchElse (.path condition) yes (chain (second :: rest) otherwise)
        .done).run .unbounded depth context) _
      rw [run_branchElse hv]
      cases hholds : context.holds condition with
      | true =>
          rw [tested_of_holds _ hholds, selected_of_holds _ otherwise hholds]
          refine .after fun _ => .of_nested fun inner hinner => ?_
          exact yes.run_levels .unbounded (Nat.le_of_lt hinner) context
      | false =>
          have hrest : ∀ branch ∈ second :: rest, ∃ v, context.resolve branch.1 = .ok v :=
            fun branch hbranch => hvalues branch (List.mem_cons_of_mem _ hbranch)
          rw [tested_of_fails _ hholds, selected_of_fails _ otherwise hholds,
            steps_succ (tested _ _), bind_assoc]
          refine .after fun _ => .of_nested fun inner hinner => ?_
          -- The rest is run one level deeper, and the selected block deeper still.
          refine (run_chain (List.cons_ne_nil _ _) hrest).trans (.after fun _ => ?_)
          exact run_levels _ .unbounded (Nat.le_of_lt hinner) context

/-- If none of its conditions holds, a chain with an `else` goes as many levels deeper as it
has conditions. -/
theorem run_chain_exhausted {no : Block} : ∀ {branches : List (List String × Block)} {depth : Nat},
    (∀ branch ∈ branches, ∃ v, context.resolve branch.1 = .ok v ∧ v.isTrue = false) →
      depth < branches.length → ∀ p, ∃ p',
        (chain branches (some no)).run .unbounded depth context p = .error .depthExceeded p'
  | [(condition, yes)], depth, hvalues, hdepth, p => by
      obtain ⟨v, hv, -⟩ := hvalues _ List.mem_cons_self
      obtain rfl : depth = 0 := Nat.lt_one_iff.1 hdepth
      rw [chain, run_branchElse hv]
      exact ⟨_, rfl⟩
  | (condition, yes) :: second :: rest, depth, hvalues, hdepth, p => by
      obtain ⟨v, hv, hfalse⟩ := hvalues _ List.mem_cons_self
      have hholds : context.holds condition = false :=
        (Context.holds_of_resolve hv).trans hfalse
      show ∃ p', (branchElse (.path condition) yes (chain (second :: rest) (some no)) .done).run
        .unbounded depth context p = .error .depthExceeded p'
      rw [run_branchElse hv, hholds]
      cases depth with
      | zero => exact ⟨_, rfl⟩
      | succ inner =>
          have hrest : ∀ branch ∈ second :: rest,
              ∃ v, context.resolve branch.1 = .ok v ∧ v.isTrue = false :=
            fun branch hbranch => hvalues branch (List.mem_cons_of_mem _ hbranch)
          exact run_chain_exhausted hrest (Nat.lt_of_succ_lt_succ hdepth) _

end RunChain

/-! ## What a chain comes to -/

/-- One rendering behind steps that have been taken. -/
theorem rendering_steps (count : Nat) (b : Block) (context : Context) :
    Run.rendering (do steps count; b.run .unbounded Machine.maxDepth context) =
      (b.run .unbounded Machine.maxDepth context).rendering.map fun r =>
        ⟨r.output, count + r.steps⟩ := by
  obtain ⟨x, hx⟩ := b.exists_renders Machine.maxDepth context
  rw [((renders_steps count).append hx).rendering_eq, hx.rendering_eq]
  cases x <;> rfl

/-- Running the code of a chain comes to what running the code of the selected block does,
after the steps of the conditions; or it is nested too deep, and fails for that. -/
theorem rendering_chain {branches : List (List String × Block)} {otherwise : Option Block}
    (hne : branches ≠ []) (hlegible : (chain branches otherwise).Legible)
    (fits : (chain branches otherwise).LengthsFit) {context : Context}
    (hvalues : ∀ branch ∈ branches, ∃ v, context.resolve branch.1 = .ok v) :
    Machine.rendering .unbounded (chain branches otherwise).encode context =
        ((Machine.rendering .unbounded (selected context.holds branches otherwise).encode
          context).map fun r => ⟨r.output, tested context.holds branches + r.steps⟩) ∨
      Machine.maxDepth < (chain branches otherwise).nesting ∧
        Machine.rendering .unbounded (chain branches otherwise).encode context =
          .error .depthExceeded := by
  have hlegible' : (selected context.holds branches otherwise).Legible :=
    of_chain trivial (fun _ _ h => h.2.1) (fun _ _ _ h => ⟨h.2.1, h.2.2.1⟩) hne hlegible
  have fits' : (selected context.holds branches otherwise).LengthsFit :=
    of_chain trivial (fun _ _ h => h.2.1) (fun _ _ _ h => ⟨h.2.2.1, h.2.2.2.1⟩) hne fits
  rw [Machine.rendering_encode hlegible fits, Machine.rendering_encode hlegible' fits',
    ← rendering_steps]
  refine (run_chain hne hvalues).rendering_eq.imp_right fun hdeep => ⟨?_, hdeep⟩
  exact Nat.lt_of_not_le fun hdepth => rendering_ne_depthExceeded hlegible hdepth hdeep

end Block

/-! ## Compiling it -/

/-- What is found of each element in the results is found of the elements themselves. -/
theorem map_eq_of_mapM {ε σ α β γ : Type} {f : α → EStateM ε σ β} {g : α → γ} {k : β → γ}
    (h : ∀ a s b s', f a s = .ok b s' → k b = g a) :
    ∀ {xs : List α} {ys : List β} {s s' : σ}, xs.mapM f s = .ok ys s' → ys.map k = xs.map g
  | [], _, _, _, hok => by
      cases hok
      rfl
  | _ :: _, _, _, _, hok => by
      obtain ⟨y, ys, s₁, hy, hys, rfl⟩ := mapM_cons_eq_ok.1 hok
      rw [List.map_cons, List.map_cons, h _ _ _ _ hy, map_eq_of_mapM h hys]

namespace Chain

variable (nested : Nested) (path : String) (scope : Option Scope) (chain : Chain)

/-- What is deferred of a chain. -/
def action : Action :=
  .defer path (scope.map Scope.path) (.conditional (chain.branches scope) chain.elseSource)

/-- The block of a body. -/
def bodyBlock (source : Bytes) : CompileM Block :=
  CompileM.underScope (scope.map Scope.path) (nested.block source path)

/-- A condition with the block of its body. -/
def branchBlock (branch : List String × Bytes) : CompileM (List String × Block) := do
  let block ← bodyBlock nested path scope branch.2
  pure (branch.1, block)

/-- The conditions with the blocks of their bodies, compiled in order, and the block of the
`else`. -/
def blocks : CompileM (List (List String × Block) × Option Block) := do
  let branches ← (chain.branches scope).mapM (branchBlock nested path scope)
  let no ← chain.elseSource.mapM (bodyBlock nested path scope)
  pure (branches, no)

theorem ofPiece_piece (extension : String) {s : CompileState}
    (hscope : s.scope = scope.map Scope.path) :
    Action.ofPiece nested extension path (chain.piece scope) s =
      .ok (chain.action path scope) s := by
  rw [action, ← hscope]
  rfl

variable {nested path scope chain} {s s' : CompileState}

/-- A chain is resolved to the chain of its blocks. -/
theorem resolve_eq_ok {code : Block} :
    Action.resolve nested (chain.action path scope) s = .ok code s' ↔
      ∃ branches no, chain.blocks nested path scope s = .ok (branches, no) s' ∧
        code = Block.chain branches no := by
  have hresolve : Action.resolve nested (chain.action path scope) =
      (fun found => Block.chain found.1 found.2) <$> chain.blocks nested path scope := by
    unfold blocks branchBlock bodyBlock
    simp only [action, Action.resolve, Action.resolveDeferral, map_bind, map_pure]
  rw [hresolve]
  simp only [Functor.map, EStateM.map]
  cases chain.blocks nested path scope s with
  | ok found s₁ =>
      constructor
      · rintro ⟨⟩
        exact ⟨found.1, found.2, rfl, rfl⟩
      · rintro ⟨branches, no, ⟨⟩, rfl⟩
        rfl
  | error e s₁ =>
      constructor
      · rintro ⟨⟩
      · rintro ⟨branches, no, ⟨⟩, -⟩

/-- The conditions of the blocks are those of the chain. -/
theorem conditions_of_blocks {branches : List (List String × Block)} {no : Option Block}
    (h : chain.blocks nested path scope s = .ok (branches, no) s') :
    branches.map Prod.fst = (chain.branches scope).map Prod.fst := by
  simp only [blocks, Bind.bind, EStateM.bind] at h
  split at h
  next found s₁ hbranches =>
    split at h <;> cases h
    refine map_eq_of_mapM ?_ hbranches
    intro branch s compiled s' hcompiled
    simp only [branchBlock, Bind.bind, EStateM.bind] at hcompiled
    split at hcompiled <;> cases hcompiled
    rfl
  next => cases h

/-- A chain of a compiler's blocks is well formed. -/
theorem wellFormed_of_resolve {compiler : Compiler} {code : Block}
    (h : Action.resolve (compiler.nestedWith compiler.blockOf) (chain.action path scope) s =
      .ok code s') : code.WellFormed := by
  have hcarries : (Quality.cut fun _ => True).Carries compiler.blockOf := by
    intro source path hsource s b s' hs hb
    exact Compiler.carries_cut .any compiler (fun _ _ _ => trivial) _ source path hsource s b s'
      hs hb
  have hnested : (Quality.cut fun _ => True).CarriesAll (compiler.nestedWith compiler.blockOf) :=
    Quality.carriesAll_nestedWith (fun _ _ _ => trivial) hcarries
  have haction : (Quality.cut fun _ => True).InAction (chain.action path scope) := by
    refine ⟨fun branch hbranch => ?_, fun _ _ => trivial⟩
    obtain ⟨guard, rfl⟩ := exists_guard hbranch
    exact ⟨Path.isPath_of_parse (guard.parseScoped_path scope), trivial⟩
  obtain ⟨-, hcode⟩ := Quality.maintains_resolve hnested haction s code s' (fun _ _ _ => trivial) h
  exact Compiler.wellFormed_of_cut hcode

/-- A chain is read as its branches, up to the text behind it, whatever the scope.  And
wherever it resolves, to code whose lengths have fields, its code comes to what the code of the
first block does whose condition is `true`, else of the `else`, else to nothing, if all
conditions have values; or it goes too deep.  The only other steps are those of the conditions
looked at, so that no other block runs. -/
theorem runs_first_true {compiler : Compiler} {after : Bytes}
    (htag : compiler.tags.find? (Utf8.encode "if") = some .branch)
    (hafter : ¬ clauseSign <+: after.dropWhile Bytes.isBlank) (scope : Option Scope)
    (chain : Chain) :
    (∀ c : Cursor, c.rest = chain.text ++ after →
      readTag compiler.tags (scope.map Scope.path) (c.forward 1) =
          .ok (chain.piece scope) (c.forward chain.text.length) ∧
        (c.forward chain.text.length).rest = after) ∧
    (∀ path s, s.scope = scope.map Scope.path →
      Action.ofPiece (compiler.nestedWith compiler.blockOf) compiler.extension path
        (chain.piece scope) s = .ok (chain.action path scope) s) ∧
    ∀ path s code s',
      Action.resolve (compiler.nestedWith compiler.blockOf) (chain.action path scope) s =
          .ok code s' → code.LengthsFit →
        ∃ branches no,
          chain.blocks (compiler.nestedWith compiler.blockOf) path scope s =
              .ok (branches, no) s' ∧
            branches.map Prod.fst = (chain.branches scope).map Prod.fst ∧
            ∀ context : Context,
              (∀ branch ∈ chain.branches scope, ∃ v, context.resolve branch.1 = .ok v) →
                Machine.rendering .unbounded code.encode context =
                    ((Machine.rendering .unbounded
                      (Block.selected context.holds branches no).encode context).map fun r =>
                        ⟨r.output, Block.tested context.holds branches + r.steps⟩) ∨
                  Machine.maxDepth < code.nesting ∧
                    Machine.rendering .unbounded code.encode context = .error .depthExceeded := by
  refine ⟨?_, fun path s => ofPiece_piece _ path scope chain _, ?_⟩
  · intro c hc
    exact ⟨readTag_text hafter htag scope chain hc, Cursor.rest_forward_of_append hc⟩
  · intro path s code s' hresolve fits
    have hlegible : code.Legible := (wellFormed_of_resolve hresolve).legible
    obtain ⟨branches, no, hblocks, rfl⟩ := resolve_eq_ok.1 hresolve
    have hconditions := conditions_of_blocks hblocks
    refine ⟨branches, no, hblocks, hconditions, fun context hvalues => ?_⟩
    have hne : branches ≠ [] := by
      rintro rfl
      cases hconditions
    refine Block.rendering_chain hne hlegible fits fun branch hbranch => ?_
    obtain ⟨source, hsource, hsame⟩ := List.mem_map.1 (hconditions ▸ List.mem_map_of_mem hbranch)
    exact hsame ▸ hvalues source hsource

/-- `#if(self) {a} ##if(x){b}\n##else() {c}`. -/
def ladder : Chain where
  first := ⟨"self", List.all_eq_true.1 (by decide +kernel), ["self"], by decide +kernel,
    ⟨⟨[0x20], List.all_eq_true.1 rfl⟩, Utf8.encode "a", by decide +kernel⟩⟩
  more := [(⟨[0x20], List.all_eq_true.1 rfl⟩,
    ⟨"x", List.all_eq_true.1 (by decide +kernel), ["x"], by decide +kernel,
      ⟨⟨[], nofun⟩, Utf8.encode "b", by decide +kernel⟩⟩)]
  otherwise := some (⟨[0x0A], List.all_eq_true.1 rfl⟩,
    ⟨⟨[0x20], List.all_eq_true.1 rfl⟩, Utf8.encode "c", by decide +kernel⟩)

example : ladder.text = Utf8.encode "#if(self) \x7ba\x7d ##if(x)\x7bb\x7d\n##else() \x7bc\x7d" := by
  decide +kernel

/-- The scope of a path `u`. -/
def underU : Scope := ⟨Utf8.encode "u", ["u"], by decide +kernel⟩

/-- What the ladder is compiled to under that scope. -/
def ladderBlock : Block :=
  .branchElse (.path ["u"]) (.raw (Utf8.encode "a") .done)
    (.branchElse (.path ["x"]) (.raw (Utf8.encode "b") .done) (.raw (Utf8.encode "c") .done) .done)
    .done

theorem runs_first_true_ladder :
    plain.tags.find? (Utf8.encode "if") = some .branch ∧
      ¬ clauseSign <+: (Utf8.encode " #").dropWhile Bytes.isBlank ∧
      readTag plain.tags (some (Utf8.encode "u"))
          ((Cursor.ofBytes (ladder.text ++ Utf8.encode " #")).forward 1) =
        .ok (.conditional [(["u"], Utf8.encode "a"), (["x"], Utf8.encode "b")]
            (some (Utf8.encode "c")))
          ((Cursor.ofBytes (ladder.text ++ Utf8.encode " #")).forward ladder.text.length) ∧
      Action.resolve (plain.nestedWith plain.blockOf) (ladder.action "" (some underU)) .fresh =
        .ok ladderBlock .fresh ∧
      Machine.rendering .unbounded ladderBlock.encode (.ofTable [("x", .bool true)]) =
        .ok ⟨Utf8.encode "b", 3⟩ := by
  have htag : plain.tags.find? (Utf8.encode "if") = some .branch := by decide +kernel
  have hafter : ¬ clauseSign <+: (Utf8.encode " #").dropWhile Bytes.isBlank := by decide +kernel
  have hresolve : Action.resolve (plain.nestedWith plain.blockOf)
      (ladder.action "" (some underU)) .fresh = .ok ladderBlock .fresh := by decide +kernel
  have hblocks : ladder.blocks (plain.nestedWith plain.blockOf) "" (some underU) .fresh =
      .ok ([(["u"], .raw (Utf8.encode "a") .done), (["x"], .raw (Utf8.encode "b") .done)],
        some (.raw (Utf8.encode "c") .done)) .fresh := by
    decide +kernel
  have hvalues : ∀ branch ∈ ladder.branches (some underU),
      ∃ v, (Context.ofTable [("x", .bool true)]).resolve branch.1 = .ok v := by
    intro branch hbranch
    have hboth : ladder.branches (some underU) =
        [(["u"], Utf8.encode "a"), (["x"], Utf8.encode "b")] := by decide +kernel
    rw [hboth] at hbranch
    rcases List.mem_pair.1 hbranch with rfl | rfl <;> exact ⟨_, rfl⟩
  obtain ⟨hread, -, hrun⟩ := runs_first_true htag hafter (some underU) ladder
  refine ⟨htag, hafter, (hread (.ofBytes _) rfl).1, hresolve, ?_⟩
  obtain ⟨branches, no, hfound, -, hcomes⟩ := hrun _ _ _ _ hresolve (by decide +kernel)
  cases hfound.symm.trans hblocks
  rcases hcomes _ hvalues with hselected | ⟨hdeep, -⟩
  · rw [hselected]
    decide +kernel
  · exact absurd hdeep (by decide)

/-! ### A chain that goes too deep -/

/-- `if(x) {A}`. -/
def rung : Guard :=
  ⟨"x", List.all_eq_true.1 (by decide +kernel), ["x"], by decide +kernel,
    ⟨⟨[0x20], List.all_eq_true.1 rfl⟩, Utf8.encode "A", by decide +kernel⟩⟩

/-- `#if(x) {A}`, then `##if(x) {A}` so many times, and `##else() {E}`. -/
def longChain (count : Nat) : Chain where
  first := rung
  more := List.replicate count (⟨[], nofun⟩, rung)
  otherwise := some (⟨[], nofun⟩,
    ⟨⟨[0x20], List.all_eq_true.1 rfl⟩, Utf8.encode "E", by decide +kernel⟩)

/-- The conditions of the long chain and the blocks of their bodies. -/
def longBranches (count : Nat) : List (List String × Block) :=
  List.replicate (count + 1) (["x"], .raw (Utf8.encode "A") .done)

/-- The block of its `else`. -/
def lastBlock : Block := .raw (Utf8.encode "E") .done

theorem branches_longChain (count : Nat) :
    (longChain count).branches none = List.replicate (count + 1) (["x"], Utf8.encode "A") := by
  rw [branches, longChain, List.map_replicate]
  rfl

theorem mapM_replicate {ε σ α β : Type} {f : α → EStateM ε σ β} {x : α} {y : β} {s : σ}
    (h : f x s = .ok y s) : ∀ count,
      (List.replicate count x).mapM f s = .ok (List.replicate count y) s
  | 0 => rfl
  | count + 1 => mapM_cons_of_ok h (mapM_replicate h count)

theorem blocks_longChain (count : Nat) :
    (longChain count).blocks (plain.nestedWith plain.blockOf) "" none .fresh =
      .ok (longBranches count, some lastBlock) .fresh := by
  have hbranch : branchBlock (plain.nestedWith plain.blockOf) "" none (["x"], Utf8.encode "A")
      .fresh = .ok (["x"], .raw (Utf8.encode "A") .done) .fresh := by
    decide +kernel
  have hlast : bodyBlock (plain.nestedWith plain.blockOf) "" none (Utf8.encode "E") .fresh =
      .ok lastBlock .fresh := by
    decide +kernel
  have helse : (longChain count).elseSource.mapM
      (bodyBlock (plain.nestedWith plain.blockOf) "" none) .fresh =
        .ok (some lastBlock) .fresh := by
    show (some <$> bodyBlock _ "" none (Utf8.encode "E")) .fresh = _
    simp only [Functor.map, EStateM.map, hlast]
  rw [blocks, branches_longChain]
  simp only [Bind.bind, EStateM.bind, mapM_replicate hbranch, helse]
  rfl

theorem length_encode_longChain : ∀ count,
    (Block.chain (longBranches count) (some lastBlock)).encode.length = 22 * (count + 1) + 7
  | 0 => by decide +kernel
  | count + 1 => by
      show (Block.branchElse (.path ["x"]) (.raw (Utf8.encode "A") .done)
        (Block.chain (longBranches count) (some lastBlock)) .done).encode.length = _
      have hfixed : (Block.raw (Utf8.encode "A") .done).encode.length = 7 ∧
          (Expr.path ["x"]).encode.length = 4 ∧ Block.done.encode.length = 1 := by decide +kernel
      rw [Block.encode_branchElse]
      simp only [List.length_append, List.length_cons, Block.branchHead, hfixed,
        length_encode_longChain count, Bytes.length_lengthField, Bytes.lengthFieldSize]
      omega

theorem lengthsFit_longChain : ∀ count, 22 * (count + 1) + 7 < Bytes.lengthBound →
    (Block.chain (longBranches count) (some lastBlock)).LengthsFit
  | 0, _ => by decide +kernel
  | count + 1, h => by
      unfold Bytes.lengthBound at h
      have hrest := lengthsFit_longChain count (by unfold Bytes.lengthBound; omega)
      have hlength := length_encode_longChain count
      refine ⟨by decide +kernel, ?_, by decide +kernel, hrest, trivial⟩
      show (Block.chain (longBranches count) (some lastBlock)).encode.length < 0x100000000
      omega

theorem legible_longChain (count : Nat) :
    (Block.chain (longBranches count) (some lastBlock)).Legible :=
  (wellFormed_of_resolve (resolve_eq_ok.2 ⟨_, _, blocks_longChain count, rfl⟩)).legible

/-- Each clause takes a level. -/
theorem nesting_longChain : ∀ count,
    (Block.chain (longBranches count) (some lastBlock)).nesting = count + 1
  | 0 => rfl
  | count + 1 => by
      show max (max 1 ((Block.chain (longBranches count) (some lastBlock)).nesting + 1)) 0 = _
      rw [nesting_longChain count]
      omega

section NoneHolds

variable {context : Context} {count : Nat}

theorem fails_longBranches (hx : context.resolve ["x"] = .ok .absent)
    {branch : List String × Block} (h : branch ∈ longBranches count) :
    ∃ v, context.resolve branch.1 = .ok v ∧ v.isTrue = false := by
  obtain rfl := List.eq_of_mem_replicate h
  exact ⟨.absent, hx, rfl⟩

theorem not_holds_longBranches (hx : context.resolve ["x"] = .ok .absent) :
    ∀ branch ∈ longBranches count, ¬ context.holds branch.1 = true := by
  intro branch hbranch
  obtain ⟨v, hv, hfalse⟩ := fails_longBranches hx hbranch
  rw [Context.holds_of_resolve hv, hfalse]
  exact Bool.false_ne_true

theorem selected_longBranches (hx : context.resolve ["x"] = .ok .absent) :
    Block.selected context.holds (longBranches count) (some lastBlock) = lastBlock := by
  rw [Block.selected, List.find?_eq_none.2 (not_holds_longBranches hx)]
  rfl

theorem tested_longBranches (hx : context.resolve ["x"] = .ok .absent) :
    Block.tested context.holds (longBranches count) = count + 1 := by
  have hlength : (longBranches count).length = count + 1 := List.length_replicate
  rw [Block.tested, List.findIdx_eq_length.2 fun branch hbranch =>
    Bool.eq_false_iff.2 (not_holds_longBranches hx branch hbranch), hlength]
  omega

/-- With fewer levels than clauses, the long chain goes too deep. -/
theorem exhausted_longChain (hx : context.resolve ["x"] = .ok .absent) {depth : Nat}
    (hdepth : depth ≤ count) (p : Progress) :
    ∃ p', (Block.chain (longBranches count) (some lastBlock)).run .unbounded depth context p =
      .error .depthExceeded p' := by
  refine Block.run_chain_exhausted (fun _ => fails_longBranches hx) ?_ p
  rw [longBranches, List.length_replicate]
  exact Nat.lt_succ_of_le hdepth

end NoneHolds

/-- No condition of this chain holds, and its `else` is the block that is selected.  Alone it
runs, but the machine has not as many levels as the chain has clauses. -/
theorem longChain_too_deep :
    Action.resolve (plain.nestedWith plain.blockOf) ((longChain 1499).action "" none) .fresh =
      .ok (Block.chain (longBranches 1499) (some lastBlock)) .fresh ∧
    (longChain 1499).blocks (plain.nestedWith plain.blockOf) "" none .fresh =
      .ok (longBranches 1499, some lastBlock) .fresh ∧
    (Block.chain (longBranches 1499) (some lastBlock)).LengthsFit ∧
    (∀ branch ∈ (longChain 1499).branches none, ∃ v, Context.empty.resolve branch.1 = .ok v) ∧
    Block.selected Context.empty.holds (longBranches 1499) (some lastBlock) = lastBlock ∧
    Machine.run .unbounded lastBlock.encode .empty = .ok (Utf8.encode "E") ∧
    Machine.run .unbounded (Block.chain (longBranches 1499) (some lastBlock)).encode .empty =
      .error .depthExceeded := by
  have hvalues : ∀ branch ∈ (longChain 1499).branches none,
      ∃ v, Context.empty.resolve branch.1 = .ok v := by
    intro branch hbranch
    rw [branches_longChain] at hbranch
    obtain rfl := List.eq_of_mem_replicate hbranch
    exact ⟨.absent, rfl⟩
  have fits : (Block.chain (longBranches 1499) (some lastBlock)).LengthsFit :=
    lengthsFit_longChain 1499 (by decide)
  have hlast : Machine.run .unbounded lastBlock.encode .empty = .ok (Utf8.encode "E") := by
    decide +kernel
  have hdeep : Machine.run .unbounded (Block.chain (longBranches 1499) (some lastBlock)).encode
      .empty = .error .depthExceeded := by
    obtain ⟨p, hexhausted⟩ :=
      @exhausted_longChain .empty 1499 rfl Machine.maxDepth (by decide) .start
    rw [Machine.run_encode (legible_longChain 1499) fits, hexhausted]
  exact ⟨resolve_eq_ok.2 ⟨_, _, blocks_longChain 1499, rfl⟩, blocks_longChain 1499, fits, hvalues,
    selected_longBranches rfl, hlast, hdeep⟩

end Chain

end Stencil
