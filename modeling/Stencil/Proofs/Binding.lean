/-
# `Stencil.Proofs.Binding` — a scope is a binding of `self`

A body compiled under a scope holds rewritten paths; compiled without one it holds them
as they are written.  Run the first in a context, and the second in the same context
with `self` bound to the value at the path of the scope: they do the same
(`Compiler.run_compileSource_scoped`).

`Scope.Binds` is the relation between the two contexts that carries this through a run.
A loop lays the same binding over both, and the relation survives unless it binds `self`
or the name that the path of the scope begins with: then one of the two sees what the
scope stands for no more.
-/
import Stencil.Proofs.Compiled
import Stencil.Proofs.Scoping

namespace Stencil

/-- Below a value, segments are followed one after the other. -/
theorem Value.follow_append (v : Value) (first second : List String) :
    v.follow (first ++ second) = v.follow first >>= fun w => w.follow second := by
  induction first generalizing v with
  | nil => rfl
  | cons segment rest ih =>
      rw [List.cons_append, Value.follow, Value.follow]
      by_cases habsent : v.isAbsent = true
      · rw [if_pos habsent, if_pos habsent]
        cases second with
        | nil => rfl
        | cons => rfl
      · rw [if_neg habsent, if_neg habsent]
        cases v.member segment with
        | error e => rfl
        | ok w => exact ih w

namespace Scope

variable (p : Scope)

/-- Paths as they are seen within the scope have in one context the values which they
have, as they are written, in the other. -/
structure Binds (outer inner : Context) : Prop where
  self : ∀ rest, outer.resolve (p.segments ++ rest) = inner.resolve (selfName :: rest)
  other : ∀ name, name ≠ selfName → outer.lookup name = inner.lookup name

variable {p} {outer inner : Context}

theorem bind_self (rest : List String) : p.bind (selfName :: rest) = p.segments ++ rest := by
  show (if selfName = selfName then p.segments ++ rest else selfName :: rest) = _
  exact if_pos rfl

theorem bind_other {name : String} (h : name ≠ selfName) (rest : List String) :
    p.bind (name :: rest) = name :: rest :=
  if_neg h

theorem Binds.resolve (h : p.Binds outer inner) (segments : List String) :
    outer.resolve (p.bind segments) = inner.resolve segments := by
  cases segments with
  | nil => rfl
  | cons name rest =>
      by_cases hself : name = selfName
      · subst hself
        rw [bind_self, h.self rest]
      · rw [bind_other hself]
        simp only [Context.resolve, h.other name hself]

/-- What the names of loops must not be for a scope: `self`, and the first name of its
path. -/
def Spares (p : Scope) (name : String) : Prop := name ≠ selfName ∧ p.segments.head? ≠ some name

theorem Binds.overlay (h : p.Binds outer inner) {name : String} (hname : p.Spares name)
    (x : Value) : p.Binds (outer.overlay name x) (inner.overlay name x) := by
  constructor
  · intro rest
    have hrest := h.self rest
    have hhead := hname.2
    cases hsegments : p.segments with
    | nil => exact absurd hsegments (Path.isPath_of_parse p.parsed).1
    | cons first others =>
        rw [hsegments] at hrest hhead
        have hfirst : name ≠ first := fun heq => hhead (congrArg some heq.symm)
        simp only [Context.resolve, List.cons_append, Context.lookup_overlay_of_ne hfirst,
          Context.lookup_overlay_of_ne hname.1] at hrest ⊢
        exact hrest
  · intro other hother
    simp only [Context.lookup, h.other other hother]

/-- A context, and the same with `self` bound to the value at the path of the scope. -/
theorem binds_overlay_self {context : Context} {value : Value}
    (h : context.resolve p.segments = .ok value) :
    p.Binds context (context.overlay selfName value) := by
  constructor
  · intro rest
    cases hsegments : p.segments with
    | nil => exact absurd hsegments (Path.isPath_of_parse p.parsed).1
    | cons first others =>
        rw [hsegments] at h
        simp only [Context.resolve, Context.lookup_overlay_self, List.cons_append,
          Value.follow_append] at h ⊢
        cases hfollow : (context.lookup first).follow others with
        | error e => rw [hfollow] at h; cases h
        | ok w => rw [hfollow] at h; cases h; rfl
  · intro name hname
    exact (Context.lookup_overlay_of_ne (Ne.symm hname) ..).symm

theorem Binds.value (h : p.Binds outer inner) (e : Expr) :
    (e.mapPath p.bind).value outer = e.value inner := by
  cases e with
  | path segments => exact congrArg (Except.mapError RunError.ofPathFault) (h.resolve segments)
  | always => rfl

/-- In contexts that the scope relates, a block runs within it as it does without. -/
theorem Binds.run {b : Block} (h : p.Binds outer inner)
    (hb : b.Every (fun _ => True) p.Spares fun _ => True) (limits : Limits) (depth : Nat) :
    (p.block b).run limits depth outer = b.run limits depth inner := by
  induction b generalizing depth outer inner with
  | done => rfl
  | raw data next ih =>
      show Block.run limits (.raw data (p.block next)) depth outer = _
      simp only [Block.run, ih h hb.2]
  | print e next ih =>
      show Block.run limits (.print (e.mapPath p.bind) (p.block next)) depth outer = _
      simp only [Block.run, h.value e, ih h hb.2]
  | branch e yes next ihY ih =>
      show Block.run limits (.branch (e.mapPath p.bind) (p.block yes) (p.block next)) depth
        outer = _
      simp only [Block.run, h.value e, ihY h hb.2.1, ih h hb.2.2]
  | branchElse e yes no next ihY ihN ih =>
      show Block.run limits (.branchElse (e.mapPath p.bind) (p.block yes) (p.block no)
        (p.block next)) depth outer = _
      simp only [Block.run, h.value e, ihY h hb.2.1, ihN h hb.2.2.1, ih h hb.2.2.2]
  | loop name e body next ihB ih =>
      show Block.run limits (.loop name (e.mapPath p.bind) (p.block body) (p.block next)) depth
        outer = _
      have hbody := fun x => ihB (h.overlay hb.1 x) hb.2.2.1
      simp only [Block.run, h.value e, hbody, ih h hb.2.2.2]

theorem every_block {P : String → Prop} {b : Block} :
    (p.block b).Every (fun _ => True) P (fun _ => True) →
      b.Every (fun _ => True) P fun _ => True := by
  intro hb
  induction b with
  | done => trivial
  | raw data next ih => exact ⟨trivial, ih hb.2⟩
  | print e next ih => exact ⟨trivial, ih hb.2⟩
  | branch e yes next ihY ih => exact ⟨trivial, ihY hb.2.1, ih hb.2.2⟩
  | branchElse e yes no next ihY ihN ih =>
      exact ⟨trivial, ihY hb.2.1, ihN hb.2.2.1, ih hb.2.2.2⟩
  | loop name e body next ihB ih => exact ⟨hb.1, trivial, ihB hb.2.2.1, ih hb.2.2.2⟩

end Scope

namespace Compiler

/-- A compilation that has not begun, under a scope. -/
def freshUnder (scope : Bytes) : CompileState := { CompileState.fresh with scope := some scope }

variable {compiler : Compiler} {source : Bytes} {path : String}

/-- A source compiles under a scope exactly if it compiles without, and in every context
where the path of the scope has a value the two templates do the same, if the second has
`self` bound to that value and no loop binds `self` or the first name of the path. -/
theorem run_compileSource_scoped {scope : Bytes} {segments : List String}
    (hscope : Path.parse scope = .ok segments) :
    ((∃ t s, compiler.compileSource source path (freshUnder scope) = .ok t s) ↔
      ∃ t s, compiler.compileSource source path .fresh = .ok t s) ∧
    ∀ t₁ s₁ t₂ s₂,
      compiler.compileSource source path (freshUnder scope) = .ok t₁ s₁ →
      compiler.compileSource source path .fresh = .ok t₂ s₂ →
      compiler.LengthsFit source path (freshUnder scope) →
      compiler.LengthsFit source path .fresh →
      (∀ b, Spells b t₁.code → b.Every (fun _ => True)
        (fun name => name ≠ "self" ∧ segments.head? ≠ some name) fun _ => True) →
      ∀ limits context value, context.resolve segments = .ok value →
        Machine.run limits t₁.code context =
          Machine.run limits t₂.code (context.overlay "self" value) := by
  let p : Scope := ⟨scope, segments, hscope⟩
  have hmirrors : Mirrors p.state p.block (compiler.blockOf source path)
      (compiler.blockOf source path) :=
    .bind .get fun s => p.mirrors_compileBlock compiler (compiler.levels source s) source path
  refine ⟨⟨?_, ?_⟩, ?_⟩
  · rintro ⟨t₁, s₁, h₁⟩
    obtain ⟨b₁, hb₁, -⟩ := compileSource_eq_ok.1 h₁
    cases hwithout : compiler.blockOf source path .fresh with
    | ok b₂ s₂ => exact ⟨⟨b₂.code⟩, s₂, compileSource_eq_ok.2 ⟨b₂, hwithout, rfl⟩⟩
    | error e s₂ =>
        obtain ⟨d, s, hd⟩ := hmirrors.error hwithout
        exact nomatch hb₁.symm.trans hd
  · rintro ⟨t₂, s₂, h₂⟩
    obtain ⟨b₂, hb₂, -⟩ := compileSource_eq_ok.1 h₂
    exact ⟨_, _, compileSource_eq_ok.2 ⟨p.block b₂, hmirrors.ok hb₂, rfl⟩⟩
  · intro t₁ s₁ t₂ s₂ h₁ h₂ fits₁ fits₂ spares limits context value hvalue
    obtain ⟨b₁, hb₁, wf₁, hcode₁⟩ := exists_blockOf h₁
    obtain ⟨b₂, hb₂, wf₂, hcode₂⟩ := exists_blockOf h₂
    obtain ⟨rfl, -⟩ : b₁ = p.block b₂ ∧ s₁ = p.state s₂ := by
      cases hb₁.symm.trans (hmirrors.ok hb₂)
      exact ⟨rfl, rfl⟩
    have hspares : b₂.Every (fun _ => True) p.Spares fun _ => True :=
      Scope.every_block (spares _ (hcode₁ ▸ spells_encode wf₁ (fits₁ _ _ hb₁)))
    have hbinds := Scope.binds_overlay_self (p := p) hvalue
    rw [hcode₁, hcode₂, Machine.run_encode wf₁.legible (fits₁ _ _ hb₁),
      Machine.run_encode wf₂.legible (fits₂ _ _ hb₂), hbinds.run hspares]
    rfl

/-- A value printed below `self`, and a branch on another. -/
def selfSource : Bytes := Utf8.encode "#(self.c)#if(x) {y}"

/-- Its block, with a path in the place of `self`. -/
def selfBlock (segments : List String) : Block :=
  .print (.path (segments ++ ["c"])) (.branch (.path ["x"]) (.raw [121] .done) .done)

theorem run_compileSource_scoped_selfSource :
    let context := Context.ofTable
      [("a", .object [("b", .object [("c", .text "v")])]), ("x", .bool true)]
    Path.parse [97, 46, 98] = .ok ["a", "b"] ∧
      context.resolve ["a", "b"] = .ok (.object [("c", .text "v")]) ∧
      Machine.run .unbounded (selfBlock ["a", "b"]).encode context =
        Machine.run .unbounded (selfBlock ["self"]).encode
          (context.overlay "self" (.object [("c", .text "v")])) := by
  intro context
  have hscope : Path.parse [97, 46, 98] = .ok ["a", "b"] :=
    Path.parse_of_all (by decide) (by decide) (by decide)
  have hvalue : context.resolve ["a", "b"] = .ok (.object [("c", .text "v")]) := rfl
  have within : plain.blockOf selfSource "" (freshUnder [97, 46, 98]) =
      .ok (selfBlock ["a", "b"]) (freshUnder [97, 46, 98]) := by decide +kernel
  have without : plain.blockOf selfSource "" .fresh = .ok (selfBlock ["self"]) .fresh := by
    decide +kernel
  have fits₁ : plain.LengthsFit selfSource "" (freshUnder [97, 46, 98]) := by
    intro b s h
    cases within.symm.trans h
    decide +kernel
  have fits₂ : plain.LengthsFit selfSource "" .fresh := by
    intro b s h
    cases without.symm.trans h
    decide +kernel
  have hspells : Spells (selfBlock ["a", "b"]) (selfBlock ["a", "b"]).encode :=
    spells_encode (by decide +kernel) (by decide +kernel)
  refine ⟨hscope, hvalue, ?_⟩
  have h := (run_compileSource_scoped hscope).2 _ _ _ _ (compileSource_eq_ok.2 ⟨_, within, rfl⟩)
    (compileSource_eq_ok.2 ⟨_, without, rfl⟩) fits₁ fits₂ ?_ .unbounded context _ hvalue
  · rwa [Block.code_eq_encode, Block.code_eq_encode] at h
  · intro b hb
    rw [Block.code_eq_encode] at hb
    obtain ⟨rfl, -⟩ := hb.unique (x := []) (y := []) hspells rfl
    decide +kernel

end Compiler

end Stencil
