/-
# `Stencil.Proofs.Dependence` — what the rendering of a template depends on

A block looks up the names at which its paths begin, and no other.  Two contexts that bind
them alike are the same to it: the runs in them take the same branches, go through loops
equally often, and write the same bytes, up to the same error.  How the bindings have come
about does not matter: overlays, one upon the other, are as good as one table.

**Proved here**, for every template that a compiler gives, within any limits:

    contexts that agree on the names in its code give it the same run,
    and every context gives it the run of its bindings in one table   (`Compiler.run_eq_of_agreeOn`)

The induction is on the block, with the contexts generalised.  Inside a loop both of them
are overlaid with the same element, so that they agree there too; it hides what they hold
under its name, even if it is absent.
-/
import Stencil.Proofs.Compiled

namespace Stencil

/-! ## Contexts that agree -/

namespace Context

/-- The contexts bind these names alike. -/
def AgreeOn (names : List String) (c d : Context) : Prop :=
  ∀ name ∈ names, c.lookup name = d.lookup name

variable {c d : Context}

theorem agreeOn_append {names more : List String} :
    AgreeOn (names ++ more) c d ↔ AgreeOn names c d ∧ AgreeOn more c d :=
  List.forall_mem_append

theorem AgreeOn.overlay {names : List String} (h : AgreeOn names c d) (own : String)
    (value : Value) : AgreeOn names (c.overlay own value) (d.overlay own value) := by
  intro name hname
  simp only [lookup, h name hname]

/-- The bindings of a context in one table. -/
def bindings : Context → Table Text Value
  | ofTable bindings => bindings
  | overlay own value outer => outer.bindings.insert own value

/-- A chain of overlays binds names as one table does. -/
theorem lookup_bindings (c : Context) (name : Text) :
    (ofTable c.bindings).lookup name = c.lookup name := by
  induction c with
  | ofTable bindings => rfl
  | overlay own value outer ih =>
      by_cases hname : (own : Text) = name
      · simp only [lookup, bindings, hname, Table.find?_insert_self, Option.getD_some, if_true]
      · simp only [lookup, bindings, Table.find?_insert_ne _ _ (Ne.symm hname), if_neg hname]
        exact ih

end Context

/-! ## The names that a block mentions -/

/-- The name at which a path begins. -/
def Expr.mentions : Expr → List String
  | path segments => segments.take 1
  | always => []

/-- The names at which the paths in a block begin. -/
def Block.mentions : Block → List String
  | done => []
  | raw _ next => next.mentions
  | print e next => e.mentions ++ next.mentions
  | branch e yes next => e.mentions ++ (yes.mentions ++ next.mentions)
  | branchElse e yes no next => e.mentions ++ (yes.mentions ++ (no.mentions ++ next.mentions))
  | loop _ e body next => e.mentions ++ (body.mentions ++ next.mentions)

open Context (AgreeOn agreeOn_append)

variable {c d : Context}

theorem Expr.value_congr {e : Expr} (h : AgreeOn e.mentions c d) : e.value c = e.value d := by
  cases e with
  | always => rfl
  | path segments =>
      cases segments with
      | nil => rfl
      | cons name rest =>
          have hname : c.lookup name = d.lookup name := h name List.mem_cons_self
          simp only [value, Context.resolve, hname]

/-- A block makes the same run of contexts that agree on the names that it mentions. -/
theorem Block.run_congr {b : Block} (h : AgreeOn b.mentions c d) (limits : Limits) (depth : Nat) :
    b.run limits depth c = b.run limits depth d := by
  induction b generalizing c d depth with
  | done => rfl
  | raw data next ih => simp only [run, ih h]
  | print e next ih =>
      obtain ⟨he, hnext⟩ := agreeOn_append.1 h
      simp only [run, Expr.value_congr he, ih hnext]
  | branch e yes next ihY ih =>
      obtain ⟨he, hblocks⟩ := agreeOn_append.1 h
      obtain ⟨hyes, hnext⟩ := agreeOn_append.1 hblocks
      simp only [run, Expr.value_congr he, ihY hyes, ih hnext]
  | branchElse e yes no next ihY ihN ih =>
      obtain ⟨he, hblocks⟩ := agreeOn_append.1 h
      obtain ⟨hyes, hothers⟩ := agreeOn_append.1 hblocks
      obtain ⟨hno, hnext⟩ := agreeOn_append.1 hothers
      simp only [run, Expr.value_congr he, ihY hyes, ihN hno, ih hnext]
  | loop name e body next ihB ih =>
      obtain ⟨he, hblocks⟩ := agreeOn_append.1 h
      obtain ⟨hbody, hnext⟩ := agreeOn_append.1 hblocks
      have hoverlay := fun x => ihB (hbody.overlay name x)
      simp only [run, Expr.value_congr he, hoverlay, ih hnext]

/-! ## Templates -/

namespace Compiler

variable {compiler : Compiler} {t : Template}

/-- A template depends only on the names that its code mentions: contexts that agree on them
give the same output or the same error, and every context gives what its bindings in one
table give. -/
theorem run_eq_of_agreeOn (h : compiler.Produces t) :
    (∃! b, Spells b t.code) ∧
      (∀ b, Spells b t.code → ∀ limits c d, AgreeOn b.mentions c d →
        Machine.run limits t.code c = Machine.run limits t.code d) ∧
      ∀ limits c, Machine.run limits t.code c = Machine.run limits t.code (.ofTable c.bindings) := by
  obtain ⟨b, hb, fits, hcode⟩ := h.exists_block
  have hspells : Spells b t.code := hcode ▸ spells_encode hb fits
  have hunique : ∀ b', Spells b' t.code → b' = b := fun b' h' =>
    (h'.unique (x := []) (y := []) hspells rfl).1
  have hagree : ∀ limits c d, AgreeOn b.mentions c d →
      Machine.run limits t.code c = Machine.run limits t.code d := by
    intro limits c d hcd
    simp only [hcode, Machine.run_encode hb.legible fits, Block.run_congr hcd]
  refine ⟨⟨b, hspells, hunique⟩, ?_, ?_⟩
  · intro b' h'
    obtain rfl := hunique b' h'
    exact hagree
  · intro limits c
    exact hagree limits c _ fun name _ => (c.lookup_bindings name).symm

/-- A loop, and before and behind it the name that it binds. -/
def hidingSource : Bytes := Utf8.encode "#(x)#loop(xs, \"x\") \x7b[#(x)]\x7d#(x)"

/-- What it is compiled to. -/
def hidingBlock : Block :=
  .print (.path ["x"]) (.loop "x" (.path ["xs"])
    (.raw (Utf8.encode "[") (.print (.path ["x"]) (.raw (Utf8.encode "]") .done)))
    (.print (.path ["x"]) .done))

theorem blockOf_hidingSource : plain.blockOf hidingSource "" .fresh = .ok hidingBlock .fresh := by
  decide +kernel

/-- A table, over which the name is bound to no value. -/
def hidingContext : Context :=
  (Context.ofTable [("x", .text "a"), ("y", .text "b"), ("xs", .sequence [.text "c", .absent])])
    |>.overlay "x" .absent

/-- A table without the name. -/
def bareContext : Context := .ofTable [("xs", .sequence [.text "c", .absent])]

theorem run_eq_of_agreeOn_hidingSource :
    plain.Produces ⟨hidingBlock.code⟩ ∧ Spells hidingBlock hidingBlock.code ∧
      AgreeOn hidingBlock.mentions hidingContext bareContext ∧
      Machine.run ⟨some 9⟩ hidingBlock.code hidingContext =
        Machine.run ⟨some 9⟩ hidingBlock.code bareContext ∧
      Machine.run ⟨some 9⟩ hidingBlock.code bareContext = .ok (Utf8.encode "[c][]") := by
  have fits : hidingBlock.LengthsFit := by decide +kernel
  have hproduces : plain.Produces ⟨hidingBlock.code⟩ := by
    refine .source (compileSource_eq_ok.2 ⟨_, blockOf_hidingSource, rfl⟩) fun b s hb => ?_
    cases blockOf_hidingSource.symm.trans hb
    exact fits
  have hspells : Spells hidingBlock hidingBlock.code := by
    rw [Block.code_eq_encode]
    exact spells_encode (by decide +kernel) fits
  have hagree : AgreeOn hidingBlock.mentions hidingContext bareContext := by
    intro name hname
    have hcases : name = "x" ∨ name = "xs" ∨ name = "x" := by
      simpa [hidingBlock, Block.mentions, Expr.mentions] using hname
    rcases hcases with rfl | rfl | rfl
    · rfl
    · rfl
    · rfl
  obtain ⟨-, hrun, -⟩ := run_eq_of_agreeOn hproduces
  exact ⟨hproduces, hspells, hagree, hrun _ hspells _ _ _ hagree, by decide +kernel⟩

end Compiler

end Stencil
