/-
# `Stencil.Proofs.Compiled` — what compilation puts into a block

Whatever the sources, the files and the state, a block that compilation gives is well
formed: names and paths are checked where they are read, zero bytes are found before
they get into raw bytes, and everything else is put together from such blocks
(`Compiler.carries_cut`, of any sources).

**Proved here**, for all sources, directories and states, from a compilation that
succeeds and whose lengths have fields:

    its code is the code of one block, and begins no other      (`Compiler.compileSource_spells`)
    running it fails by limits only, if no text in the context has a lone surrogate in it
                                                                (`Compiler.run_compileSource`)
-/
import Mathlib.Logic.ExistsUnique
import Stencil.Proofs.Assembly
import Stencil.Proofs.Cutting
import Stencil.Proofs.Running

namespace Stencil

open EStateM (Result)

instance decideEqResult {ε σ α : Type} [DecidableEq ε] [DecidableEq σ] [DecidableEq α] :
    DecidableEq (Result ε σ α)
  | .ok a s, .ok b t => decidable_of_iff (a = b ∧ s = t) (by simp)
  | .error e s, .error d t => decidable_of_iff (e = d ∧ s = t) (by simp)
  | .ok _ _, .error _ _ => .isFalse nofun
  | .error _ _, .ok _ _ => .isFalse nofun

/-- Every value that the computation gives has the property. -/
def Ensures {ε σ α : Type} (m : EStateM ε σ α) (P : α → Prop) : Prop :=
  ∀ s a s', m s = .ok a s' → P a

namespace Compiler

variable (compiler : Compiler)

/-- What is cut from sources of any bytes makes well-formed blocks. -/
theorem wellFormed_of_cut {b : Block} (hb : (Quality.cut fun _ => True).InBlock b) :
    b.WellFormed :=
  hb.imp (fun _ hdata => hdata.2) (fun _ => id) fun _ => id

/-- Compilation gives well-formed blocks. -/
theorem compileBlock_ensures (levels : Nat) (source : Bytes) (path : String) :
    Ensures (compiler.compileBlock levels source path) Block.WellFormed := by
  have hcarries := carries_cut .any compiler (fun _ _ _ => trivial) levels
  intro s b s' h
  obtain ⟨-, hb⟩ := hcarries source path trivial s b s' (fun _ _ _ => trivial) h
  exact wellFormed_of_cut hb

/-- So does compilation of files. -/
theorem compileFileBlock_ensures (levels : Nat) (name path : String) :
    Ensures (compiler.compileFileBlock levels name path) Block.WellFormed := by
  have hcarries := carries_cut .any compiler (fun _ _ _ => trivial) levels
  have hall : (Quality.cut fun _ => True).CarriesAll
      (compiler.nestedWith (compiler.compileBlock levels)) :=
    Quality.carriesAll_nestedWith (fun _ _ _ => trivial) hcarries
  intro s b s' h
  obtain ⟨-, hb⟩ := hall.file name path s b s' (fun _ _ _ => trivial) h
  exact wellFormed_of_cut hb

/-- The block of a source, as `compileSource` has it compiled. -/
def blockOf (source : Bytes) (path : String) : CompileM Block := do
  let levels := compiler.levels source (← get)
  compiler.compileBlock levels source path

/-- If the source compiles, the lengths in its code have fields. -/
def LengthsFit (source : Bytes) (path : String) (s : CompileState) : Prop :=
  ∀ b s', compiler.blockOf source path s = .ok b s' → b.LengthsFit

variable {compiler} {source : Bytes} {path : String} {s s' : CompileState} {t : Template}

/-- A template is made of a block exactly if there is one, and holds its code. -/
theorem template_eq_ok {m : CompileM Block} :
    (Template.mk <$> Block.encode <$> m) s = .ok t s' ↔ ∃ b, m s = .ok b s' ∧ t = ⟨b.code⟩ := by
  simp only [Functor.map, EStateM.map, Block.code_eq_encode]
  cases hm : m s with
  | ok b s₁ =>
      constructor
      · rintro ⟨⟩
        exact ⟨b, rfl, rfl⟩
      · rintro ⟨_, ⟨⟩, rfl⟩
        rfl
  | error e s₁ =>
      constructor
      · rintro ⟨⟩
      · rintro ⟨_, ⟨⟩, _⟩

/-- Making a template of a block fails only if there is no block. -/
theorem template_eq_error {m : CompileM Block} {e : CompileError} :
    (Template.mk <$> Block.encode <$> m) s = .error e s' ↔ m s = .error e s' := by
  simp only [Functor.map, EStateM.map]
  cases hm : m s with
  | ok b s₁ => exact ⟨nofun, nofun⟩
  | error d s₁ => exact ⟨fun h => by cases h; rfl, fun h => by cases h; rfl⟩

/-- What is put together byte by byte is the code of the tree. -/
theorem compileSource_eq_blockOf :
    compiler.compileSource source path s =
      (Template.mk <$> Block.encode <$> compiler.blockOf source path) s := by
  have hsource : compiler.compileSource source path s =
      (Template.mk <$> compiler.assembleBlock (compiler.levels source s) source path) s := rfl
  have hblock : compiler.blockOf source path s =
      compiler.compileBlock (compiler.levels source s) source path s := rfl
  rw [hsource, assembleBlock_eq]
  simp only [Functor.map, EStateM.map, hblock]

theorem compileFile_eq_block {name : String} :
    compiler.compileFile name path s =
      (Template.mk <$> Block.encode <$>
        compiler.compileFileBlock (compiler.levels [] s) name path) s := by
  have hfile : compiler.compileFile name path s =
      (Template.mk <$> compiler.assembleFileBlock (compiler.levels [] s) name path) s := rfl
  rw [hfile, assembleFileBlock_eq]

/-- A source compiles exactly if its block does, to the code of the block. -/
theorem compileSource_eq_ok : compiler.compileSource source path s = .ok t s' ↔
    ∃ b, compiler.blockOf source path s = .ok b s' ∧ t = ⟨b.code⟩ := by
  rw [compileSource_eq_blockOf, template_eq_ok]

/-- So does a file. -/
theorem compileFile_eq_ok {name : String} : compiler.compileFile name path s = .ok t s' ↔
    ∃ b, compiler.compileFileBlock (compiler.levels [] s) name path s = .ok b s' ∧
      t = ⟨b.code⟩ := by
  rw [compileFile_eq_block, template_eq_ok]

/-- A source fails to compile exactly if its block does, by the same error. -/
theorem compileSource_eq_error {e : CompileError} :
    compiler.compileSource source path s = .error e s' ↔
      compiler.blockOf source path s = .error e s' := by
  rw [compileSource_eq_blockOf, template_eq_error]

/-- So does a file. -/
theorem compileFile_eq_error {name : String} {e : CompileError} :
    compiler.compileFile name path s = .error e s' ↔
      compiler.compileFileBlock (compiler.levels [] s) name path s = .error e s' := by
  rw [compileFile_eq_block, template_eq_error]

/-- The code of a template is that of a well-formed block. -/
theorem exists_blockOf (h : compiler.compileSource source path s = .ok t s') :
    ∃ b, compiler.blockOf source path s = .ok b s' ∧ b.WellFormed ∧ t.code = b.encode := by
  obtain ⟨b, hblock, rfl⟩ := compileSource_eq_ok.1 h
  exact ⟨b, hblock, compiler.compileBlock_ensures _ _ _ _ _ _ hblock, b.code_eq_encode⟩

/-- The template is compiled from a source or from a file, and the lengths in its code have
fields. -/
inductive Produces (compiler : Compiler) : Template → Prop where
  | source {source : Bytes} {path : String} {s s' : CompileState} {t : Template}
      (h : compiler.compileSource source path s = .ok t s')
      (fits : compiler.LengthsFit source path s) : Produces compiler t
  | file {name path : String} {s s' : CompileState} {t : Template}
      (h : compiler.compileFile name path s = .ok t s')
      (fits : ∀ b s', compiler.compileFileBlock (compiler.levels [] s) name path s = .ok b s' →
        b.LengthsFit) : Produces compiler t

/-- The code of such a template is that of one well-formed block. -/
theorem Produces.exists_block (h : compiler.Produces t) :
    ∃ b : Block, b.WellFormed ∧ b.LengthsFit ∧ t.code = b.encode := by
  cases h with
  | source h fits =>
      obtain ⟨b, hblock, hb, hcode⟩ := exists_blockOf h
      exact ⟨b, hb, fits b _ hblock, hcode⟩
  | file h fits =>
      obtain ⟨b, hblock, rfl⟩ := compileFile_eq_ok.1 h
      have hb := compiler.compileFileBlock_ensures _ _ _ _ _ _ hblock
      exact ⟨b, hb, fits b _ hblock, b.code_eq_encode⟩

/-- The code of a template is the code of one block, and no code begins another. -/
theorem compileSource_spells (h : compiler.compileSource source path s = .ok t s')
    (fits : compiler.LengthsFit source path s) :
    (∃! b, Spells b t.code) ∧
      ∀ b₁ b₂ bs₁ bs₂ x y, Spells b₁ bs₁ → Spells b₂ bs₂ → bs₁ ++ x = bs₂ ++ y →
        b₁ = b₂ ∧ x = y := by
  obtain ⟨b, hblock, hb, hcode⟩ := exists_blockOf h
  have hspells : Spells b t.code := hcode ▸ spells_encode hb (fits b s' hblock)
  refine ⟨⟨b, hspells, ?_⟩, ?_⟩
  · intro b' h'
    exact (h'.unique (x := []) (y := []) hspells rfl).1
  · intro b₁ b₂ bs₁ bs₂ x y h₁ h₂ hx
    exact h₁.unique h₂ hx

/-- A compiler with the usual tags, and without files. -/
def plain : Compiler := ⟨SourceTable.store [], builtinTags, ".leaf"⟩

/-- A text, and a branch on a value. -/
def branchSource : Bytes := Utf8.encode "a#if(b) {x}"

/-- Its code. -/
def branchCode : Bytes :=
  [1, 1, 0, 0, 0, 97, 2, 1, 1, 98, 0, 0, 7, 0, 0, 0, 0, 0, 0, 0, 1, 1, 0, 0, 0, 120, 0, 0]

theorem lengthsFit_branchSource : plain.LengthsFit branchSource "" .fresh := by
  have hblock : plain.blockOf branchSource "" .fresh =
      .ok (.raw [97] (.branch (.path ["b"]) (.raw [120] .done) .done)) .fresh := by decide +kernel
  intro b s' hb
  cases hblock.symm.trans hb
  decide +kernel

theorem compileSource_branchSource :
    plain.compileSource branchSource "" .fresh = .ok ⟨branchCode⟩ .fresh := by
  decide +kernel

theorem compileSource_spells_branchSource :
    plain.LengthsFit branchSource "" .fresh ∧ ∃! b, Spells b branchCode :=
  ⟨lengthsFit_branchSource,
    (compileSource_spells compileSource_branchSource lengthsFit_branchSource).1⟩

/-- A template runs to an output, or to a limit: of steps, of nesting, or of digits.  Only if
the context holds a text with a lone surrogate, a run may end where that is to be printed. -/
theorem run_compileSource (h : compiler.compileSource source path s = .ok t s')
    (fits : compiler.LengthsFit source path s) (limits : Limits) (context : Context) :
    (∃ output, Machine.run limits t.code context = .ok output) ∨
      (∃ limit, limits.maxSteps = some limit ∧
        Machine.run limits t.code context = .error (.stepLimitExceeded limit)) ∨
      Machine.run limits t.code context = .error .depthExceeded ∨
      (∃ digits, Machine.run limits t.code context = .error (.tooManyDigits digits)) ∨
      ¬ context.Whole ∧
        ∃ lone, Machine.run limits t.code context = .error (.loneSurrogates lone) := by
  obtain ⟨b, hblock, hb, hcode⟩ := exists_blockOf h
  have hfails : Run.FailsOnlyBy (fun e =>
      (∃ limit, limits.maxSteps = some limit ∧ e = .stepLimitExceeded limit) ∨
        e = .depthExceeded ∨ (∃ digits, e = .tooManyDigits digits) ∨
        ¬ context.Whole ∧ ∃ lone, e = .loneSurrogates lone)
      (b.run limits Machine.maxDepth context) :=
    Block.run_fails hb.legible (fun limit h => .inl ⟨limit, h, rfl⟩) (fun _ => .inr (.inl rfl))
      (fun digits => .inr (.inr (.inl ⟨digits, rfl⟩)))
      fun hbroken lone => .inr (.inr (.inr ⟨hbroken, lone, rfl⟩))
  rw [hcode, Machine.run_encode hb.legible (fits b s' hblock)]
  cases hrun : b.run limits Machine.maxDepth context .start with
  | ok _ p => exact .inl ⟨p.output, rfl⟩
  | error e p =>
      rcases hfails _ e p hrun with
        ⟨limit, hlimit, rfl⟩ | rfl | ⟨digits, rfl⟩ | ⟨hbroken, lone, rfl⟩
      · exact .inr (.inl ⟨limit, hlimit, rfl⟩)
      · exact .inr (.inr (.inl rfl))
      · exact .inr (.inr (.inr (.inl ⟨digits, rfl⟩)))
      · exact .inr (.inr (.inr (.inr ⟨hbroken, lone, rfl⟩)))

theorem run_compileSource_branchSource :
    plain.LengthsFit branchSource "" .fresh ∧
      ((∃ output, Machine.run ⟨some 1⟩ branchCode .empty = .ok output) ∨
        (∃ limit, some 1 = some limit ∧
          Machine.run ⟨some 1⟩ branchCode .empty = .error (.stepLimitExceeded limit)) ∨
        Machine.run ⟨some 1⟩ branchCode .empty = .error .depthExceeded ∨
        (∃ digits, Machine.run ⟨some 1⟩ branchCode .empty = .error (.tooManyDigits digits)) ∨
        ¬ Context.empty.Whole ∧
          ∃ lone, Machine.run ⟨some 1⟩ branchCode .empty = .error (.loneSurrogates lone)) :=
  ⟨lengthsFit_branchSource,
    run_compileSource compileSource_branchSource lengthsFit_branchSource ⟨some 1⟩ .empty⟩

/-- A text of one half of a surrogate pair, under a name. -/
def halved : Context := .ofTable [("x", .text (.ofPoints [.ofUnit 0xD800]))]

/-- Where a text has a lone surrogate in it, a run ends by no limit. -/
theorem run_printed_halved :
    plain.compileSource (Utf8.encode "#(x)") "" .fresh = .ok ⟨[2, 3, 1, 120, 0, 0, 0]⟩ .fresh ∧
      Machine.run .unbounded [2, 3, 1, 120, 0, 0, 0] halved =
        .error (.loneSurrogates ⟨0, [.ofUnit 0xD800]⟩) := by
  decide +kernel

end Compiler

end Stencil
