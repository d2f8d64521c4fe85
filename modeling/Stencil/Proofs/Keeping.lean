/-
# `Stencil.Proofs.Keeping` — what compilation keeps

A relation between tables of exports that is not lost when a body is exported is kept by
whole compilations, if what the first table has under a name the second has too (`Keeps`).
It holds after each part of a compilation if it holds before, however deep the sources are
nested.  That a name is exported is one; that two tables have the same under every name is
another.

The rest of the state is not only kept but put back.  Scopes, inclusions and imports are
entered at any depth, in both passes, and an error may come up in each of them; each is
left again on the way out.  Names are never taken out of the table of exports.

**Proved here**, for every compiler, source, directory and state:

    a compilation puts back its bookkeeping, and forgets no name,
      be it after an error                                        (`Compiler.compile_restores`)
-/
import Stencil.Proofs.Termination

namespace Stencil

open EStateM (Result)

/-! ## Relations between tables -/

/-- A relation between tables of exports that compilation keeps, whatever the sources.  What
is found in the first table is found in the second, and where the first has nothing the
compilations fail alike, or part. -/
structure Keeps (X : Table String Bytes → Table String Bytes → Prop) (F : Faults CompileError) :
    Prop where
  found : ∀ E G, X E G → ∀ name body, E.find? name = some body → G.find? name = some body
  missing : ∀ E G, X E G → ∀ name, E.find? name = none → F.allowed (.notExported name) ∧
    (F.parting (.notExported name) ∨ G.find? name = none)
  insert : ∀ E G, X E G → ∀ name body, X (E.insert name body) (G.insert name body)
  other : ∀ e : CompileError, (∀ name, e ≠ .notExported name) → F.allowed e

namespace Keeps

variable {X : Table String Bytes → Table String Bytes → Prop} {F : Faults CompileError}
  {compiler : Compiler}

theorem allowed_of_isFault (keeps : Keeps X F) {e : CompileError} (h : e.IsFault) :
    F.allowed e := by
  refine keeps.other e ?_
  rintro name rfl
  exact h

/-- Sources that are compiled in one way, from tables that `X` relates. -/
def comparison (compiler : Compiler) (block : Bytes → String → CompileM Block) (path : String)
    (X : Table String Bytes → Table String Bytes → Prop) (F : Faults CompileError) : Comparison :=
  ⟨compiler.nestedWith block, compiler.nestedWith block, compiler.extension, path, [], X, F⟩

/-- Every source is compiled alike from tables that `X` relates. -/
def Respects (block : Bytes → String → CompileM Block) (path : String)
    (X : Table String Bytes → Table String Bytes → Prop) (F : Faults CompileError) : Prop :=
  ∀ (b : CompileState) (source : Bytes),
    Couples (b.At X) F (fun _ => True) (block source path) (block source path)

section Block

variable {block : Bytes → String → CompileM Block} {path : String} {b : CompileState}

/-- What is imported is compiled alike if every source is. -/
theorem answers_imported (keeps : Keeps X F) (hblock : Respects block path X F)
    (name : String) :
    (comparison compiler block path X F).Answers b True (.imported name) := by
  intro E G hEG
  refine ⟨keeps.missing E G hEG name, ?_⟩
  intro body hfind
  refine ⟨keeps.found E G hEG name body hfind, fun _ => keeps.other _ nofun, ?_⟩
  exact fun _ => hblock _ body

/-- So is a file. -/
theorem couples_compileFileWith (keeps : Keeps X F) (hblock : Respects block path X F)
    (name : String) :
    Couples (b.At X) F (fun _ => True) (compiler.compileFileWith block name path)
      (compiler.compileFileWith block name path) := by
  refine Compiler.couples_compileFileWith (fun _ => keeps.other _ nofun) (keeps.other _ nofun) ?_
  exact fun _ source _ => hblock _ source

/-- So is what a piece asks for. -/
theorem follows (keeps : Keeps X F) (hblock : Respects block path X F)
    (piece : Piece) :
    (comparison compiler block path X F).Follows b (fun _ => True) piece := by
  refine ⟨?_, fun name body _ E G hEG => keeps.insert E G hEG name body⟩
  intro r _
  cases r with
  | body source => exact hblock _ source
  | file name => exact keeps.couples_compileFileWith hblock _
  | imported name => exact keeps.answers_imported hblock name

/-- So is a source in its first pass. -/
theorem couples_scan (keeps : Keeps X F) (hblock : Respects block path X F)
    (source : Bytes) :
    Couples (b.At X) F (fun _ => True)
      (Action.scan (compiler.nestedWith block) compiler.tags compiler.extension source path)
      (Action.scan (compiler.nestedWith block) compiler.tags compiler.extension source path) := by
  have hfollows : ∀ piece ∈ (Reading.ofBytes compiler.tags b.scope source).pieces,
      (comparison compiler block path X F).Follows b (fun _ => True) piece :=
    fun piece _ => keeps.follows hblock piece
  exact (Comparison.couples_scan (fun _ => keeps.allowed_of_isFault) hfollows).imp
    fun _ _ => trivial

end Block

variable (compiler)

theorem couples_compileBlock (keeps : Keeps X F) (levels : Nat) (source : Bytes) (path : String)
    (b : CompileState) :
    Couples (b.At X) F (fun _ => True) (compiler.compileBlock levels source path)
      (compiler.compileBlock levels source path) := by
  induction levels generalizing source b with
  | zero => exact .throw (keeps.other _ nofun)
  | succ levels ih =>
      let cmp := comparison compiler (compiler.compileBlock levels) path X F
      rw [Compiler.compileBlock_succ]
      refine (Compiler.couples_passes cmp (fun _ => True) rfl (fun _ => keeps.allowed_of_isFault)
        ?_).imp fun _ _ => trivial
      exact fun piece _ => keeps.follows (fun b source => ih source b) piece

theorem couples_blockOf (keeps : Keeps X F) (source : Bytes) (path : String) (b : CompileState) :
    Couples (b.At X) F (fun _ => True) (compiler.blockOf source path)
      (compiler.blockOf source path) := by
  intro s t hst
  let levels := max (compiler.levels source s) (compiler.levels source t)
  rw [← Compiler.compileBlock_of_le (Nat.le_max_left _ _ : compiler.levels source s ≤ levels),
    ← Compiler.compileBlock_of_le (Nat.le_max_right _ _ : compiler.levels source t ≤ levels)]
  exact keeps.couples_compileBlock compiler levels source path b s t hst

/-- So does the first pass over a piece. -/
theorem couples_ofPiece (keeps : Keeps X F) (path : String) (b : CompileState) (piece : Piece) :
    Couples (b.At X) F (fun _ => True)
      (Action.ofPiece (compiler.nestedWith compiler.blockOf) compiler.extension path piece)
      (Action.ofPiece (compiler.nestedWith compiler.blockOf) compiler.extension path piece) := by
  have hfollows : (comparison compiler compiler.blockOf path X F).Follows b (fun _ => True) piece :=
    keeps.follows (fun b source => keeps.couples_blockOf compiler source path b) piece
  exact (Comparison.couples_ofPiece hfollows).imp fun _ _ => trivial

/-- And the second pass, whatever it goes through. -/
theorem couples_resolve (keeps : Keeps X F) (b : CompileState) (action : Action) :
    Couples (b.At X) F (fun _ => True)
      (Action.resolve (compiler.nestedWith compiler.blockOf) action)
      (Action.resolve (compiler.nestedWith compiler.blockOf) action) := by
  cases action with
  | emit code => exact .pure trivial
  | defer path scope what =>
      let cmp := comparison compiler compiler.blockOf path X F
      have hblock : Respects compiler.blockOf path X F :=
        fun b source => keeps.couples_blockOf compiler source path b
      cases what with
      | importBody name => exact Comparison.alike_importBody cmp (keeps.answers_imported hblock name)
      | extendFile name => exact .underScope (keeps.couples_compileFileWith hblock name)
      | body source => exact .underScope (hblock _ source)
      | conditional branches otherwise =>
          refine (Comparison.alike_conditional cmp (fun _ => True)
            (fun branch _ => hblock _ branch.2) fun source _ => hblock _ source).imp ?_
          exact fun _ _ => trivial
      | loop name iterable source =>
          exact .bind (.underScope (hblock _ source)) fun _ _ => .pure trivial

end Keeps

/-- The part of a compilation keeps every relation that compilation keeps. -/
def CompileM.Keeping {α : Type} (m : CompileM α) : Prop :=
  ∀ (X : Table String Bytes → Table String Bytes → Prop) (F : Faults CompileError), Keeps X F →
    ∀ b : CompileState, Couples (b.At X) F (fun _ => True) m m

/-- The same table twice, with all of the names. -/
def HasNames (names : String → Prop) (E G : Table String Bytes) : Prop :=
  E = G ∧ ∀ name, names name → E.has name = true

/-- Every error may occur, but that one of the names is missing. -/
def Faults.finding (names : String → Prop) : Faults CompileError :=
  ⟨fun e => ∀ name, names name → e ≠ .notExported name, fun _ => False⟩

/-- Names that are exported stay exported. -/
theorem keeps_exported (names : String → Prop) : Keeps (HasNames names) (.finding names) where
  found := by
    rintro E _ ⟨rfl, -⟩ _ _ hfind
    exact hfind
  missing := by
    rintro E _ ⟨rfl, hnames⟩ other hnone
    refine ⟨?_, .inr hnone⟩
    rintro name hname ⟨⟩
    have hhas := hnames other hname
    unfold Table.has at hhas
    rw [hnone] at hhas
    cases hhas
  insert := by
    rintro E _ ⟨rfl, hnames⟩ other body
    refine ⟨rfl, ?_⟩
    intro name hname
    unfold Table.has
    by_cases hother : name = other
    · rw [hother, Table.find?_insert_self]
      rfl
    · rw [Table.find?_insert_ne _ _ hother]
      exact hnames name hname
  other := fun e he name _ => he name

/-! ## Bookkeeping -/

/-- The bookkeeping is that from before, and the names that were exported still are. -/
structure CompileState.Restored (before after : CompileState) : Prop where
  scope : after.scope = before.scope
  including : after.including = before.including
  importing : after.importing = before.importing
  exports : ∀ name, before.exports.has name = true → after.exports.has name = true

/-- However the part of a compilation ends, the state is restored. -/
structure CompileM.Restores {α : Type} (m : CompileM α) : Prop where
  ok : ∀ s a s', m s = .ok a s' → s.Restored s'
  error : ∀ s e s', m s = .error e s' → s.Restored s'

namespace CompileM

variable {α : Type}

/-- What keeps names restores the state. -/
theorem Keeping.restores {m : CompileM α} (h : m.Keeping) : m.Restores := by
  have hnames : ∀ s : CompileState, Couples (s.At (HasNames fun name => s.exports.has name = true))
      (.finding fun name => s.exports.has name = true) (fun _ => True) m m :=
    fun s => h _ _ (keeps_exported _) s
  have hstart : ∀ s : CompileState, s.At (HasNames fun name => s.exports.has name = true) s s :=
    fun s => .intro ⟨rfl, fun _ => id⟩
  constructor
  · intro s a s' hm
    obtain ⟨-, _, -, ⟨hall⟩⟩ := (hnames s).ok (hstart s) hm
    exact ⟨rfl, rfl, rfl, hall.2⟩
  · intro s e s' hm
    obtain ⟨-, hpart | ⟨_, -, ⟨hall⟩⟩⟩ := (hnames s).error (hstart s) hm
    · exact hpart.elim
    · exact ⟨rfl, rfl, rfl, hall.2⟩

/-- A part of a compilation that first counts levels restores the state if it does so with
any number of them. -/
theorem Restores.levels {m : Nat → CompileM α} (h : ∀ levels, (m levels).Restores)
    (count : CompileState → Nat) :
    Restores (do
      let levels := count (← get)
      m levels) := by
  constructor
  · intro s a s' hm
    exact (h (count s)).ok s a s' hm
  · intro s e s' hm
    exact (h (count s)).error s e s' hm

end CompileM

namespace Compiler

/-- Whether it succeeds or fails, a compilation puts back the scope, and what was being
included and imported; and every name that was exported still is. -/
theorem compile_restores (compiler : Compiler) (source : Bytes) (name path : String) :
    (compiler.scanSource source path).Restores ∧
      (∀ levels, (compiler.compileBlock levels source path).Restores) ∧
      (∀ levels, (compiler.compileFileBlock levels name path).Restores) ∧
      (compiler.compileSource source path).Restores ∧
      (compiler.compileFile name path).Restores := by
  have hblock : ∀ levels, (compiler.compileBlock levels source path).Restores := by
    intro levels
    refine CompileM.Keeping.restores fun _ _ keeps b => ?_
    exact keeps.couples_compileBlock compiler levels source path b
  have hfile : ∀ levels, (compiler.compileFileBlock levels name path).Restores := by
    intro levels
    refine CompileM.Keeping.restores fun _ _ keeps b => ?_
    refine keeps.couples_compileFileWith ?_ name
    exact fun b source => keeps.couples_compileBlock compiler levels source path b
  have hscan : ∀ levels, (Action.scan (compiler.nestedWith (compiler.compileBlock levels))
      compiler.tags compiler.extension source path).Restores := by
    intro levels
    refine CompileM.Keeping.restores fun _ _ keeps b => ?_
    refine keeps.couples_scan ?_ source
    exact fun b source => keeps.couples_compileBlock compiler levels source path b
  refine ⟨?_, hblock, hfile, ?_, ?_⟩
  · exact .levels hscan (compiler.levels source)
  · constructor
    · intro s t s' h
      obtain ⟨b, hb, -⟩ := compileSource_eq_ok.1 h
      exact (hblock _).ok s b s' hb
    · intro s e s' h
      exact (hblock _).error s e s' (compileSource_eq_error.1 h)
  · constructor
    · intro s t s' h
      obtain ⟨b, hb, -⟩ := compileFile_eq_ok.1 h
      exact (hfile _).ok s b s' hb
    · intro s e s' h
      exact (hfile _).error s e s' (compileFile_eq_error.1 h)

end Compiler

end Stencil
