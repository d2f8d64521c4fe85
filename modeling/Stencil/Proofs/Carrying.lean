/-
# `Stencil.Proofs.Carrying` — what compilation carries from sources into blocks

Blocks are put together from what stands in sources: raw bytes, names, paths, and bodies
that are sources in their turn.  If the pieces of each source have a quality, bodies among
them, then so have the blocks, provided that the files and what is kept under names have it.

`Maintains I m P` is what is proved of each part of a compilation: from states with the
invariant `I` it comes to such states, and to values with the property `P`.  Readers of
sources and runs of blocks have invariants as well, and the rules are the same for all of
them.

    a quality of sources and their pieces is carried into blocks  (`Quality.carries_compileBlock`)

The only induction that is not on a list is that on the levels of nesting.
-/
import Stencil.Compile.Compiler
import Stencil.Proofs.Format

namespace Stencil

open EStateM (Result)

/-! ## What a computation maintains -/

/-- From states with the invariant, the computation gives values with the property, and it
leaves states with the invariant. -/
def Maintains {ε σ α : Type} (I : σ → Prop) (m : EStateM ε σ α) (P : α → Prop) : Prop :=
  ∀ s a s', I s → m s = .ok a s' → I s' ∧ P a

namespace Maintains

variable {ε σ α β : Type} {I : σ → Prop} {P : α → Prop} {Q : β → Prop}

theorem pure {a : α} (h : P a) : Maintains I (Pure.pure a : EStateM ε σ α) P := by
  rintro s _ s' hs ⟨⟩
  exact ⟨hs, h⟩

theorem throw (e : ε) : Maintains I (throw e : EStateM ε σ α) P := by
  rintro s a s' hs ⟨⟩

theorem imp {P' : α → Prop} {m : EStateM ε σ α} (hm : Maintains I m P)
    (h : ∀ a, P a → P' a) : Maintains I m P' := by
  intro s a s' hs ha
  obtain ⟨hs', hP⟩ := hm s a s' hs ha
  exact ⟨hs', h a hP⟩

theorem bind {m : EStateM ε σ α} {f : α → EStateM ε σ β} (hm : Maintains I m P)
    (hf : ∀ a, P a → Maintains I (f a) Q) : Maintains I (m >>= f) Q := by
  intro s b s' hs h
  simp only [Bind.bind, EStateM.bind] at h
  split at h
  next a s₁ hok =>
    obtain ⟨hs₁, hP⟩ := hm _ _ _ hs hok
    exact hf a hP _ _ _ hs₁ h
  next => cases h

/-- What comes first gives nothing that is needed. -/
theorem after {m : EStateM ε σ α} {f : α → EStateM ε σ β} (hm : Maintains I m P)
    (hf : ∀ a, Maintains I (f a) Q) : Maintains I (m >>= f) Q :=
  bind hm fun a _ => hf a

/-- A computation that looks at its state. -/
theorem get {f : σ → EStateM ε σ β} (hf : ∀ s, I s → Maintains I (f s) Q) :
    Maintains I (MonadState.get >>= f) Q :=
  fun s b s' hs h => hf s hs s b s' hs h

theorem map {m : EStateM ε σ α} {f : α → β} (h : Maintains I m fun a => Q (f a)) :
    Maintains I (f <$> m) Q := by
  intro s b s' hs hb
  simp only [Functor.map, EStateM.map] at hb
  split at hb
  next hok => cases hb; exact h _ _ _ hs hok
  next => cases hb

theorem mapM {f : α → EStateM ε σ β} : ∀ {xs : List α}, (∀ x ∈ xs, Maintains I (f x) Q) →
    Maintains I (xs.mapM f) fun ys => ∀ y ∈ ys, Q y
  | [], _ => by
      rw [List.mapM_nil]
      exact pure fun y hy => absurd hy List.not_mem_nil
  | x :: xs, h => by
      rw [List.mapM_cons]
      refine bind (h x List.mem_cons_self) fun y hy => ?_
      refine bind (mapM fun x hx => h x (List.mem_cons_of_mem _ hx)) fun ys hys => pure ?_
      exact List.forall_mem_cons.2 ⟨hy, hys⟩

theorem forM {f : α → EStateM ε σ Unit} {P : Unit → Prop} (h : P ()) :
    ∀ {xs : List α}, (∀ x ∈ xs, Maintains I (f x) P) → Maintains I (xs.forM f) P
  | [], _ => pure h
  | x :: xs, hxs => by
      refine bind (hxs x List.mem_cons_self) fun _ _ => ?_
      exact forM h fun x hx => hxs x (List.mem_cons_of_mem _ hx)

theorem optionMapM {f : α → EStateM ε σ β} : ∀ {x : Option α}, (∀ y ∈ x, Maintains I (f y) Q) →
    Maintains I (x.mapM f) fun y => ∀ z ∈ y, Q z
  | none, _ => pure nofun
  | some x, h => by
      refine map ((h x rfl).imp ?_)
      rintro b hb _ ⟨⟩
      exact hb

/-- What is entered and left does not matter for the invariant. -/
theorem within {I : CompileState → Prop} {enter : CompileState → CompileState}
    {leave : CompileState → CompileState → CompileState} {part : CompileM α}
    (henter : ∀ s, I s → I (enter s)) (hleave : ∀ s s', I s' → I (leave s s'))
    (h : Maintains I part P) : Maintains I (CompileM.within enter leave part) P := by
  intro s a s' hs ha
  unfold CompileM.within at ha
  split at ha
  next hok =>
    cases ha
    obtain ⟨hs₁, hP⟩ := h _ _ _ (henter s hs) hok
    exact ⟨hleave s _ hs₁, hP⟩
  next => cases ha

end Maintains

/-! ## Qualities -/

theorem Block.Every.chain {data : Bytes → Prop} {name : String → Prop} {expr : Expr → Prop} :
    ∀ {branches : List (List String × Block)} {otherwise : Option Block},
      (∀ branch ∈ branches, expr (.path branch.1) ∧ branch.2.Every data name expr) →
        (∀ no ∈ otherwise, no.Every data name expr) →
          (Block.chain branches otherwise).Every data name expr
  | [], _, _, _ => trivial
  | [_], none, h, _ =>
      have hfirst := h _ List.mem_cons_self
      ⟨hfirst.1, hfirst.2, trivial⟩
  | [_], some no, h, hno =>
      have hfirst := h _ List.mem_cons_self
      ⟨hfirst.1, hfirst.2, hno no rfl, trivial⟩
  | _ :: _ :: _, _, h, hno =>
      have hfirst := h _ List.mem_cons_self
      have hrest := chain (fun branch hb => h branch (List.mem_cons_of_mem _ hb)) hno
      ⟨hfirst.1, hfirst.2, hrest, trivial⟩

/-- A quality that sources may have, and raw bytes, names and expressions in blocks. -/
structure Quality where
  source : Bytes → Prop
  data : Bytes → Prop
  name : String → Prop
  expr : Expr → Prop

namespace Quality

variable (q : Quality)

/-- All that is in the block has the quality. -/
abbrev InBlock (b : Block) : Prop := b.Every q.data q.name q.expr

/-- The code, the names, the paths and the bodies in the piece have the quality. -/
def InPiece : Piece → Prop
  | .emit code => q.InBlock code
  | .scopedBody _ body | .exportBody _ body => q.source body
  | .loop name iterable body => q.name name ∧ q.expr (.path iterable) ∧ q.source body
  | .conditional branches otherwise =>
      (∀ branch ∈ branches, q.expr (.path branch.1) ∧ q.source branch.2) ∧
        ∀ body ∈ otherwise, q.source body
  | .embedFile _ | .importBody _ | .extendFile _ => True

/-- The names, the paths and the bodies in what is deferred have the quality. -/
def InDeferral : Deferral → Prop
  | .body source => q.source source
  | .loop name iterable source => q.name name ∧ q.expr (.path iterable) ∧ q.source source
  | .conditional branches otherwise =>
      (∀ branch ∈ branches, q.expr (.path branch.1) ∧ q.source branch.2) ∧
        ∀ body ∈ otherwise, q.source body
  | .importBody _ | .extendFile _ => True

/-- What an action leaves to do has the quality. -/
def InAction : Action → Prop
  | .emit code => q.InBlock code
  | .defer _ _ what => q.InDeferral what

/-- The bodies that are kept under names have the quality. -/
def InState (s : CompileState) : Prop :=
  ∀ name body, s.exports.find? name = some body → q.source body

/-- Sources of the quality are compiled to blocks of the quality. -/
def Carries (block : Bytes → String → CompileM Block) : Prop :=
  ∀ source path, q.source source → Maintains q.InState (block source path) q.InBlock

/-- So are files. -/
structure CarriesAll (nested : Nested) : Prop where
  block : q.Carries nested.block
  file : ∀ name path, Maintains q.InState (nested.file name path) q.InBlock

variable {q} {nested : Nested}

theorem maintains_underScope {part : CompileM Block} (scope : Option Bytes)
    (h : Maintains q.InState part q.InBlock) :
    Maintains q.InState (CompileM.underScope scope part) q.InBlock :=
  .within (fun _ => id) (fun _ _ => id) h

theorem maintains_keep (name : String) {body : Bytes} (h : q.source body) :
    Maintains q.InState (CompileM.keep name body) fun _ => True := by
  rintro s _ _ hs ⟨⟩
  refine ⟨?_, trivial⟩
  intro other found hfind
  by_cases hname : other = name
  · rw [hname] at hfind
    obtain rfl : body = found := Option.some.inj ((Table.find?_insert_self ..).symm.trans hfind)
    exact h
  · exact hs other found ((Table.find?_insert_ne _ _ hname).symm.trans hfind)

theorem maintains_ofPiece (hnested : q.CarriesAll nested) (extension path : String)
    {piece : Piece} (h : q.InPiece piece) :
    Maintains q.InState (Action.ofPiece nested extension path piece) q.InAction := by
  refine .get fun s _ => ?_
  cases piece with
  | emit code => exact .pure h
  | scopedBody inner body => exact .pure h
  | loop name iterable body => exact .pure h
  | conditional branches otherwise => exact .pure h
  | embedFile name => exact .map (hnested.file _ _)
  | exportBody name body => exact .after (maintains_keep name h) fun _ => .pure trivial
  | importBody name => exact .pure trivial
  | extendFile name => exact .pure trivial

theorem maintains_scan (hnested : q.CarriesAll nested) {tags : TagTable} {source : Bytes}
    (h : ∀ scope, ∀ piece ∈ (Reading.ofBytes tags scope source).pieces, q.InPiece piece)
    (extension path : String) :
    Maintains q.InState (Action.scan nested tags extension source path) fun actions =>
      ∀ action ∈ actions, q.InAction action := by
  refine .get fun s _ => .bind (.mapM (Q := q.InAction) ?_) ?_
  · intro piece hpiece
    exact maintains_ofPiece hnested extension path (h s.scope piece hpiece)
  · intro actions hactions
    split
    · exact .throw _
    · exact .pure hactions

theorem maintains_resolveDeferral (hnested : q.CarriesAll nested) (path : String)
    (scope : Option Bytes) {what : Deferral} (h : q.InDeferral what) :
    Maintains q.InState (Action.resolveDeferral nested path scope what) q.InBlock := by
  have hbody : ∀ {source : Bytes}, q.source source →
      Maintains q.InState (CompileM.underScope scope (nested.block source path)) q.InBlock :=
    fun hsource => maintains_underScope scope (hnested.block _ path hsource)
  cases what with
  | importBody name =>
      refine .get fun s hs => ?_
      split
      · exact .throw _
      next body hfind =>
        refine .get fun _ _ => ?_
        split
        · exact .throw _
        · exact .within (fun _ => id) (fun _ _ => id) (hbody (hs name body hfind))
  | extendFile name => exact maintains_underScope scope (hnested.file name path)
  | body source => exact hbody h
  | conditional branches otherwise =>
      refine .bind (.mapM (Q := fun branch => q.expr (.path branch.1) ∧ q.InBlock branch.2) ?_) ?_
      · intro branch hbranch
        obtain ⟨hcondition, hsource⟩ := h.1 branch hbranch
        refine .bind (hbody hsource) ?_
        intro block hblock
        exact .pure ⟨hcondition, hblock⟩
      · intro blocks hblocks
        refine .bind (.optionMapM fun source hsource => hbody (h.2 source hsource)) ?_
        intro no hno
        exact .pure (Block.Every.chain hblocks hno)
  | loop name iterable source =>
      refine .bind (hbody h.2.2) ?_
      intro body hbody
      exact .pure ⟨h.1, h.2.1, hbody, trivial⟩

theorem maintains_resolve (hnested : q.CarriesAll nested) {action : Action}
    (h : q.InAction action) : Maintains q.InState (Action.resolve nested action) q.InBlock := by
  cases action with
  | emit code => exact .pure h
  | defer path scope what => exact maintains_resolveDeferral hnested path scope h

variable {compiler : Compiler}

theorem carriesAll_nestedWith
    (hstore : ∀ location source, compiler.store.load location = some source → q.source source)
    {block : Bytes → String → CompileM Block} (h : q.Carries block) :
    q.CarriesAll (compiler.nestedWith block) := by
  refine ⟨h, ?_⟩
  intro name path
  refine .get fun s _ => ?_
  split
  · exact .throw _
  · split
    · exact .throw _
    next source hload =>
      have hsource := hstore _ source hload
      exact .within (fun _ => id) (fun _ _ => id) (h source path hsource)

/-- If all files have the quality, and so have the pieces of every source that has it, then it
is carried into blocks, with any number of levels. -/
theorem carries_compileBlock (q : Quality)
    (hstore : ∀ location source, compiler.store.load location = some source → q.source source)
    (hread : ∀ scope source, q.source source →
      ∀ piece ∈ (Reading.ofBytes compiler.tags scope source).pieces, q.InPiece piece)
    (levels : Nat) : q.Carries (compiler.compileBlock levels) := by
  induction levels with
  | zero => exact fun _ _ _ => .throw _
  | succ levels ih =>
      intro source path hsource
      have hnested := carriesAll_nestedWith hstore ih
      have hpieces := fun scope => hread scope source hsource
      refine .bind (maintains_scan hnested hpieces _ path) ?_
      intro actions hactions
      refine .map (.imp (.mapM (Q := q.InBlock) ?_) ?_)
      · intro action haction
        exact maintains_resolve hnested (hactions action haction)
      · intro blocks hblocks
        exact Block.Every.concat hblocks

end Quality

end Stencil
