/-
# `Stencil.Proofs.Assembly` — the bytes that are put together spell the tree

A source is compiled twice over: to bytes, and to a tree.  The first is what a template holds,
the second what is reasoned about.  This module ties them together: the bytes are those of the
tree, after every compilation that succeeds, and every other one fails in both by the same error
and in the same state (`Compiler.assembleBlock_eq`).

The passes do on bytes what they do on trees, one equation for each.  For that the elements of a
block have to be its code without the last byte (`Block.dropLast_encode`), and a chain of
conditions, folded from its end with the lengths of what is there already, the chain of the trees
(`Assembly.foldr_extend`).
-/
import Stencil.Compile.Compiler

namespace Stencil

open Assembly (ofBlock close)

/-! ## Blocks and their elements -/

namespace Block

theorem encode_eq_close (b : Block) : b.encode = close (ofBlock b) := by
  induction b with
  | done => rfl
  | raw data next ih => simp only [encode, ofBlock, Assembly.raw, close, ih, List.append_assoc]
  | print e next ih => simp only [encode, ofBlock, Assembly.print, close, ih, List.append_assoc]
  | branch condition yes next ihY ih =>
      simp only [encode, ofBlock, Assembly.branch, close, ihY, ih, List.append_assoc,
        List.length_nil, List.nil_append]
  | branchElse condition yes no next ihY ihN ih =>
      simp only [encode, ofBlock, Assembly.branch, close, ihY, ihN, ih, List.append_assoc]
  | loop name e body next ihB ih =>
      simp only [encode, ofBlock, Assembly.loop, close, ihB, ih, List.append_assoc,
        List.cons_append, List.nil_append]

/-- The code of a block without the byte that closes it. -/
theorem dropLast_encode (b : Block) : b.encode.dropLast = ofBlock b := by
  rw [encode_eq_close, close, List.dropLast_concat]

theorem ofBlock_append (b b' : Block) : ofBlock (b.append b') = ofBlock b ++ ofBlock b' := by
  induction b <;> simp_all only [append, ofBlock, List.append_assoc, List.nil_append]

theorem ofBlock_concat (blocks : List Block) :
    ofBlock (concat blocks) = (blocks.map ofBlock).flatten := by
  induction blocks with
  | nil => rfl
  | cons b blocks ih =>
      rw [List.map_cons, List.flatten_cons, ← ih]
      exact ofBlock_append b (concat blocks)

theorem encode_concat (blocks : List Block) :
    (concat blocks).encode = Assembly.join (blocks.map ofBlock) := by
  rw [encode_eq_close, ofBlock_concat, Assembly.join]

end Block

namespace Assembly

theorem ofBlock_loop (name : String) (e : Expr) (body : Block) :
    ofBlock (.loop name e body .done) = loop name e body.encode := by
  rw [ofBlock, ofBlock, List.append_nil, Block.encode_eq_close]

/-- What a chain is folded to from its end: the statement of the trees, and their block. -/
theorem foldr_extend (clause : List String × Block) (rest : List (List String × Block))
    (no : Option Block) :
    ((clause :: rest).map fun b => (b.1, b.2.encode)).foldr extend
        ([], (no.map Block.encode).getD []) =
      (ofBlock (Block.chain (clause :: rest) no), (Block.chain (clause :: rest) no).encode) := by
  induction rest generalizing clause with
  | nil => cases no <;> simp [extend, Block.chain, Block.encode_eq_close, ofBlock]
  | cons next rest ih =>
      rw [List.map_cons, List.foldr_cons, ih next]
      simp only [extend, Block.chain, Block.encode_eq_close, ofBlock, List.append_nil]

theorem chain_encode (blocks : List (List String × Block)) (no : Option Block) :
    chain (blocks.map fun b => (b.1, b.2.encode)) (no.map Block.encode) =
      ofBlock (Block.chain blocks no) := by
  cases blocks with
  | nil => rfl
  | cons clause rest => exact congrArg Prod.fst (foldr_extend clause rest no)

end Assembly

/-! ## The passes -/

def NestedOf.map {κ μ : Type} (f : κ → μ) (nested : NestedOf κ) : NestedOf μ :=
  ⟨fun source path => f <$> nested.block source path, fun name path => f <$> nested.file name path⟩

def ActionOf.map {κ μ : Type} (f : κ → μ) : ActionOf κ → ActionOf μ
  | emit code => emit (f code)
  | defer path scope what => defer path scope what

theorem CompileM.map_within {α β : Type} (f : α → β) (enter : CompileState → CompileState)
    (leave : CompileState → CompileState → CompileState) (part : CompileM α) :
    within enter leave (f <$> part) = f <$> within enter leave part := by
  funext s
  simp only [within, Functor.map, EStateM.map]
  cases part (enter s) <;> rfl

theorem CompileM.map_underScope {α β : Type} (f : α → β) (scope : Option Bytes)
    (part : CompileM α) : underScope scope (f <$> part) = f <$> underScope scope part :=
  map_within f _ _ part

theorem mapM_map_right {m : Type → Type} [Monad m] [LawfulMonad m] {α β γ : Type} (f : β → γ)
    (g : α → m β) (xs : List α) : xs.mapM (fun x => f <$> g x) = List.map f <$> xs.mapM g := by
  induction xs with
  | nil => simp
  | cons x xs ih => simp [ih]

namespace Assembly

variable (nested : Nested)

theorem ofPiece_encode (extension path : String) :
    ofPiece (nested.map Block.encode) extension path =
      fun piece => ActionOf.map ofBlock <$> Action.ofPiece nested extension path piece := by
  funext piece
  cases piece <;>
    simp [ofPiece, Action.ofPiece, NestedOf.map, ActionOf.map, Block.dropLast_encode, ofBlock]

theorem scan_encode (tags : TagTable) (extension : String) (source : Bytes) (path : String) :
    scan (nested.map Block.encode) tags extension source path =
      List.map (ActionOf.map ofBlock) <$> Action.scan nested tags extension source path := by
  simp only [scan, Action.scan, ofPiece_encode, mapM_map_right, map_bind, bind_map_left]
  refine bind_congr fun s => bind_congr fun actions => ?_
  cases (Reading.ofBytes tags s.scope source).fault with
  | none => exact (map_pure ..).symm
  | some e => rfl

theorem resolveDeferral_encode (path : String) (scope : Option Bytes) (what : Deferral) :
    resolveDeferral (nested.map Block.encode) path scope what =
      ofBlock <$> Action.resolveDeferral nested path scope what := by
  cases what with
  | importBody name =>
      simp only [resolveDeferral, Action.resolveDeferral, map_bind]
      refine bind_congr fun s => ?_
      cases s.exports.find? name with
      | none => rfl
      | some body =>
          simp only [map_bind]
          refine bind_congr fun t => ?_
          split
          · rfl
          · simp [NestedOf.map, CompileM.importing, CompileM.map_within, CompileM.map_underScope,
              Block.dropLast_encode]
  | extendFile name =>
      simp [resolveDeferral, Action.resolveDeferral, NestedOf.map, CompileM.map_underScope,
        Block.dropLast_encode]
  | body source =>
      simp [resolveDeferral, Action.resolveDeferral, NestedOf.map, CompileM.map_underScope,
        Block.dropLast_encode]
  | conditional branches otherwise =>
      have hblocks : (branches.mapM fun branch =>
          (fun block => (branch.1, block.encode)) <$>
            CompileM.underScope scope (nested.block branch.2 path)) =
          List.map (fun b => (b.1, b.2.encode)) <$> branches.mapM fun branch =>
            Prod.mk branch.1 <$> CompileM.underScope scope (nested.block branch.2 path) := by
        simp [← mapM_map_right]
      have hno : (otherwise.mapM fun source =>
          Block.encode <$> CompileM.underScope scope (nested.block source path)) =
          Option.map Block.encode <$> otherwise.mapM fun source =>
            CompileM.underScope scope (nested.block source path) := by
        cases otherwise <;> simp
      simp [resolveDeferral, Action.resolveDeferral, NestedOf.map, CompileM.map_underScope, hblocks,
        hno, chain_encode]
  | loop name iterable source =>
      simp [resolveDeferral, Action.resolveDeferral, NestedOf.map, CompileM.map_underScope,
        ofBlock_loop]

theorem resolve_encode : resolve (nested.map Block.encode) ∘ ActionOf.map ofBlock =
    fun action => ofBlock <$> Action.resolve nested action := by
  funext action
  cases action with
  | emit code => rfl
  | defer path scope what => exact resolveDeferral_encode nested path scope what

end Assembly

namespace Compiler

variable (compiler : Compiler)

theorem compileFileWith_map {κ μ : Type} (f : κ → μ) (block : Bytes → String → CompileM κ) :
    compiler.compileFileWith (fun source path => f <$> block source path) =
      fun name path => f <$> compiler.compileFileWith block name path := by
  funext name path
  simp only [compileFileWith, map_bind]
  refine bind_congr fun s => ?_
  split
  · rfl
  · cases compiler.store.load (Location.join path name) with
    | none => rfl
    | some source => exact CompileM.map_within f _ _ _

theorem nestedWith_map {κ μ : Type} (f : κ → μ) (block : Bytes → String → CompileM κ) :
    compiler.nestedWith (fun source path => f <$> block source path) =
      (compiler.nestedWith block).map f := by
  simp only [nestedWith, NestedOf.map, compileFileWith_map]

/-- The bytes that a source is compiled to are those of the tree. -/
theorem assembleBlock_eq (levels : Nat) (source : Bytes) (path : String) :
    compiler.assembleBlock levels source path =
      Block.encode <$> compiler.compileBlock levels source path := by
  induction levels generalizing source path with
  | zero => rfl
  | succ levels ih =>
      have hnested : compiler.nestedWith (compiler.assembleBlock levels) =
          (compiler.nestedWith (compiler.compileBlock levels)).map Block.encode := by
        rw [← nestedWith_map]
        exact congrArg _ (funext fun source => funext fun path => ih source path)
      simp only [assembleBlock, compileBlock, hnested, Assembly.scan_encode, bind_map_left,
        map_bind, List.mapM_map, Assembly.resolve_encode, mapM_map_right, Functor.map_map,
        Block.encode_concat]

/-- So are the bytes that a file is compiled to. -/
theorem assembleFileBlock_eq (levels : Nat) (name path : String) :
    compiler.assembleFileBlock levels name path =
      Block.encode <$> compiler.compileFileBlock levels name path := by
  have hblock : compiler.assembleBlock levels =
      fun source path => Block.encode <$> compiler.compileBlock levels source path :=
    funext fun source => funext fun path => compiler.assembleBlock_eq levels source path
  rw [assembleFileBlock, hblock, compileFileWith_map]
  rfl

end Compiler

end Stencil
