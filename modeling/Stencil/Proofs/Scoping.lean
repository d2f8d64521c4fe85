/-
# `Stencil.Proofs.Scoping` — compilation under a scope, and without one

Under a scope every path that a source mentions is rewritten, when it is read, and the
code holds the rewritten path.  This module shows that nothing else changes: compilation
under a scope succeeds exactly if it does without, and gives the same block with the
paths in it rewritten (`Scope.mirrors_compileBlock`).

For that the scope is carried through everything that is read and deferred on the way.
A source that is read within another scope already, because it is the body of a tag, is
read within the two joined (`Scope.narrow`).  `Mirrors f g m n` relates the two runs:
from a state and its image under `f` they both fail, or give a value and its image under
`g`.  Each reader, each piece and each action has a lemma; the induction is on the
levels of nesting.
-/
import Stencil.Compile.Compiler
import Stencil.Proofs.Path

namespace Stencil

open EStateM (Result)

/-! ## Computations that mirror each other -/

/-- Where `n` gives a value, `m` gives its image, and where `n` fails, `m` fails. -/
def Mirrors {ε σ α β : Type} (f : σ → σ) (g : α → β) (m : EStateM ε σ β) (n : EStateM ε σ α) :
    Prop :=
  ∀ s, match n s with
    | .ok a s' => m (f s) = .ok (g a) (f s')
    | .error _ _ => ∃ e s', m (f s) = .error e s'

namespace Mirrors

variable {ε σ α β γ δ : Type} {f : σ → σ} {g : α → β} {k : γ → δ}

theorem ok {m : EStateM ε σ β} {n : EStateM ε σ α} (h : Mirrors f g m n) {s s' : σ} {a : α}
    (hn : n s = .ok a s') : m (f s) = .ok (g a) (f s') := by
  have hs := h s
  rw [hn] at hs
  exact hs

theorem error {m : EStateM ε σ β} {n : EStateM ε σ α} (h : Mirrors f g m n) {s s' : σ} {e : ε}
    (hn : n s = .error e s') : ∃ d t, m (f s) = .error d t := by
  have hs := h s
  rw [hn] at hs
  exact hs

theorem pure {a : α} {b : β} (h : b = g a) :
    Mirrors f g (Pure.pure b : EStateM ε σ β) (Pure.pure a) := by
  subst h
  exact fun _ => rfl

theorem throw {e d : ε} : Mirrors f g (throw e : EStateM ε σ β) (throw d) :=
  fun s => ⟨e, f s, rfl⟩

theorem get : Mirrors f f (MonadState.get : EStateM ε σ σ) MonadState.get := fun _ => rfl

theorem refl (m : EStateM ε σ α) : Mirrors id id m m := by
  intro s
  cases h : m s with
  | ok a s' => exact h
  | error e s' => exact ⟨e, s', h⟩

theorem bind {m : EStateM ε σ β} {n : EStateM ε σ α} {p : β → EStateM ε σ δ}
    {q : α → EStateM ε σ γ} (hm : Mirrors f g m n) (h : ∀ a, Mirrors f k (p (g a)) (q a)) :
    Mirrors f k (m >>= p) (n >>= q) := by
  intro s
  simp only [Bind.bind, EStateM.bind]
  cases hn : n s with
  | ok a s' =>
      rw [hm.ok hn]
      exact h a s'
  | error e s' =>
      obtain ⟨d, t, hd⟩ := hm.error hn
      rw [hd]
      exact ⟨d, t, rfl⟩

/-- Both begin with the same, which does not depend on what differs. -/
theorem same {m : EStateM ε σ α} {p : α → EStateM ε σ δ} {q : α → EStateM ε σ γ}
    (h : ∀ a, Mirrors id k (p a) (q a)) : Mirrors id k (m >>= p) (m >>= q) :=
  (refl m).bind h

theorem ite {c : Prop} [Decidable c] {m m' : EStateM ε σ β} {n n' : EStateM ε σ α}
    (h : Mirrors f g m n) (h' : Mirrors f g m' n') :
    Mirrors f g (if c then m else m') (if c then n else n') := by
  split
  · exact h
  · exact h'

theorem map {m : EStateM ε σ β} {n : EStateM ε σ α} {p : β → δ} {q : α → γ}
    (hm : Mirrors f g m n) (h : ∀ a, p (g a) = k (q a)) : Mirrors f k (p <$> m) (q <$> n) := by
  intro s
  simp only [Functor.map, EStateM.map]
  cases hn : n s with
  | ok a s' =>
      rw [hm.ok hn]
      exact congrArg (Result.ok · (f s')) (h a)
  | error e s' =>
      obtain ⟨d, t, hd⟩ := hm.error hn
      rw [hd]
      exact ⟨d, t, rfl⟩

theorem mapM {p : β → EStateM ε σ δ} {q : α → EStateM ε σ γ}
    (h : ∀ a, Mirrors f k (p (g a)) (q a)) :
    ∀ xs : List α, Mirrors f (List.map k) ((xs.map g).mapM p) (xs.mapM q)
  | [] => by
      rw [List.map_nil, List.mapM_nil, List.mapM_nil]
      exact pure rfl
  | x :: xs => by
      rw [List.map_cons, List.mapM_cons, List.mapM_cons]
      refine bind (h x) ?_
      intro y
      exact bind (mapM h xs) fun ys => pure rfl

theorem optionMapM {p : α → EStateM ε σ δ} {q : α → EStateM ε σ γ}
    (h : ∀ a, Mirrors f k (p a) (q a)) :
    ∀ x : Option α, Mirrors f (Option.map k) (x.mapM p) (x.mapM q)
  | none => pure rfl
  | some x => (h x).map fun _ => rfl

end Mirrors

/-! ## Scopes -/

/-- The paths of a block, changed. -/
def Expr.mapPath (f : List String → List String) : Expr → Expr
  | .path segments => .path (f segments)
  | .always => .always

namespace Block

/-- A block with its paths changed. -/
def mapPaths (f : List String → List String) : Block → Block
  | done => done
  | raw data next => raw data (next.mapPaths f)
  | print e next => print (e.mapPath f) (next.mapPaths f)
  | branch e yes next => branch (e.mapPath f) (yes.mapPaths f) (next.mapPaths f)
  | branchElse e yes no next =>
      branchElse (e.mapPath f) (yes.mapPaths f) (no.mapPaths f) (next.mapPaths f)
  | loop name e body next => loop name (e.mapPath f) (body.mapPaths f) (next.mapPaths f)

variable (f : List String → List String)

theorem mapPaths_append (b b' : Block) :
    (b.append b').mapPaths f = (b.mapPaths f).append (b'.mapPaths f) := by
  induction b with
  | done => rfl
  | raw data next ih => exact congrArg (raw data) ih
  | print e next ih => exact congrArg (print _) ih
  | branch e yes next _ ih => exact congrArg (branch _ _) ih
  | branchElse e yes no next _ _ ih => exact congrArg (branchElse _ _ _) ih
  | loop name e body next _ ih => exact congrArg (loop name _ _) ih

theorem mapPaths_concat : ∀ blocks : List Block,
    (concat blocks).mapPaths f = concat (blocks.map (mapPaths f))
  | [] => rfl
  | b :: blocks => by
      show (b.append (concat blocks)).mapPaths f = _
      rw [mapPaths_append, mapPaths_concat blocks]
      rfl

theorem mapPaths_chain : ∀ (branches : List (List String × Block)) (otherwise : Option Block),
    (chain branches otherwise).mapPaths f =
      chain (branches.map fun branch => (f branch.1, branch.2.mapPaths f))
        (otherwise.map (mapPaths f))
  | [], _ => rfl
  | [_], none => rfl
  | [_], some _ => rfl
  | (condition, yes) :: second :: rest, otherwise =>
      congrArg (branchElse (.path (f condition)) (yes.mapPaths f) · .done)
        (mapPaths_chain (second :: rest) otherwise)

end Block

/-- A path that can be a scope, and its segments. -/
structure Scope where
  path : Bytes
  segments : List String
  parsed : Path.parse path = .ok segments

namespace Scope

variable (p : Scope)

/-- Segments as they are seen within the scope. -/
def bind : List String → List String := bindSelf p.segments

/-- The scope that another one becomes within this one. -/
def narrow : Option Bytes → Option Bytes
  | none => some p.path
  | some inner => some (scopedPath (some p.path) inner)

/-- A block as it is compiled within the scope. -/
def block : Block → Block := Block.mapPaths p.bind

/-- A condition, and what it decides about. -/
def guarded {α : Type} (branch : List String × α) : List String × α :=
  (p.bind branch.1, branch.2)

/-- A piece as it is read within the scope. -/
def piece : Piece → Piece
  | .emit code => .emit (p.block code)
  | .scopedBody inner body => .scopedBody (scopedPath (some p.path) inner) body
  | .loop name iterable body => .loop name (p.bind iterable) body
  | .conditional branches otherwise => .conditional (branches.map p.guarded) otherwise
  | .embedFile name => .embedFile name
  | .exportBody name body => .exportBody name body
  | .importBody name => .importBody name
  | .extendFile name => .extendFile name

/-- What is deferred within the scope. -/
def deferral : Deferral → Deferral
  | .importBody name => .importBody name
  | .extendFile name => .extendFile name
  | .body source => .body source
  | .conditional branches otherwise => .conditional (branches.map p.guarded) otherwise
  | .loop name iterable body => .loop name (p.bind iterable) body

/-- An action as it is found within the scope. -/
def action : Action → Action
  | .emit code => .emit (p.block code)
  | .defer path scope what => .defer path (p.narrow scope) (p.deferral what)

/-- A state of compilation within the scope. -/
def state (s : CompileState) : CompileState := { s with scope := p.narrow s.scope }

theorem scopedPath_narrow (scope : Option Bytes) (x : Bytes) :
    scopedPath (p.narrow scope) x = scopedPath (some p.path) (scopedPath scope x) := by
  cases scope with
  | none => rfl
  | some inner => exact scopedPath_scopedPath p.path inner x

/-! ## Reading a source -/

section Reading

open SourceReader

theorem mirrors_parseScoped (scope : Option Bytes) (x : Bytes) :
    Mirrors id p.bind (checked (parseScoped (p.narrow scope) x))
      (checked (parseScoped scope x)) := by
  have hread := @parse_scopedPath p.path p.segments p.parsed (scopedPath scope x)
  rw [← p.scopedPath_narrow] at hread
  cases hx : parseScoped scope x with
  | ok own =>
      have hnarrow : parseScoped (p.narrow scope) x = .ok (p.bind own) := hread.2 ⟨own, hx, rfl⟩
      rw [hnarrow]
      exact .pure rfl
  | error e =>
      cases hn : parseScoped (p.narrow scope) x with
      | ok names =>
          obtain ⟨own, hown, -⟩ := hread.1 hn
          exact nomatch hown.symm.trans hx
      | error d => exact .throw

theorem mirrors_readGuarded (scope : Option Bytes) :
    Mirrors id p.guarded (readGuarded (p.narrow scope)) (readGuarded scope) := by
  refine .same fun arguments => ?_
  refine .bind (p.mirrors_parseScoped scope _) ?_
  intro condition
  exact .same fun _ => .pure rfl

/-- A clause as it is read within the scope. -/
def clause : Clause → Clause
  | .elseIf condition body => .elseIf (p.bind condition) body
  | .otherwise body => .otherwise body

theorem mirrors_readClause (scope : Option Bytes) :
    Mirrors id p.clause (readClause (p.narrow scope)) (readClause scope) := by
  refine .same fun name => .ite ?_ (.ite ?_ .throw)
  · exact .bind (p.mirrors_readGuarded scope) fun _ => .pure rfl
  · exact .same fun _ => .same fun _ => .pure rfl

/-- `readClauses`, without the proofs that it needs to end. -/
theorem readClauses_eq (scope : Option Bytes) (branches : List (List String × Bytes)) (c : Cursor) :
    readClauses scope branches c =
      if c.skipBlanks.startsWith clauseSign then
        match readClause scope (c.skipBlanks.forward clauseSign.length) with
        | .error e c' => .error e c'
        | .ok (.elseIf condition body) c' => readClauses scope ((condition, body) :: branches) c'
        | .ok (.otherwise body) c' => .ok (.conditional branches.reverse (some body)) c'
      else .ok (.conditional branches.reverse none) c := by
  rw [readClauses]
  split
  next => split <;> simp [*]
  next => rfl

theorem mirrors_readClauses (scope : Option Bytes) (branches : List (List String × Bytes)) :
    Mirrors id p.piece (readClauses (p.narrow scope) (branches.map p.guarded))
      (readClauses scope branches) := by
  intro c
  simp only [id]
  fun_induction readClauses scope branches c with
  | case1 branches c hahead e c' hread =>
      obtain ⟨d, c₂, hd⟩ : ∃ d c₂, readClause (p.narrow scope)
          (c.skipBlanks.forward clauseSign.length) = .error d c₂ :=
        (p.mirrors_readClause scope).error hread
      exact ⟨d, c₂, by rw [readClauses_eq, if_pos hahead, hd]⟩
  | case2 branches c hahead condition body c' hread ih =>
      have hnarrow : readClause (p.narrow scope) (c.skipBlanks.forward clauseSign.length) =
          .ok (.elseIf (p.bind condition) body) c' := (p.mirrors_readClause scope).ok hread
      rw [readClauses_eq (p.narrow scope), if_pos hahead, hnarrow]
      exact ih
  | case3 branches c hahead body c' hread =>
      have hnarrow : readClause (p.narrow scope) (c.skipBlanks.forward clauseSign.length) =
          .ok (.otherwise body) c' := (p.mirrors_readClause scope).ok hread
      show readClauses (p.narrow scope) (branches.map p.guarded) c =
        .ok (.conditional (branches.reverse.map p.guarded) (some body)) c'
      rw [readClauses_eq, if_pos hahead, hnarrow, List.map_reverse]
  | case4 branches c hahead =>
      show readClauses (p.narrow scope) (branches.map p.guarded) c =
        .ok (.conditional (branches.reverse.map p.guarded) none) c
      rw [readClauses_eq, if_neg hahead, List.map_reverse]

theorem mirrors_readPrint (scope : Option Bytes) :
    Mirrors id p.piece (readPrint (p.narrow scope)) (readPrint scope) := by
  refine .same fun _ => .same fun path => .ite (.pure rfl) ?_
  refine .bind (p.mirrors_parseScoped scope path) ?_
  intro segments
  refine .same fun c => .ite ?_ (.pure rfl)
  refine .same fun body => .pure ?_
  rw [p.scopedPath_narrow]
  rfl

theorem mirrors_readLoop (scope : Option Bytes) :
    Mirrors id p.piece (readLoop (p.narrow scope)) (readLoop scope) := by
  refine .same fun values => .ite ?_ .throw
  refine .same fun _ => .bind (p.mirrors_parseScoped scope _) ?_
  intro iterable
  exact .same fun _ => .pure rfl

theorem mirrors_readRaw (scope : Option Bytes) :
    Mirrors id p.piece (readRaw (p.narrow scope)) (readRaw scope) := by
  refine .same fun _ => .same fun arguments => .ite ?_ ?_
  · refine .same fun _ => .same fun body => ?_
    cases body.findIdx? (· == Opcode.stop) with
    | some index => exact .throw
    | none => exact .pure rfl
  · exact .same fun _ => .bind (p.mirrors_parseScoped scope _) fun _ => .pure rfl

theorem mirrors_readTagRest (scope : Option Bytes) (tag : Tag) :
    Mirrors id p.piece (readTagRest (p.narrow scope) tag) (readTagRest scope tag) := by
  cases tag with
  | print => exact p.mirrors_readPrint scope
  | loop => exact p.mirrors_readLoop scope
  | branch =>
      exact .bind (p.mirrors_readGuarded scope) fun first => p.mirrors_readClauses scope [first]
  | raw => exact p.mirrors_readRaw scope
  | exportBody => exact .same fun _ => .same fun _ => .pure rfl
  | embedFile | importBody | extendFile => exact .map (.refl _) fun _ => rfl

theorem mirrors_readTag (tags : TagTable) (scope : Option Bytes) :
    Mirrors id p.piece (readTag tags (p.narrow scope)) (readTag tags scope) := by
  refine .same fun name => ?_
  cases tags.find? name with
  | some tag => exact p.mirrors_readTagRest scope tag
  | none => exact .throw

/-- The pieces of a reading within the scope are those without it, seen within the
scope; and either both have a fault or none. -/
def Reads (within without : Reading) : Prop :=
  within.pieces = without.pieces.map p.piece ∧ within.fault.isSome = without.fault.isSome

theorem map_literalPieces_append (text : Bytes) (found : List Piece) :
    (Reading.literalPieces text ++ found).map p.piece =
      Reading.literalPieces text ++ found.map p.piece := by
  unfold Reading.literalPieces
  split <;> rfl

section OfCursor

variable {tags : TagTable} {scope : Option Bytes} {found : List Piece} {c c' : Cursor}
  {text : Bytes}

theorem ofCursor_nul {index : Nat} (htext : c.rest.takeWhile (· != Sign.pound) = text)
    (hnul : text.findIdx? (· == Opcode.stop) = some index) :
    Reading.ofCursor tags scope found c =
      ⟨found.reverse, some (.nulByte (c.position + index))⟩ := by
  subst htext
  rw [Reading.ofCursor]
  simp only [hnul]

theorem ofCursor_end (htext : c.rest.takeWhile (· != Sign.pound) = text)
    (hplain : text.findIdx? (· == Opcode.stop) = none) (hend : (c.forward text.length).rest = []) :
    Reading.ofCursor tags scope found c =
      ⟨(Reading.literalPieces text ++ found).reverse, none⟩ := by
  subst htext
  rw [Reading.ofCursor]
  simp only [hplain]
  split
  next => rfl
  next hnext => cases hend.symm.trans hnext

theorem ofCursor_error {b : UInt8} {bs : Bytes} {e : CompileError}
    (htext : c.rest.takeWhile (· != Sign.pound) = text)
    (hplain : text.findIdx? (· == Opcode.stop) = none)
    (hnext : (c.forward text.length).rest = b :: bs)
    (hread : readTag tags scope ((c.forward text.length).past hnext) = .error e c') :
    Reading.ofCursor tags scope found c =
      ⟨(Reading.literalPieces text ++ found).reverse, some e⟩ := by
  subst htext
  rw [Reading.ofCursor]
  simp only [hplain]
  split
  next hend => cases hend.symm.trans hnext
  next hnext' =>
    cases hnext.symm.trans hnext'
    split
    next hread' => cases hread'.symm.trans hread; rfl
    next hread' => cases hread'.symm.trans hread

theorem ofCursor_tag {b : UInt8} {bs : Bytes} {piece : Piece}
    (htext : c.rest.takeWhile (· != Sign.pound) = text)
    (hplain : text.findIdx? (· == Opcode.stop) = none)
    (hnext : (c.forward text.length).rest = b :: bs)
    (hread : readTag tags scope ((c.forward text.length).past hnext) = .ok piece c') :
    Reading.ofCursor tags scope found c =
      Reading.ofCursor tags scope (piece :: (Reading.literalPieces text ++ found)) c' := by
  subst htext
  rw [Reading.ofCursor]
  simp only [hplain]
  split
  next hend => cases hend.symm.trans hnext
  next hnext' =>
    cases hnext.symm.trans hnext'
    split
    next hread' => cases hread'.symm.trans hread
    next hread' => cases hread'.symm.trans hread; rfl

end OfCursor

theorem reads_ofCursor (tags : TagTable) (scope : Option Bytes) (found : List Piece) (c : Cursor) :
    p.Reads (Reading.ofCursor tags (p.narrow scope) (found.map p.piece) c)
      (Reading.ofCursor tags scope found c) := by
  fun_induction Reading.ofCursor tags scope found c with
  | case1 found c text index hnul =>
      rw [ofCursor_nul rfl hnul]
      exact ⟨List.map_reverse.symm, rfl⟩
  | case2 found c text hplain _ hend =>
      rw [ofCursor_end rfl hplain hend, ← p.map_literalPieces_append]
      exact ⟨List.map_reverse.symm, rfl⟩
  | case3 found c text hplain _ b bs hnext e c' hread =>
      obtain ⟨d, c₂, hd⟩ := (p.mirrors_readTag tags scope).error hread
      rw [ofCursor_error rfl hplain hnext hd, ← p.map_literalPieces_append]
      exact ⟨List.map_reverse.symm, rfl⟩
  | case4 found c text hplain _ b bs hnext piece c' hread ih =>
      rw [ofCursor_tag rfl hplain hnext ((p.mirrors_readTag tags scope).ok hread),
        ← p.map_literalPieces_append]
      exact ih

end Reading

/-! ## Compiling it -/

/-- Bodies and files are compiled within the scope as they are without it. -/
structure Narrows (nested : Nested) : Prop where
  block : ∀ source path,
    Mirrors p.state p.block (nested.block source path) (nested.block source path)
  file : ∀ name path, Mirrors p.state p.block (nested.file name path) (nested.file name path)

/-- What is entered alike, and left alike. -/
theorem mirrors_within {α : Type} {g : α → α} {enter enter' : CompileState → CompileState}
    {leave leave' : CompileState → CompileState → CompileState} {m n : CompileM α}
    (henter : ∀ s, enter' (p.state s) = p.state (enter s))
    (hleave : ∀ s s', leave' (p.state s) (p.state s') = p.state (leave s s'))
    (h : Mirrors p.state g m n) :
    Mirrors p.state g (CompileM.within enter' leave' m) (CompileM.within enter leave n) := by
  intro s
  unfold CompileM.within
  rw [henter s]
  cases hn : n (enter s) with
  | ok a s' =>
      rw [h.ok hn]
      exact congrArg (Result.ok (g a)) (hleave s s')
  | error e s' =>
      obtain ⟨d, t, hd⟩ := h.error hn
      rw [hd]
      exact ⟨d, _, rfl⟩

theorem mirrors_underScope {α : Type} {g : α → α} {m n : CompileM α} (scope : Option Bytes)
    (h : Mirrors p.state g m n) :
    Mirrors p.state g (CompileM.underScope (p.narrow scope) m) (CompileM.underScope scope n) :=
  p.mirrors_within (fun _ => rfl) (fun _ _ => rfl) h

theorem mirrors_including {α : Type} {g : α → α} {m n : CompileM α} (location : String)
    (h : Mirrors p.state g m n) :
    Mirrors p.state g (CompileM.including location m) (CompileM.including location n) :=
  p.mirrors_within (fun _ => rfl) (fun _ _ => rfl) h

theorem mirrors_importing {α : Type} {g : α → α} {m n : CompileM α} (name : String)
    (h : Mirrors p.state g m n) :
    Mirrors p.state g (CompileM.importing name m) (CompileM.importing name n) :=
  p.mirrors_within (fun _ => rfl) (fun _ _ => rfl) h

section Actions

variable {nested : Nested}

theorem mirrors_ofPiece (narrows : p.Narrows nested) (extension path : String) (piece : Piece) :
    Mirrors p.state p.action (Action.ofPiece nested extension path (p.piece piece))
      (Action.ofPiece nested extension path piece) := by
  refine .bind .get fun s => ?_
  cases piece with
  | emit code => exact .pure rfl
  | scopedBody inner body => exact .pure rfl
  | loop name iterable body => exact .pure rfl
  | conditional branches otherwise => exact .pure rfl
  | embedFile name => exact .map (narrows.file _ _) fun _ => rfl
  | exportBody name body =>
      refine .bind (g := id) ?_ fun _ => .pure rfl
      exact fun _ => rfl
  | importBody name => exact .pure rfl
  | extendFile name => exact .pure rfl

theorem mirrors_scan (narrows : p.Narrows nested) (tags : TagTable) (extension : String)
    (source : Bytes) (path : String) :
    Mirrors p.state (List.map p.action) (Action.scan nested tags extension source path)
      (Action.scan nested tags extension source path) := by
  refine .bind .get fun s => ?_
  obtain ⟨hpieces, hfault⟩ : p.Reads (Reading.ofBytes tags (p.state s).scope source)
      (Reading.ofBytes tags s.scope source) :=
    p.reads_ofCursor tags s.scope [] (Cursor.ofBytes source)
  dsimp only
  rw [hpieces]
  refine .bind (.mapM (p.mirrors_ofPiece narrows extension path) _) ?_
  intro actions
  cases hwithin : (Reading.ofBytes tags (p.state s).scope source).fault with
  | some d =>
      cases hwithout : (Reading.ofBytes tags s.scope source).fault with
      | some e => exact .throw
      | none => rw [hwithin, hwithout] at hfault; cases hfault
  | none =>
      cases hwithout : (Reading.ofBytes tags s.scope source).fault with
      | some e => rw [hwithin, hwithout] at hfault; cases hfault
      | none => exact .pure rfl

theorem mirrors_resolveDeferral (narrows : p.Narrows nested) (path : String)
    (scope : Option Bytes) (what : Deferral) :
    Mirrors p.state p.block
      (Action.resolveDeferral nested path (p.narrow scope) (p.deferral what))
      (Action.resolveDeferral nested path scope what) := by
  have hbody := fun source => p.mirrors_underScope scope (narrows.block source path)
  cases what with
  | importBody name =>
      refine .bind .get fun s => ?_
      show Mirrors p.state p.block (match s.exports.find? name with
        | none => _
        | some body => _) _
      cases s.exports.find? name with
      | none => exact .throw
      | some body =>
          refine .bind .get fun s => .ite .throw ?_
          exact p.mirrors_importing name (hbody body)
  | extendFile name => exact p.mirrors_underScope scope (narrows.file name path)
  | body source => exact hbody source
  | conditional branches otherwise =>
      have hbranch : ∀ branch : List String × Bytes,
          Mirrors p.state (fun branch : List String × Block => (p.bind branch.1, p.block branch.2))
            (do
              let block ← CompileM.underScope (p.narrow scope) (nested.block branch.2 path)
              pure (p.bind branch.1, block))
            (do
              let block ← CompileM.underScope scope (nested.block branch.2 path)
              pure (branch.1, block)) :=
        fun branch => .bind (hbody branch.2) fun _ => .pure rfl
      refine .bind (.mapM (g := p.guarded) hbranch branches) ?_
      intro blocks
      refine .bind (.optionMapM hbody otherwise) ?_
      intro no
      exact .pure (Block.mapPaths_chain p.bind blocks no).symm
  | loop name iterable source => exact .bind (hbody source) fun _ => .pure rfl

theorem mirrors_resolve (narrows : p.Narrows nested) (action : Action) :
    Mirrors p.state p.block (Action.resolve nested (p.action action))
      (Action.resolve nested action) := by
  cases action with
  | emit code => exact .pure rfl
  | defer path scope what => exact p.mirrors_resolveDeferral narrows path scope what

end Actions

theorem narrows_nestedWith (compiler : Compiler) {block : Bytes → String → CompileM Block}
    (h : ∀ source path, Mirrors p.state p.block (block source path) (block source path)) :
    p.Narrows (compiler.nestedWith block) := by
  refine ⟨h, ?_⟩
  intro name path
  refine .bind .get fun s => .ite .throw ?_
  cases compiler.store.load (Location.join path name) with
  | none => exact .throw
  | some source => exact p.mirrors_including _ (h source path)

/-- Compilation within a scope succeeds exactly if it does without, and rewrites paths. -/
theorem mirrors_compileBlock (compiler : Compiler) (levels : Nat) (source : Bytes)
    (path : String) :
    Mirrors p.state p.block (compiler.compileBlock levels source path)
      (compiler.compileBlock levels source path) := by
  induction levels generalizing source path with
  | zero => exact .throw
  | succ levels ih =>
      have narrows := p.narrows_nestedWith compiler ih
      refine .bind (p.mirrors_scan narrows _ _ _ _) ?_
      intro actions
      refine .map (.mapM (p.mirrors_resolve narrows) actions) ?_
      intro blocks
      exact (Block.mapPaths_concat p.bind blocks).symm

end Scope

end Stencil
