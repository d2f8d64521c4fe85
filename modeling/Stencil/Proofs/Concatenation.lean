/-
# `Stencil.Proofs.Concatenation` — what two sources render to, one behind the other

Two sources that compile can be written one behind the other, and what the whole renders
to is what the first does and then what the second does.  Three things could stand in the
way.

* The first source could read on into the second.  It does so only for a body, which would
  have to begin with a brace, and for a clause, which the second source cannot begin with if
  it compiles alone (`Reading.standsAlone_of_sound`).  The text at the seam becomes one
  piece, which is written as the two would be (`Block.Joins`).
* The two share a table of exports.  The passes over one source find there what the other has
  exported so far, in addition to what they find alone (`Adds`).  That does not matter if
  no name is exported by both.
* The run of the second starts where that of the first has ended.  Without a limit on the
  steps, what a run writes does not depend on what has been written (`Block.exists_renders`).

**Proved here**, for every store, extension and directory, with the usual tags:

    two sources that compile, and export no name both, compile one behind the other,
      and the whole renders to what the first does and then the second
                                                        (`Compiler.compileSource_append`)
-/
import Stencil.Proofs.Exporting
import Stencil.Proofs.Meaning

namespace Stencil

open EStateM (Result)

/-! ## Runs one after the other -/

/-- What a run writes if it starts from nothing. -/
def Run.output (m : Run Unit) : Except RunError Bytes :=
  match m .start with
  | .ok _ p => .ok p.output
  | .error e _ => .error e

namespace Run.Renders

theorem throw (e : RunError) : Renders (throw e) (.error e) := fun p => ⟨p, rfl⟩

theorem output {m : Run Unit} {x : Except RunError Rendering} (h : Renders m x) :
    m.output = x.map Rendering.output := by
  have hstart := h .start
  unfold Run.output
  cases x with
  | ok r =>
      rw [hstart]
      exact congrArg Except.ok (Progress.output_extend .start r)
  | error e =>
      obtain ⟨p, he⟩ := hstart
      rw [he]
      rfl

/-- What is written by one run and then another. -/
theorem output_append {m n : Run Unit} {x y : Except RunError Rendering} (hm : Renders m x)
    (hn : Renders n y) :
    Run.output (do m; n) = (do let r ← m.output; let s ← n.output; return r ++ s) := by
  rw [(hm.append hn).output, hm.output, hn.output]
  cases x with
  | error e => rfl
  | ok r =>
      cases y with
      | error e => rfl
      | ok s => rfl

theorem exists_nested {depth : Nat} {m : Nat → Run Unit} (h : ∀ inner, ∃ x, Renders (m inner) x) :
    ∃ x, Renders (Run.nested depth m) x := by
  cases depth with
  | zero => exact ⟨_, .throw .depthExceeded⟩
  | succ inner => exact h inner

/-- A step that evaluates, what depends on the value, and what comes then. -/
theorem exists_value (e : Expr) (context : Context) {f : Value → Run Unit} {m : Run Unit}
    (hf : ∀ v, ∃ x, Renders (f v) x) (h : ∃ x, Renders m x) :
    ∃ x, Renders (do Run.step .unbounded; let v ← Run.given (e.value context); f v; m) x := by
  choose g hg using hf
  obtain ⟨x, hx⟩ := h
  exact ⟨_, .value e context hg hx⟩

end Run.Renders

namespace Block

/-- Without a limit on the steps, a block makes the same progress wherever it starts, at any
depth. -/
theorem exists_renders (b : Block) (depth : Nat) (context : Context) :
    ∃ x, Run.Renders (b.run .unbounded depth context) x := by
  induction b generalizing depth context with
  | done => exact ⟨_, .empty⟩
  | raw data next ih =>
      obtain ⟨x, hnext⟩ := ih depth context
      exact ⟨_, Run.Renders.step.append ((Run.Renders.write data).append hnext)⟩
  | print e next ih =>
      have hprint : ∀ v : Value, ∃ x, Run.Renders (do
          let data ← Run.given (v.output.mapError .ofOutputFault)
          Run.write data) x :=
        fun v => ⟨_, .given Run.Renders.write⟩
      have hall := Run.Renders.exists_value e context hprint (ih depth context)
      simpa only [run, bind_assoc] using hall
  | branch e yes next ihY ih =>
      have hbranch : ∀ v : Value, ∃ x, Run.Renders
          (if v.isTrue then Run.nested depth fun inner => yes.run .unbounded inner context
            else pure ()) x := by
        intro v
        split
        · exact Run.Renders.exists_nested fun inner => ihY inner context
        · exact ⟨_, .empty⟩
      have hall := Run.Renders.exists_value e context hbranch (ih depth context)
      simpa only [run, ite_bind, pure_bind] using hall
  | branchElse e yes no next ihY ihN ih =>
      have hbranch : ∀ v : Value, ∃ x, Run.Renders
          (if v.isTrue then Run.nested depth fun inner => yes.run .unbounded inner context
            else Run.nested depth fun inner => no.run .unbounded inner context) x := by
        intro v
        split
        · exact Run.Renders.exists_nested fun inner => ihY inner context
        · exact Run.Renders.exists_nested fun inner => ihN inner context
      have hall := Run.Renders.exists_value e context hbranch (ih depth context)
      simpa only [run, ite_bind] using hall
  | loop name e body next ihB ih =>
      have hbody : ∀ x : Value, ∃ y, Run.Renders
          (Run.nested depth fun inner => body.run .unbounded inner (context.overlay name x)) y :=
        fun x => Run.Renders.exists_nested fun inner => ihB inner (context.overlay name x)
      choose g hg using hbody
      exact Run.Renders.exists_value e context (fun v => ⟨_, .forM hg v.elements⟩)
        (ih depth context)

/-- What a block writes, without a limit on the steps. -/
def output (b : Block) (context : Context) : Except RunError Bytes :=
  Run.output (b.run .unbounded Machine.maxDepth context)

theorem run_append (b b' : Block) (limits : Limits) (depth : Nat) (context : Context) :
    (b.append b').run limits depth context = (do
      b.run limits depth context
      b'.run limits depth context) := by
  induction b with
  | done => rfl
  | raw data next ih => simp only [append, run, ih, bind_assoc]
  | print e next ih => simp only [append, run, ih, bind_assoc]
  | branch e yes next _ ih => simp only [append, run, ih, bind_assoc, ite_bind]
  | branchElse e yes no next _ _ ih => simp only [append, run, ih, bind_assoc, ite_bind]
  | loop name e body next _ ih => simp only [append, run, ih, bind_assoc]

theorem output_append (b b' : Block) (context : Context) :
    (b.append b').output context =
      (do let x ← b.output context; let y ← b'.output context; return x ++ y) := by
  obtain ⟨x, hx⟩ := b.exists_renders Machine.maxDepth context
  obtain ⟨y, hy⟩ := b'.exists_renders Machine.maxDepth context
  unfold output
  rw [run_append]
  exact hx.output_append hy

theorem append_assoc (a b c : Block) : (a.append b).append c = a.append (b.append c) := by
  induction a with
  | done => rfl
  | raw data next ih => exact congrArg (raw data) ih
  | print e next ih => exact congrArg (print e) ih
  | branch e yes next _ ih => exact congrArg (branch e yes) ih
  | branchElse e yes no next _ _ ih => exact congrArg (branchElse e yes no) ih
  | loop name e body next _ ih => exact congrArg (loop name e body) ih

theorem append_done (b : Block) : b.append .done = b := by
  induction b with
  | done => rfl
  | raw data next ih => exact congrArg (raw data) ih
  | print e next ih => exact congrArg (print e) ih
  | branch e yes next _ ih => exact congrArg (branch e yes) ih
  | branchElse e yes no next _ _ ih => exact congrArg (branchElse e yes no) ih
  | loop name e body next _ ih => exact congrArg (loop name e body) ih

theorem concat_append (blocks blocks' : List Block) :
    concat (blocks ++ blocks') = (concat blocks).append (concat blocks') := by
  induction blocks with
  | nil => rfl
  | cons b blocks ih =>
      show b.append (concat (blocks ++ blocks')) =
        (b.append (concat blocks)).append (concat blocks')
      rw [ih, append_assoc]

theorem lengthsFit_append {b b' : Block} :
    (b.append b').LengthsFit ↔ b.LengthsFit ∧ b'.LengthsFit := by
  induction b with
  | done => simp [append, LengthsFit]
  | raw data next ih => simp [append, LengthsFit, ih, and_assoc]
  | print e next ih => simp [append, LengthsFit, ih]
  | branch e yes next _ ih => simp [append, LengthsFit, ih, and_assoc]
  | branchElse e yes no next _ _ ih => simp [append, LengthsFit, ih, and_assoc]
  | loop name e body next _ ih => simp [append, LengthsFit, ih, and_assoc]

/-- Text as blocks: none if it is empty. -/
def literal (text : Bytes) : List Block :=
  if text.isEmpty then [] else [.raw text .done]

theorem output_literal (text : Bytes) (context : Context) :
    (concat (literal text)).output context = .ok text := by
  cases text with
  | nil => rfl
  | cons b bs =>
      have hraw := Run.Renders.step.append ((Run.Renders.write (b :: bs)).append .empty)
      refine hraw.output.trans ?_
      show Except.ok ([] ++ (b :: bs ++ [])) = _
      rw [List.append_nil, List.nil_append]

theorem lengthsFit_literal {text : Bytes} :
    (concat (literal text)).LengthsFit ↔ text.length < Bytes.lengthBound := by
  cases text with
  | nil => exact ⟨fun _ => by decide, fun _ => trivial⟩
  | cons b bs => exact ⟨fun h => h.1, fun h => ⟨h, trivial⟩⟩

/-- A block is two others, one behind the other, but for the text at the seam, which is one
piece. -/
def Joins (whole first second : Block) : Prop :=
  ∃ front last text back, first = append front (concat (literal last)) ∧
    second = append (concat (literal text)) back ∧
      whole = append front (append (concat (literal (last ++ text))) back)

theorem Joins.lengthsFit {whole first second : Block} (h : whole.Joins first second)
    (fits : whole.LengthsFit) : first.LengthsFit ∧ second.LengthsFit := by
  obtain ⟨front, last, text, back, rfl, rfl, rfl⟩ := h
  simp only [lengthsFit_append, lengthsFit_literal, List.length_append] at fits ⊢
  obtain ⟨hfront, hseam, hback⟩ := fits
  exact ⟨⟨hfront, by omega⟩, by omega, hback⟩

theorem Joins.output {whole first second : Block} (h : whole.Joins first second)
    (context : Context) : whole.output context =
      (do let x ← first.output context; let y ← second.output context; return x ++ y) := by
  obtain ⟨front, last, text, back, rfl, rfl, rfl⟩ := h
  simp only [output_append, output_literal]
  cases front.output context with
  | error e => rfl
  | ok x =>
      cases back.output context with
      | error e => rfl
      | ok y =>
          show Except.ok (x ++ (last ++ text ++ y)) = Except.ok (x ++ last ++ (text ++ y))
          simp only [List.append_assoc]

end Block

/-! ## The second source stands alone -/

theorem Table.mem_keys_of_find? {κ α : Type} [DecidableEq κ] {t : Table κ α} {key : κ} {value : α}
    (h : t.find? key = some value) : key ∈ t.keys := by
  induction t with
  | nil => cases h
  | cons entry rest ih =>
      simp only [find?] at h
      split at h
      next heq => exact heq ▸ List.mem_cons_self
      next => exact List.mem_cons_of_mem _ (ih h)

namespace Reading

open SourceReader

/-- No tag has a name that begins with a pound sign. -/
theorem readTag_pound {scope : Option Bytes} {c : Cursor} {more : Bytes}
    (hc : c.rest = Sign.pound :: more) : ∃ e c', readTag builtinTags scope c = .error e c' := by
  have hnone : ∀ name ∈ builtinTags.keys, name.head? ≠ some Sign.pound := by decide +kernel
  cases hread : readTag builtinTags scope c with
  | error e c' => exact ⟨e, c', rfl⟩
  | ok piece c' =>
      obtain ⟨name, c₁, hname, hrest⟩ := Reader.bind_eq_ok hread
      have hhead : name.head? = some Sign.pound := by
        have hsplit := (readTagName_eq_ok hname).1
        rw [hc] at hsplit
        cases name with
        | nil => cases (List.cons.inj hsplit).1
        | cons b name => rw [List.head?_cons, (List.cons.inj hsplit).1]
      cases htag : builtinTags.find? name with
      | none =>
          simp only [htag] at hrest
          cases hrest
      | some tag => exact absurd hhead (hnone name (Table.mem_keys_of_find? htag))

/-- A source that is read without a fault begins with no clause. -/
theorem standsAlone_of_sound {scope : Option Bytes} {text : Bytes}
    (hsound : (ofBytes builtinTags scope text).fault = none)
    (hbody : (text.dropWhile Bytes.isBlank).head? ≠ some Sign.braceOpen) : StandsAlone text := by
  refine ⟨hbody, ?_⟩
  rintro ⟨more, hmore⟩
  let blanks := text.takeWhile Bytes.isBlank
  have hsplit : text = blanks ++ Sign.pound :: Sign.pound :: more := by
    show text = blanks ++ (clauseSign ++ more)
    rw [hmore, List.takeWhile_append_dropWhile]
  have hblank : ∀ b ∈ blanks, b ≠ Sign.pound := by
    rintro _ hb rfl
    cases List.all_eq_true.1 List.all_takeWhile _ hb
  have htake : (Cursor.ofBytes text).rest.takeWhile (· != Sign.pound) = blanks := by
    show text.takeWhile _ = blanks
    rw [hsplit]
    refine takeWhile_ne_pound hblank ?_
    rintro _ ⟨⟩
    rfl
  have hnext : ((Cursor.ofBytes text).forward blanks.length).rest =
      Sign.pound :: Sign.pound :: more := by
    show text.drop blanks.length = _
    exact (congrArg (List.drop blanks.length) hsplit).trans List.drop_left
  unfold ofBytes at hsound
  cases hplain : blanks.findIdx? (· == Opcode.stop) with
  | some index =>
      rw [Scope.ofCursor_nul htake hplain] at hsound
      cases hsound
  | none =>
      have hpast : (((Cursor.ofBytes text).forward blanks.length).past hnext).rest =
          Sign.pound :: more := rfl
      obtain ⟨e, c', hread⟩ := readTag_pound hpast
      rw [Scope.ofCursor_error htake hplain hnext hread] at hsound
      cases hsound

end Reading

/-! ## Two sources, one table -/

/-- No key is in both tables. -/
def Table.NoneShared (t u : Table String Bytes) : Prop :=
  ∀ key, t.has key = true → u.has key = false

theorem Table.NoneShared.mono {t t' u u' : Table String Bytes} (h : t'.NoneShared u')
    (ht : ∀ key, t.has key = true → t'.has key = true)
    (hu : ∀ key, u.has key = true → u'.has key = true) : t.NoneShared u := by
  intro key hkey
  cases hother : u.has key with
  | false => rfl
  | true =>
      have hnone := h key (ht key hkey)
      rw [hu key hother] at hnone
      cases hnone

theorem Table.NoneShared.symm {t u : Table String Bytes} (h : t.NoneShared u) : u.NoneShared t := by
  intro key hkey
  cases hother : t.has key with
  | false => rfl
  | true =>
      rw [h key hother] at hkey
      cases hkey

/-- The second table has what the first has, and otherwise what the others have. -/
def Adds (others E G : Table String Bytes) : Prop :=
  ∀ name, G.find? name = (E.find? name).or (others.find? name)

/-- Tables that share no key add to each other alike. -/
theorem Adds.symm {others E G : Table String Bytes} (h : Adds others E G)
    (hnone : E.NoneShared others) : Adds E others G := by
  intro name
  rw [h name]
  have hname := hnone name
  unfold Table.has at hname
  cases hE : E.find? name with
  | none => rw [Option.none_or, Option.or_none]
  | some body =>
      rw [hE] at hname
      have hothers : others.find? name = none :=
        Option.not_isSome_iff_eq_none.1 (Bool.not_eq_true _ ▸ hname rfl)
      rw [hothers, Option.none_or, Option.or_none]

/-- Further exports do not get in the way of what is compiled without them. -/
theorem keeps_adds (others : Table String Bytes) : Keeps (Adds others) .any where
  found := by
    intro E G h name body hfind
    rw [h name, hfind, Option.some_or]
  missing := fun _ _ _ _ _ => ⟨trivial, .inl trivial⟩
  insert := by
    intro E G h name body other
    by_cases hother : other = name
    · rw [hother, Table.find?_insert_self, Table.find?_insert_self, Option.some_or]
    · rw [Table.find?_insert_ne _ _ hother, Table.find?_insert_ne _ _ hother, h]
  other := fun _ _ => trivial

namespace CompileM.Keeping

variable {α : Type} {m : CompileM α} {b : CompileState} {E E' : Table String Bytes} {a : α}

/-- What succeeds has come to further exports, and to nothing else. -/
theorem grows (h : m.Keeping) {s' : CompileState} (hm : m (b.withExports E) = .ok a s') :
    ∃ E', s' = b.withExports E' ∧ ∀ name, E.has name = true → E'.has name = true := by
  have hrestored := h.restores.ok _ a s' hm
  obtain ⟨exports, scope, including, importing⟩ := s'
  obtain ⟨rfl, rfl, rfl, hexports⟩ := hrestored
  exact ⟨exports, rfl, hexports⟩

/-- What succeeds does so where others have exported more. -/
theorem adds (h : m.Keeping) (hm : m (b.withExports E) = .ok a (b.withExports E'))
    {others G : Table String Bytes} (hG : Adds others E G) :
    ∃ G', m (b.withExports G) = .ok a (b.withExports G') ∧ Adds others E' G' := by
  obtain ⟨-, t', hm', hst⟩ := (h _ _ (keeps_adds others) b).ok (.intro hG) hm
  generalize hs : b.withExports E' = s' at hst
  obtain @⟨E₁, G', hG'⟩ := hst
  have hexports := congrArg CompileState.exports hs
  obtain rfl : E' = E₁ := hexports
  exact ⟨G', hm', hG'⟩

end CompileM.Keeping

/-! ## The two passes over two sources -/

section MapM

variable {ε σ α β : Type} {f : α → EStateM ε σ β} {x : α} {xs ys : List α} {zs : List β}
  {s s₂ : σ}

theorem mapM_cons_eq_ok : (x :: xs).mapM f s = .ok zs s₂ ↔
    ∃ b bs s₁, f x s = .ok b s₁ ∧ xs.mapM f s₁ = .ok bs s₂ ∧ zs = b :: bs := by
  constructor
  · intro h
    rw [List.mapM_cons] at h
    simp only [Bind.bind, EStateM.bind] at h
    split at h
    next b s₁ hx =>
      split at h
      next bs s₂ hxs =>
        cases h
        exact ⟨b, bs, s₁, hx, hxs, rfl⟩
      next => cases h
    next => cases h
  · rintro ⟨b, bs, s₁, hx, hxs, rfl⟩
    exact mapM_cons_of_ok hx hxs

theorem mapM_append_eq_ok : (xs ++ ys).mapM f s = .ok zs s₂ ↔
    ∃ as bs s₁, xs.mapM f s = .ok as s₁ ∧ ys.mapM f s₁ = .ok bs s₂ ∧ zs = as ++ bs := by
  induction xs generalizing s zs with
  | nil =>
      constructor
      · exact fun h => ⟨[], zs, s, rfl, h, rfl⟩
      · rintro ⟨_, bs, _, ⟨⟩, hys, rfl⟩
        exact hys
  | cons x xs ih =>
      rw [List.cons_append, mapM_cons_eq_ok]
      constructor
      · rintro ⟨b, _, s₁, hx, hrest, rfl⟩
        obtain ⟨as, bs, s₂, hxs, hys, rfl⟩ := ih.1 hrest
        exact ⟨b :: as, bs, s₂, mapM_cons_of_ok hx hxs, hys, rfl⟩
      · rintro ⟨_, bs, s₂, hall, hys, rfl⟩
        obtain ⟨b, as, s₁, hx, hxs, rfl⟩ := mapM_cons_eq_ok.1 hall
        exact ⟨b, as ++ bs, s₁, hx, ih.2 ⟨as, bs, s₂, hxs, hys, rfl⟩, rfl⟩

end MapM

namespace Compiler

section Passes

variable (compiler : Compiler) (path : String)

/-- The first pass over pieces. -/
def firstPass (pieces : List Piece) : CompileM (List Action) :=
  pieces.mapM (Action.ofPiece (compiler.nestedWith compiler.blockOf) compiler.extension path)

/-- The second pass over what a first has left. -/
def secondPass (actions : List Action) : CompileM (List Block) :=
  actions.mapM (Action.resolve (compiler.nestedWith compiler.blockOf))

theorem keeping_firstPass (pieces : List Piece) : (compiler.firstPass path pieces).Keeping := by
  intro X F keeps b
  refine .imp (.mapM_fact (V := fun _ => True) ?_) fun _ _ => trivial
  exact fun piece _ => keeps.couples_ofPiece compiler path b piece

theorem keeping_secondPass (actions : List Action) : (compiler.secondPass actions).Keeping := by
  intro X F keeps b
  refine .imp (.mapM_fact (V := fun _ => True) ?_) fun _ _ => trivial
  exact fun action _ => keeps.couples_resolve compiler b action

variable {compiler path} {source : Bytes} {pieces : List Piece} {s s' : CompileState}

/-- What is emitted goes through both passes as it is. -/
theorem firstPass_emits (codes : List Block) :
    compiler.firstPass path (codes.map .emit) s = .ok (codes.map .emit) s := by
  induction codes with
  | nil => rfl
  | cons code codes ih => exact mapM_cons_of_ok rfl ih

theorem secondPass_emits (codes : List Block) :
    compiler.secondPass (codes.map .emit) s = .ok codes s :=
  mapM_resolve_emits codes

/-- A source compiles exactly if both passes succeed. -/
theorem blockOf_eq_ok (h : Reading.ofBytes compiler.tags s.scope source = ⟨pieces, none⟩)
    {b : Block} : compiler.blockOf source path s = .ok b s' ↔
      ∃ actions s₁ blocks, compiler.firstPass path pieces s = .ok actions s₁ ∧
        compiler.secondPass actions s₁ = .ok blocks s' ∧ b = Block.concat blocks := by
  have hscan : Action.scan (compiler.nestedWith compiler.blockOf) compiler.tags
      compiler.extension source path s = compiler.firstPass path pieces s :=
    Action.scan_of_reading h
  rw [blockOf_eq_passes]
  unfold passes
  simp only [Bind.bind, EStateM.bind, hscan, Functor.map, EStateM.map]
  constructor
  · intro hb
    split at hb
    next actions s₁ hfirst =>
      split at hb
      next blocks s₂ hsecond =>
        cases hb
        exact ⟨actions, s₁, blocks, hfirst, hsecond, rfl⟩
      next => cases hb
    next => cases hb
  · rintro ⟨actions, s₁, blocks, hfirst, hsecond, rfl⟩
    unfold secondPass at hsecond
    simp only [hfirst, hsecond]

/-- A source that compiles is read without a fault. -/
theorem fault_eq_none_of_blockOf {b : Block} (h : compiler.blockOf source path s = .ok b s') :
    (Reading.ofBytes compiler.tags s.scope source).fault = none := by
  rw [blockOf_eq_passes] at h
  unfold passes at h
  simp only [Bind.bind, EStateM.bind] at h
  split at h
  next hscan => exact Action.fault_eq_none_of_scan hscan
  next => cases h

/-- Pieces that compile alone compile one behind the other, if no name is exported by both:
each pass over the second goes on where that over the first has ended. -/
theorem passes_append {front back : List Piece} {actions actions' : List Action}
    {blocks blocks' : List Block} {b s₁ s₂ t₁ t₂ : CompileState}
    (hfront : compiler.firstPass path front b = .ok actions s₁)
    (hfront' : compiler.secondPass actions s₁ = .ok blocks s₂)
    (hback : compiler.firstPass path back b = .ok actions' t₁)
    (hback' : compiler.secondPass actions' t₁ = .ok blocks' t₂)
    (hempty : b.exports = []) (hnone : s₂.exports.NoneShared t₂.exports) :
    ∃ u₁ u₂, compiler.firstPass path (front ++ back) b = .ok (actions ++ actions') u₁ ∧
      compiler.secondPass (actions ++ actions') u₁ = .ok (blocks ++ blocks') u₂ := by
  have keepsFront := compiler.keeping_firstPass path front
  have keepsBack := compiler.keeping_firstPass path back
  have keepsActions := compiler.keeping_secondPass actions
  have keepsActions' := compiler.keeping_secondPass actions'
  rw [show b = b.withExports b.exports from rfl] at hfront hback
  obtain ⟨E₁, rfl, -⟩ := keepsFront.grows hfront
  obtain ⟨E₂, rfl, hE⟩ := keepsActions.grows hfront'
  obtain ⟨G₁, rfl, -⟩ := keepsBack.grows hback
  obtain ⟨G₂, rfl, hG⟩ := keepsActions'.grows hback'
  -- The first pass over the second source finds what the first source has exported in its own.
  have hadds : Adds E₁ b.exports E₁ := by
    intro name
    rw [hempty]
    rfl
  obtain ⟨T₁, hback₁, hT₁⟩ := keepsBack.adds hback hadds
  -- The second pass over the first source finds what the second has exported in its first.
  obtain ⟨T₂, hfront₂, hT₂⟩ :=
    keepsActions.adds hfront' (hT₁.symm (hnone.symm.mono hG hE))
  obtain ⟨T₃, hback₂, -⟩ := keepsActions'.adds hback' (hT₂.symm (hnone.mono (fun _ => id) hG))
  refine ⟨b.withExports T₁, b.withExports T₃, ?_, ?_⟩
  · exact mapM_append_eq_ok.2 ⟨_, _, _, hfront, hback₁, rfl⟩
  · exact mapM_append_eq_ok.2 ⟨_, _, _, hfront₂, hback₂, rfl⟩

end Passes

theorem literalPieces_eq (text : Bytes) :
    Reading.literalPieces text = (Block.literal text).map .emit := by
  unfold Reading.literalPieces Block.literal
  split
  · rfl
  · rfl

variable {store : Store} {extension path : String} {first second : Bytes} {b b' : Block}
  {s s' : CompileState}

/-- Two sources that compile, and export no name both, compile one behind the other. -/
theorem blockOf_append (hfirst : (usual store extension).blockOf first path .fresh = .ok b s)
    (hsecond : (usual store extension).blockOf second path .fresh = .ok b' s')
    (hnone : s.exports.NoneShared s'.exports)
    (hbody : (second.dropWhile Bytes.isBlank).head? ≠ some Sign.braceOpen) :
    ∃ whole u, (usual store extension).blockOf (first ++ second) path .fresh = .ok whole u ∧
      whole.Joins b b' := by
  have hsound := fault_eq_none_of_blockOf hsecond
  obtain ⟨front, last, text, back, hread, hread', hwhole⟩ := Reading.ofBytes_append
    (fault_eq_none_of_blockOf hfirst) hsound (Reading.standsAlone_of_sound hsound hbody)
  simp only [literalPieces_eq] at hread hread' hwhole
  -- The first source without the text at its end, and the second without that at its beginning.
  obtain ⟨_, s₁, _, hpass, hpass₂, rfl⟩ := (blockOf_eq_ok hread).1 hfirst
  obtain ⟨actions, _, _, hfront, hemit, rfl⟩ := mapM_append_eq_ok.1 hpass
  cases (firstPass_emits _).symm.trans hemit
  obtain ⟨blocks, _, _, hfront₂, hemit₂, rfl⟩ := mapM_append_eq_ok.1 hpass₂
  cases (secondPass_emits _).symm.trans hemit₂
  obtain ⟨_, t₁, _, hpass', hpass₂', rfl⟩ := (blockOf_eq_ok hread').1 hsecond
  obtain ⟨_, actions', _, hemit', hback, rfl⟩ := mapM_append_eq_ok.1 hpass'
  cases (firstPass_emits _).symm.trans hemit'
  obtain ⟨_, blocks', _, hemit₂', hback₂, rfl⟩ := mapM_append_eq_ok.1 hpass₂'
  cases (secondPass_emits _).symm.trans hemit₂'
  -- The text at the seam is emitted between them.
  let seam := Block.literal (last ++ text)
  have hseam := mapM_append_eq_ok.2 ⟨_, _, _, hfront, firstPass_emits seam, rfl⟩
  have hseam₂ := mapM_append_eq_ok.2 ⟨_, _, _, hfront₂, secondPass_emits seam, rfl⟩
  obtain ⟨u₁, u₂, hall, hall₂⟩ := passes_append hseam hseam₂ hback hback₂ rfl hnone
  rw [List.append_assoc front] at hall
  refine ⟨_, u₂, (blockOf_eq_ok hwhole).2 ⟨_, u₁, _, hall, hall₂, rfl⟩, ?_⟩
  refine ⟨Block.concat blocks, last, text, Block.concat blocks', ?_, ?_, ?_⟩
  · exact Block.concat_append _ _
  · exact Block.concat_append _ _
  · rw [Block.concat_append, Block.concat_append, Block.append_assoc]

/-- The code of a block without a zero byte in its raw bytes runs as the block does. -/
theorem run_code (hb : b.WellFormed) (fits : b.LengthsFit) (context : Context) :
    Machine.run .unbounded b.code context = b.output context := by
  rw [b.code_eq_encode]
  exact Machine.run_encode hb.legible fits context

/-- Rendering is compositional: two sources that compile, and export no name both, compile one
behind the other, unless the second begins with a brace; and the whole renders to what the
first does and then what the second does, or fails as the first of them that fails. -/
theorem compileSource_append {t t' : Template}
    (hfirst : (usual store extension).compileSource first path .fresh = .ok t s)
    (hsecond : (usual store extension).compileSource second path .fresh = .ok t' s')
    (hnone : s.exports.NoneShared s'.exports)
    (hbody : (second.dropWhile Bytes.isBlank).head? ≠ some Sign.braceOpen)
    (fits : (usual store extension).LengthsFit (first ++ second) path .fresh) :
    ∃ whole u, (usual store extension).compileSource (first ++ second) path .fresh = .ok whole u ∧
      ∀ context, Machine.run .unbounded whole.code context = (do
        let x ← Machine.run .unbounded t.code context
        let y ← Machine.run .unbounded t'.code context
        return x ++ y) := by
  obtain ⟨b, hblock, rfl⟩ := compileSource_eq_ok.1 hfirst
  obtain ⟨b', hblock', rfl⟩ := compileSource_eq_ok.1 hsecond
  obtain ⟨whole, u, hwhole, hjoins⟩ := blockOf_append hblock hblock' hnone hbody
  have hfits := fits whole u hwhole
  obtain ⟨hfit, hfit'⟩ := hjoins.lengthsFit hfits
  refine ⟨⟨whole.code⟩, u, compileSource_eq_ok.2 ⟨whole, hwhole, rfl⟩, ?_⟩
  intro context
  have hwell := fun source => (usual store extension).compileBlock_ensures
    ((usual store extension).levels source .fresh) source path .fresh
  rw [run_code (hwell _ _ _ hwhole) hfits, run_code (hwell _ _ _ hblock) hfit,
    run_code (hwell _ _ _ hblock') hfit']
  exact hjoins.output context

/-- A body that is exported and imported, and the beginning of a text. -/
def opening : Bytes := Utf8.encode "#export(\"n\") \x7bx\x7d#import(\"n\"), "

/-- The end of a text, with a value in it. -/
def closing : Bytes := Utf8.encode "or #(y)"

theorem lengthsFit_opening_closing : plain.LengthsFit (opening ++ closing) "" .fresh := by
  have hblock : plain.blockOf (opening ++ closing) "" .fresh =
      .ok (.raw [120] (.raw [44, 32, 111, 114, 32] (.print (.path ["y"]) .done)))
        (CompileState.fresh.withExports [("n", [120])]) := by
    decide +kernel
  intro b s hb
  cases hblock.symm.trans hb
  decide +kernel

theorem compileSource_append_opening_closing :
    plain.LengthsFit (opening ++ closing) "" .fresh ∧
      ∃ whole u, plain.compileSource (opening ++ closing) "" .fresh = .ok whole u ∧
        ∀ context, Machine.run .unbounded whole.code context = (do
          let x ← Machine.run .unbounded [1, 1, 0, 0, 0, 120, 1, 2, 0, 0, 0, 44, 32, 0] context
          let y ← Machine.run .unbounded
            [1, 3, 0, 0, 0, 111, 114, 32, 2, 3, 1, 121, 0, 0, 0] context
          return x ++ y) := by
  have hopening : plain.compileSource opening "" .fresh =
      .ok ⟨[1, 1, 0, 0, 0, 120, 1, 2, 0, 0, 0, 44, 32, 0]⟩
        (CompileState.fresh.withExports [("n", [120])]) := by
    decide +kernel
  have hclosing : plain.compileSource closing "" .fresh =
      .ok ⟨[1, 3, 0, 0, 0, 111, 114, 32, 2, 3, 1, 121, 0, 0, 0]⟩ .fresh := by
    decide +kernel
  have hbody : (closing.dropWhile Bytes.isBlank).head? ≠ some Sign.braceOpen := by decide +kernel
  have hall := compileSource_append hopening hclosing (fun _ _ => rfl) hbody
    lengthsFit_opening_closing
  exact ⟨lengthsFit_opening_closing, hall⟩

end Compiler

end Stencil
