/-
# `Stencil.Proofs.Exporting` — where an export stands, and what an import sees

The first pass over a source keeps what is exported, and the second resolves what is
imported.  So it does not matter where an export stands in a source, next to its imports
and to other tags.  That is true of the exports of the source itself, and of the files
that it embeds.

It is not true of the exports in the bodies of other tags, in imported bodies and in
extended files.  Those are met in the second pass, which goes through the source in
order, and an import that comes before them does not find them.

That a name is exported is kept by whole compilations, and so is it that two tables give the
same under every name (`Keeps`), which makes the order of exports irrelevant.

**Proved here**, for every store, extension and directory, with the usual tags:

    an import in front of a source does not find its name
      exactly if the first pass does not export it     (`Compiler.compileSource_importTag_iff`)
    exports of new names may stand in front of a source
      or behind it                                     (`Compiler.compileSource_exportTags`)
-/
import Mathlib.Data.List.Infix
import Stencil.Proofs.Keeping
import Stencil.Proofs.Seam

namespace Stencil

open EStateM (Result)

/-! ## Spelling of tags -/

/-- What follows the pound sign of a tag that has a string for its argument. -/
def tagCall (tag name : String) : Bytes :=
  Utf8.encode tag ++ [Sign.parenOpen] ++
    (Sign.quote :: Utf8.encode name ++ [Sign.quote] ++ [Sign.parenClose])

/-- `#import("name")`. -/
def importTag (name : String) : Bytes := Sign.pound :: tagCall "import" name

/-- `#export("name") {body}`. -/
def exportTag (name : String) (body : Bytes) : Bytes :=
  Sign.pound :: (tagCall "export" name ++
    (0x20 :: Sign.braceOpen :: (body ++ [Sign.braceClose])))

example : exportTag "n" (Utf8.encode "hi") = Utf8.encode "#export(\"n\") \x7bhi\x7d" := by
  decide +kernel

/-- Exports, one after the other. -/
def exportTags (exported : List (String × Bytes)) : Bytes :=
  exported.flatMap fun e => exportTag e.1 e.2

/-- As many braces close as open, and none closes before it has opened. -/
def Balanced (body : Bytes) : Prop :=
  body.count Sign.braceOpen = body.count Sign.braceClose ∧
    ∀ front, front <+: body → front.count Sign.braceClose ≤ front.count Sign.braceOpen

instance decidableBalanced (body : Bytes) : Decidable (Balanced body) :=
  decidable_of_iff (body.count Sign.braceOpen = body.count Sign.braceClose ∧
    ∀ front ∈ body.inits, front.count Sign.braceClose ≤ front.count Sign.braceOpen) (by
      simp only [Balanced, List.mem_inits])

theorem balanced_of_none {body : Bytes} (hopen : Sign.braceOpen ∉ body)
    (hclose : Sign.braceClose ∉ body) : Balanced body := by
  refine ⟨by rw [List.count_eq_zero.2 hopen, List.count_eq_zero.2 hclose], ?_⟩
  intro front hfront
  rw [List.count_eq_zero.2 fun hmem => hclose (hfront.mem hmem)]
  exact Nat.zero_le _

theorem Balanced.append {x y : Bytes} (hx : Balanced x) (hy : Balanced y) : Balanced (x ++ y) := by
  refine ⟨by rw [List.count_append, List.count_append, hx.1, hy.1], ?_⟩
  intro front hfront
  rcases List.prefix_or_prefix_of_prefix hfront (List.prefix_append x y) with hwithin | ⟨more, rfl⟩
  · exact hx.2 front hwithin
  · have hmore := hy.2 more ((List.prefix_append_right_inj x).1 hfront)
    rw [List.count_append, List.count_append, hx.1]
    omega

/-- Braces around a body in which they are balanced. -/
theorem Balanced.braced {body : Bytes} (h : Balanced body) :
    Balanced (Sign.braceOpen :: (body ++ [Sign.braceClose])) := by
  have hne : Sign.braceOpen ≠ Sign.braceClose := by decide
  have hcount := h.1
  constructor
  · simp only [List.count_cons_self, List.count_cons_of_ne hne, List.count_append,
      List.count_cons_of_ne hne.symm, List.count_nil]
    omega
  · intro front hfront
    cases front with
    | nil => exact Nat.le_refl _
    | cons b front =>
        obtain ⟨rfl, hbody⟩ := List.cons_prefix_cons.1 hfront
        rw [List.count_cons_self, List.count_cons_of_ne hne]
        rcases List.prefix_concat_iff.1 hbody with rfl | hwithin
        · simp only [List.count_append, List.count_cons_self, List.count_nil]
          omega
        · have := h.2 front hwithin
          omega

/-- A body of which all braces are closed ends at the next brace that closes. -/
theorem closingIndex?_of_closed {body : Bytes} (after : Bytes) (depth count : Nat)
    (htotal : depth + body.count Sign.braceOpen = body.count Sign.braceClose)
    (hfront : ∀ front, front <+: body →
      front.count Sign.braceClose ≤ depth + front.count Sign.braceOpen) :
    SourceReader.closingIndex? true depth count (body ++ Sign.braceClose :: after) =
      some (count + body.length) := by
  induction body generalizing depth count with
  | nil =>
      obtain rfl : depth = 0 := htotal
      rfl
  | cons b body ih =>
      have hrest : ∀ front, front <+: body →
          (b :: front).count Sign.braceClose ≤ depth + (b :: front).count Sign.braceOpen :=
        fun front hprefix => hfront (b :: front) (List.cons_prefix_cons.2 ⟨rfl, hprefix⟩)
      rw [List.cons_append, SourceReader.closingIndex?_cons, List.length_cons,
        Nat.add_comm body.length 1, ← Nat.add_assoc]
      by_cases hopen : b = Sign.braceOpen
      · subst hopen
        have hne : (Sign.braceOpen == Sign.braceClose) = false := rfl
        simp only [List.count_cons, beq_self_eq_true, hne, if_true, Bool.false_eq_true,
          if_false] at htotal hrest
        refine ih (depth + 1) (count + 1) (by omega) fun front hprefix => ?_
        have := hrest front hprefix
        omega
      · have hopen' : (b == Sign.braceOpen) = false := beq_eq_false_iff_ne.2 hopen
        rw [hopen', Bool.false_and, if_neg Bool.false_ne_true]
        by_cases hclose : b = Sign.braceClose
        · subst hclose
          simp only [List.count_cons, beq_self_eq_true, hopen', if_true, Bool.false_eq_true,
            if_false] at htotal hrest
          rw [if_pos rfl]
          cases depth with
          | zero =>
              have := hrest [] List.nil_prefix
              simp at this
          | succ depth =>
              refine ih depth (count + 1) (by omega) fun front hprefix => ?_
              have := hrest front hprefix
              omega
        · have hclose' : (b == Sign.braceClose) = false := beq_eq_false_iff_ne.2 hclose
          simp only [List.count_cons, hopen', hclose', Bool.false_eq_true, if_false] at htotal hrest
          rw [if_neg hclose]
          exact ih depth (count + 1) htotal hrest

/-- The body of a tag in which the braces are balanced is read as it stands. -/
theorem Balanced.closingIndex? {body : Bytes} (h : Balanced body) (after : Bytes) :
    SourceReader.closingIndex? true 0 0 (body ++ Sign.braceClose :: after) = some body.length := by
  have hclosed := closingIndex?_of_closed after 0 0 (by rw [Nat.zero_add]; exact h.1)
    fun front hfront => Nat.le_trans (h.2 front hfront) (Nat.le_add_left _ _)
  rwa [Nat.zero_add] at hclosed

/-- `{body}`, behind a blank. -/
def braced (body : Bytes) : Bytes := 0x20 :: Sign.braceOpen :: (body ++ [Sign.braceClose])

theorem balanced_braced {body : Bytes} (h : Balanced body) : Balanced (braced body) := by
  have hblank : Balanced [0x20] := balanced_of_none (by decide) (by decide)
  exact hblank.append h.braced

theorem SourceReader.gives_braced {body : Bytes} (h : Balanced body) (after : Bytes) :
    Gives (readBody true) (braced body) after body := by
  have hblank : ∀ b ∈ ([0x20] : Bytes), Bytes.isBlank b = true := by decide +kernel
  exact gives_readBody hblank after (h.closingIndex? after)

/-! ## Reading the tags -/

namespace Reading

variable {scope : Option Bytes} {name : String}

theorem through_importTag (hname : Sign.quote ∉ Utf8.encode name) (after : Bytes) :
    Through builtinTags scope (importTag name) after [.importBody name] := by
  have hplain : ∀ b ∈ Utf8.encode "import", Bytes.isBlank b = false ∧ b ≠ Sign.parenOpen := by
    decide +kernel
  have htag : builtinTags.find? (Utf8.encode "import") = some .importBody := by decide +kernel
  refine .tag (SourceReader.gives_readTag .importBody hplain htag ?_)
  exact (SourceReader.gives_readStringArgument hname after).map

theorem through_exportTag {body : Bytes} (hname : Sign.quote ∉ Utf8.encode name)
    (hbody : Balanced body) (after : Bytes) :
    Through builtinTags scope (exportTag name body) after [.exportBody name body] := by
  have hplain : ∀ b ∈ Utf8.encode "export", Bytes.isBlank b = false ∧ b ≠ Sign.parenOpen := by
    decide +kernel
  have htag : builtinTags.find? (Utf8.encode "export") = some .exportBody := by decide +kernel
  have hread : SourceReader.Gives (SourceReader.readTagRest scope .exportBody)
      (Sign.quote :: Utf8.encode name ++ [Sign.quote] ++ [Sign.parenClose] ++
        ([0x20] ++ Sign.braceOpen :: (body ++ [Sign.braceClose]) ++ [])) after
      (.exportBody name body) := by
    refine (SourceReader.gives_readStringArgument hname _).bind ?_
    exact (SourceReader.gives_braced hbody _).bind .pure
  refine .tag ?_
  rw [List.append_nil] at hread
  unfold tagCall
  rw [List.append_assoc]
  exact SourceReader.gives_readTag .exportBody hplain htag hread

theorem through_exportTags {exported : List (String × Bytes)}
    (h : ∀ e ∈ exported, Sign.quote ∉ Utf8.encode e.1 ∧ Balanced e.2) (after : Bytes) :
    Through builtinTags scope (exportTags exported) after
      (exported.map fun e => .exportBody e.1 e.2) := by
  induction exported with
  | nil => exact .nil
  | cons e exported ih =>
      obtain ⟨hname, hbody⟩ := h e List.mem_cons_self
      have hrest := ih fun e he => h e (List.mem_cons_of_mem _ he)
      exact (through_exportTag hname hbody _).append hrest

theorem startsTag_exportTags (exported : List (String × Bytes)) :
    StartsTag (exportTags exported) := by
  cases exported with
  | nil => exact .inl rfl
  | cons e exported =>
      refine .inr ⟨_, rfl, ?_⟩
      show some _ ≠ some Sign.pound
      decide

end Reading

/-! ## The first pass -/

section MapM

variable {ε σ α β : Type} {f : α → EStateM ε σ β} {x : α} {y : β} {xs : List α} {ys : List β}
  {e : ε} {s s₁ s₂ : σ}

theorem mapM_cons_of_ok (hx : f x s = .ok y s₁) (hxs : xs.mapM f s₁ = .ok ys s₂) :
    (x :: xs).mapM f s = .ok (y :: ys) s₂ := by
  rw [List.mapM_cons]
  simp only [Bind.bind, EStateM.bind, hx, hxs]
  rfl

theorem mapM_cons_of_error (hx : f x s = .error e s₁) : (x :: xs).mapM f s = .error e s₁ := by
  rw [List.mapM_cons]
  simp only [Bind.bind, EStateM.bind, hx]

end MapM

namespace Action

variable {nested : Nested} {tags : TagTable} {extension path : String} {source : Bytes}
  {s s' : CompileState}

theorem scan_eq {reading : Reading} (h : Reading.ofBytes tags s.scope source = reading) :
    scan nested tags extension source path s =
      (do
        let actions ← reading.pieces.mapM (ofPiece nested extension path)
        match reading.fault with
        | some e => throw e
        | none => pure actions : CompileM (List Action)) s := by
  subst h
  rfl

/-- A source that is read without a fault is scanned piece by piece. -/
theorem scan_of_reading {pieces : List Piece}
    (h : Reading.ofBytes tags s.scope source = ⟨pieces, none⟩) :
    scan nested tags extension source path s =
      pieces.mapM (ofPiece nested extension path) s :=
  (scan_eq h).trans (congrFun (bind_pure _) s)

/-- A source that is scanned is read without a fault. -/
theorem fault_eq_none_of_scan {actions : List Action}
    (h : scan nested tags extension source path s = .ok actions s') :
    (Reading.ofBytes tags s.scope source).fault = none := by
  rw [scan_eq rfl] at h
  cases hfault : (Reading.ofBytes tags s.scope source).fault with
  | none => rfl
  | some e =>
      simp only [hfault, Bind.bind, EStateM.bind] at h
      split at h <;> cases h

end Action

namespace Compiler

/-- A compiler with the usual tags. -/
abbrev usual (store : Store) (extension : String) : Compiler := ⟨store, builtinTags, extension⟩

section Reading

variable {compiler : Compiler} {source : Bytes} {path : String} {pieces : List Piece}
  {actions : List Action} {s s' : CompileState}

/-- The second pass over the actions of a first. -/
def resolveAll (compiler : Compiler) (actions : List Action) : CompileM Block :=
  Block.concat <$> actions.mapM (Action.resolve (compiler.nestedWith compiler.blockOf))

theorem couples_resolveAll {X : Table String Bytes → Table String Bytes → Prop}
    {F : Faults CompileError} (keeps : Keeps X F) (compiler : Compiler) (b : CompileState)
    (actions : List Action) :
    Couples (b.At X) F (fun _ => True) (compiler.resolveAll actions)
      (compiler.resolveAll actions) := by
  refine .map (.imp (.mapM_fact (V := fun _ => True) ?_) fun _ _ => trivial)
  exact fun action _ => keeps.couples_resolve compiler b action

theorem scanSource_of_reading (h : Reading.ofBytes compiler.tags s.scope source = ⟨pieces, none⟩) :
    compiler.scanSource source path s =
      pieces.mapM (Action.ofPiece (compiler.nestedWith compiler.blockOf) compiler.extension path)
        s := by
  rw [scanSource_eq_scan, Action.scan_of_reading h]

theorem reading_of_scanSource (h : compiler.scanSource source path s = .ok actions s') :
    Reading.ofBytes compiler.tags s.scope source =
      ⟨(Reading.ofBytes compiler.tags s.scope source).pieces, none⟩ := by
  rw [scanSource_eq_scan] at h
  exact congrArg (Reading.mk _) (Action.fault_eq_none_of_scan h)

/-- Compilation goes on from where the first pass has come to. -/
theorem blockOf_of_scanSource (h : compiler.scanSource source path s = .ok actions s') :
    compiler.blockOf source path s = compiler.resolveAll actions s' := by
  rw [scanSource_eq_scan] at h
  rw [blockOf_eq_passes]
  simp only [passes, Bind.bind, EStateM.bind, h]
  rfl

end Reading

/-! ## An import in front -/

variable {store : Store} {extension path name : String} {source : Bytes} {actions : List Action}
  {s : CompileState}

theorem scanSource_importTag (hname : Sign.quote ∉ Utf8.encode name)
    (hscan : (usual store extension).scanSource source path .fresh = .ok actions s) :
    (usual store extension).scanSource (importTag name ++ source) path .fresh =
      .ok (.defer path none (.importBody name) :: actions) s := by
  have hread := reading_of_scanSource hscan
  have hsource : Reading.Through builtinTags none source [] _ :=
    .source (congrArg Reading.fault hread) (.inl rfl)
  have hthrough := (Reading.through_importTag hname (source ++ [])).append hsource
  rw [scanSource_of_reading hread] at hscan
  rw [scanSource_of_reading hthrough.ofBytes_eq, List.singleton_append]
  exact mapM_cons_of_ok rfl hscan

/-- An import in front of a source fails to find its name exactly if the first pass over
the source does not export it.  That the source exports it later, in the body of another
tag, does not help. -/
theorem compileSource_importTag_iff (hname : Sign.quote ∉ Utf8.encode name)
    (hscan : (usual store extension).scanSource source path .fresh = .ok actions s) :
    (∃ s', (usual store extension).compileSource (importTag name ++ source) path .fresh =
        .error (.notExported name) s') ↔ s.exports.find? name = none := by
  have hblock := blockOf_of_scanSource (scanSource_importTag hname hscan)
  simp only [compileSource_eq_error, hblock]
  constructor
  · rintro ⟨s', h⟩
    cases hfind : s.exports.find? name with
    | none => rfl
    | some body =>
        -- The name stays exported, so nothing that is compiled from here on fails to find it.
        have hcouples := couples_resolveAll (keeps_exported (· = name)) (usual store extension) s
          (.defer path none (.importBody name) :: actions)
        have hhas : ∀ other, other = name → s.exports.has other = true := by
          rintro _ rfl
          unfold Table.has
          rw [hfind]
          rfl
        exact absurd rfl ((hcouples.error (.intro ⟨rfl, hhas⟩) h).1 name rfl)
  · intro hnone
    have hmissing : Action.resolve ((usual store extension).nestedWith (usual store extension).blockOf)
        (.defer path none (.importBody name)) s = .error (.notExported name) s := by
      have hget : ∀ f : CompileState → CompileM Block, (get >>= f : CompileM Block) s = f s s :=
        fun _ => rfl
      refine (hget _).trans ?_
      simp only [hnone]
      rfl
    refine ⟨s, ?_⟩
    simp only [resolveAll, Functor.map, EStateM.map, mapM_cons_of_error hmissing]

/-- A body that is exported in the body of a condition. -/
def nestedExport : Bytes := Utf8.encode "#if(x) \x7b#export(\"n\") \x7bhi\x7d\x7d"

theorem scanSource_nestedExport : ∃ actions,
    plain.scanSource nestedExport "" .fresh = .ok actions .fresh :=
  ⟨[.defer "" none (.conditional [(["x"], Utf8.encode "#export(\"n\") \x7bhi\x7d")] none)],
    by decide +kernel⟩

theorem compileSource_importTag_nestedExport :
    Sign.quote ∉ Utf8.encode "n" ∧ ∃ s', plain.compileSource (importTag "n" ++ nestedExport) ""
      .fresh = .error (.notExported "n") s' := by
  have hname : Sign.quote ∉ Utf8.encode "n" := by decide +kernel
  obtain ⟨actions, hscan⟩ := scanSource_nestedExport
  exact ⟨hname, (compileSource_importTag_iff hname hscan).2 rfl⟩

/-- A source may compile, and export a name, that an import in front of it does not find. -/
theorem exists_exported_not_found :
    ¬ ∀ (store : Store) (extension path name : String) (source : Bytes) (t : Template)
      (s : CompileState), Sign.quote ∉ Utf8.encode name →
        (usual store extension).compileSource source path .fresh = .ok t s →
        (s.exports.find? name).isSome = true → ∀ s',
          (usual store extension).compileSource (importTag name ++ source) path .fresh ≠
            .error (.notExported name) s' := by
  intro h
  have hcompiles : plain.compileSource nestedExport "" .fresh =
      .ok ⟨[2, 1, 1, 120, 0, 0, 1, 0, 0, 0, 0, 0, 0, 0, 0, 0]⟩
        (CompileState.fresh.withExports [("n", Utf8.encode "hi")]) := by decide +kernel
  have hfails : plain.compileSource (importTag "n" ++ nestedExport) "" .fresh =
      .error (.notExported "n") .fresh := by decide +kernel
  exact h (SourceTable.store []) ".leaf" "" "n" nestedExport _ _ (by decide +kernel) hcompiles rfl _ hfails

/-! ## Exports at the front and at the end -/

end Compiler

/-- What the first pass over a piece exports. -/
def Piece.exported : Piece → List (String × Bytes)
  | .exportBody name body => [(name, body)]
  | _ => []

/-- What the first pass makes of a piece, if it embeds nothing. -/
def Piece.action (extension path : String) (scope : Option Bytes) : Piece → Action
  | .emit code => .emit code
  | .scopedBody inner body => .defer path (some inner) (.body body)
  | .loop name iterable body => .defer path scope (.loop name iterable body)
  | .conditional branches otherwise => .defer path scope (.conditional branches otherwise)
  | .embedFile _ | .exportBody .. => .emit .done
  | .importBody name => .defer path scope (.importBody name)
  | .extendFile name => .defer path scope (.extendFile (name ++ extension))

namespace Table

variable {κ α : Type} [DecidableEq κ]

/-- Stores pairs one after the other. -/
def insertAll (t : Table κ α) (pairs : List (κ × α)) : Table κ α :=
  pairs.foldl (fun t p => t.insert p.1 p.2) t

theorem insertAll_append (t : Table κ α) (pairs more : List (κ × α)) :
    t.insertAll (pairs ++ more) = (t.insertAll pairs).insertAll more :=
  List.foldl_append

/-- Of several values that are stored under a key, the last one stays. -/
theorem find?_insertAll (t : Table κ α) (pairs : List (κ × α)) (key : κ) :
    (t.insertAll pairs).find? key = (pairs.reverse.lookup key).or (t.find? key) := by
  induction pairs generalizing t with
  | nil => rfl
  | cons p pairs ih =>
      rw [insertAll, List.foldl_cons]
      refine (ih (t.insert p.1 p.2)).trans ?_
      rw [List.reverse_cons, List.lookup_append, Option.or_assoc]
      by_cases h : key = p.1
      · rw [h, find?_insert_self, List.lookup_cons_self]
        rfl
      · rw [find?_insert_ne _ _ h, List.lookup_cons, beq_eq_false_iff_ne.2 h]
        rfl

theorem mem_of_lookup_reverse {pairs : List (κ × α)} {key : κ} {value : α}
    (h : pairs.reverse.lookup key = some value) : (key, value) ∈ pairs := by
  obtain ⟨front, back, hsplit, -⟩ := List.lookup_eq_some_iff.1 h
  exact List.mem_reverse.1 (hsplit ▸ List.mem_append_right _ List.mem_cons_self)

/-- Pairs whose keys are not stored otherwise may be stored first or last. -/
theorem find?_insertAll_comm {pairs more : List (κ × α)}
    (h : ∀ p ∈ pairs, find? (insertAll [] more) p.1 = none) (key : κ) :
    find? (insertAll [] (pairs ++ more)) key = find? (insertAll [] (more ++ pairs)) key := by
  rw [find?_insertAll, find?_insertAll, List.reverse_append, List.reverse_append,
    List.lookup_append, List.lookup_append]
  cases hpairs : pairs.reverse.lookup key with
  | none => rw [Option.or_none, Option.none_or]
  | some value =>
      have hmore := h _ (mem_of_lookup_reverse hpairs)
      rw [find?_insertAll] at hmore
      rw [(Option.or_eq_none_iff.1 hmore).1, Option.or_none, Option.none_or]

theorem find?_insertAll_of_new {pairs more : List (κ × α)}
    (h : ∀ p ∈ pairs, find? (insertAll [] more) p.1 = none) {p : κ × α} (hp : p ∈ pairs) :
    find? (insertAll [] (more ++ pairs)) p.1 = pairs.reverse.lookup p.1 := by
  have hmore := h p hp
  rw [find?_insertAll] at hmore
  rw [find?_insertAll, List.reverse_append, List.lookup_append, (Option.or_eq_none_iff.1 hmore).1]
  simp [find?]

end Table

namespace Action

variable {nested : Nested} {extension path : String} {s : CompileState}

theorem ofPiece_of_not_embed {piece : Piece} (h : ∀ name, piece ≠ .embedFile name) :
    ofPiece nested extension path piece s =
      .ok (piece.action extension path s.scope)
        (s.withExports (s.exports.insertAll piece.exported)) := by
  cases piece with
  | embedFile name => exact absurd rfl (h name)
  | emit | scopedBody | loop | conditional | exportBody | importBody | extendFile => rfl

/-- Pieces that embed nothing go through the first pass, whatever the state. -/
theorem mapM_ofPiece {pieces : List Piece} (h : ∀ name, .embedFile name ∉ pieces) :
    pieces.mapM (ofPiece nested extension path) s =
      .ok (pieces.map (Piece.action extension path s.scope))
        (s.withExports (s.exports.insertAll (pieces.flatMap Piece.exported))) := by
  induction pieces generalizing s with
  | nil => rfl
  | cons piece pieces ih =>
      have hpiece : ∀ name, piece ≠ .embedFile name := by
        rintro name rfl
        exact h name List.mem_cons_self
      have hpieces := fun name hmem => h name (List.mem_cons_of_mem _ hmem)
      refine (mapM_cons_of_ok (ofPiece_of_not_embed hpiece) (ih hpieces)).trans ?_
      rw [List.flatMap_cons, Table.insertAll_append]
      rfl

end Action

/-- The result without the state. -/
def Outcome {ε σ α : Type} : Result ε σ α → Except ε α
  | .ok a _ => .ok a
  | .error e _ => .error e

theorem Agree.outcome_eq {ε σ α : Type} {R : σ → σ → Prop} {F : Faults ε} {V : α → Prop}
    {x y : Result ε σ α} (h : Agree R F V x y) (hF : ∀ e, ¬ F.parting e) :
    Outcome x = Outcome y := by
  cases x with
  | ok a s =>
      obtain ⟨-, t, rfl, -⟩ := h
      rfl
  | error e s =>
      obtain ⟨-, hpart | ⟨t, rfl, -⟩⟩ := h
      · exact absurd hpart (hF e)
      · rfl

/-- Tables that give the same under every key. -/
theorem keeps_find? :
    Keeps (fun E G => ∀ name, E.find? name = G.find? name) ⟨fun _ => True, fun _ => False⟩ where
  found E G h name body hfind := (h name).symm.trans hfind
  missing E G h name hnone := ⟨trivial, .inr ((h name).symm.trans hnone)⟩
  insert := by
    intro E G h name body other
    by_cases hother : other = name
    · rw [hother, Table.find?_insert_self, Table.find?_insert_self]
    · rw [Table.find?_insert_ne _ _ hother, Table.find?_insert_ne _ _ hother, h]
  other _ _ := trivial

namespace Compiler

section Idle

variable {compiler : Compiler} {idle actions : List Action} {s : CompileState}

/-- What is emitted goes through the second pass as it is. -/
theorem mapM_resolve_emits {nested : Nested} (codes : List Block) :
    (codes.map .emit).mapM (Action.resolve nested) s = .ok codes s := by
  induction codes with
  | nil => rfl
  | cons code codes ih => exact mapM_cons_of_ok rfl ih

/-- Actions that put nothing into the block. -/
theorem mapM_resolve_idle {nested : Nested} (h : ∀ action ∈ idle, action = .emit .done) :
    idle.mapM (Action.resolve nested) s = .ok (idle.map fun _ => .done) s := by
  have hidle : (idle.map fun _ => Block.done).map ActionOf.emit = idle := by
    rw [List.map_map]
    exact (List.map_congr_left fun action hmem => (h action hmem).symm).trans (List.map_id _)
  have hemits : ((idle.map fun _ => Block.done).map ActionOf.emit).mapM (Action.resolve nested) s =
      .ok (idle.map fun _ => .done) s := mapM_resolve_emits _
  rwa [hidle] at hemits

theorem concat_idle (idle : List Action) (blocks : List Block) :
    Block.concat ((idle.map fun _ => .done) ++ blocks) = Block.concat blocks := by
  induction idle with
  | nil => rfl
  | cons action idle ih => exact ih

theorem concat_idle_nil (idle : List Action) : Block.concat (idle.map fun _ => .done) = .done := by
  have hnil := concat_idle idle []
  rwa [List.append_nil] at hnil

theorem resolveAll_idle_append (h : ∀ action ∈ idle, action = .emit .done) :
    compiler.resolveAll (idle ++ actions) s = compiler.resolveAll actions s := by
  unfold resolveAll
  rw [List.mapM_append]
  simp only [Functor.map, EStateM.map, Bind.bind, EStateM.bind, mapM_resolve_idle h]
  cases actions.mapM (Action.resolve (compiler.nestedWith compiler.blockOf)) s with
  | ok blocks s' => exact congrArg (Result.ok · s') (concat_idle idle blocks)
  | error e s' => rfl

theorem resolveAll_append_idle (h : ∀ action ∈ idle, action = .emit .done) :
    compiler.resolveAll (actions ++ idle) s = compiler.resolveAll actions s := by
  have hidle := concat_idle_nil idle
  unfold resolveAll
  rw [List.mapM_append]
  simp only [Functor.map, EStateM.map, Bind.bind, EStateM.bind]
  cases actions.mapM (Action.resolve (compiler.nestedWith compiler.blockOf)) s with
  | ok blocks s' =>
      simp only [mapM_resolve_idle h]
      refine congrArg (Result.ok · s') ?_
      show Block.concat (blocks ++ _) = _
      unfold Block.concat at hidle ⊢
      rw [List.foldr_append, hidle]
  | error e s' => rfl

end Idle

theorem outcome_compileSource {compiler : Compiler} {source : Bytes} {path : String}
    {s : CompileState} :
    Outcome (compiler.compileSource source path s) =
      (Outcome (compiler.blockOf source path s)).map fun b => Template.mk b.code := by
  cases hblock : compiler.blockOf source path s with
  | ok b s' =>
      have htemplate := compileSource_eq_ok.2 ⟨b, hblock, rfl⟩
      rw [htemplate]
      rfl
  | error e s' =>
      have herror := compileSource_eq_error.2 hblock
      rw [herror]
      rfl

/-- The pieces of exports, one after the other. -/
def exportPieces (exported : List (String × Bytes)) : List Piece :=
  exported.map fun e => .exportBody e.1 e.2

theorem not_embed_exportPieces (exported : List (String × Bytes)) (name : String) :
    .embedFile name ∉ exportPieces exported := by
  intro h
  obtain ⟨_, _, ⟨⟩⟩ := List.mem_map.1 h

theorem exported_exportPieces (exported : List (String × Bytes)) :
    (exportPieces exported).flatMap Piece.exported = exported := by
  induction exported with
  | nil => rfl
  | cons e exported ih => exact congrArg (e :: ·) ih

section ExportTags

variable {store : Store} {extension path : String} {source : Bytes} {pieces : List Piece}
  {actions : List Action} {s : CompileState} {exported : List (String × Bytes)}

/-- The actions of exports, one after the other: nothing is left to do. -/
def exportActions (extension path : String) (exported : List (String × Bytes)) : List Action :=
  (exportPieces exported).map (Piece.action extension path none)

theorem idle_exportActions : ∀ action ∈ exportActions extension path exported,
    action = .emit .done := by
  intro action haction
  obtain ⟨_, hpiece, rfl⟩ := List.mem_map.1 haction
  obtain ⟨e, _, rfl⟩ := List.mem_map.1 hpiece
  rfl

theorem scanSource_of_not_embed (hread : Reading.ofBytes builtinTags none source = ⟨pieces, none⟩)
    (h : ∀ name, .embedFile name ∉ pieces) :
    (usual store extension).scanSource source path .fresh =
      .ok (pieces.map (Piece.action extension path none))
        (CompileState.fresh.withExports (Table.insertAll [] (pieces.flatMap Piece.exported))) := by
  rw [scanSource_of_reading hread]
  exact Action.mapM_ofPiece h

section Scanned

variable (store extension path)
  (hexported : ∀ e ∈ exported, Sign.quote ∉ Utf8.encode e.1 ∧ Balanced e.2)
  (hread : Reading.ofBytes builtinTags none source = ⟨pieces, none⟩)
  (hembed : ∀ name, .embedFile name ∉ pieces)

include hexported hread hembed

/-- The first pass over exports, and then a source. -/
theorem scanSource_exportTags_append :
    (usual store extension).scanSource (exportTags exported ++ source) path .fresh =
      .ok (exportActions extension path exported ++ pieces.map (Piece.action extension path none))
        (CompileState.fresh.withExports
          (Table.insertAll [] (exported ++ pieces.flatMap Piece.exported))) := by
  have hsource := Reading.Through.source (congrArg Reading.fault hread) (.inl rfl)
  have hthrough := (Reading.through_exportTags hexported _).append hsource
  have hpieces := hthrough.ofBytes_eq
  rw [hread] at hpieces
  have hnone : ∀ name, .embedFile name ∉ exportPieces exported ++ pieces := by
    intro name h
    rcases List.mem_append.1 h with h | h
    · exact not_embed_exportPieces exported name h
    · exact hembed name h
  rw [scanSource_of_not_embed hpieces hnone, List.map_append, List.flatMap_append]
  exact congrArg (fun pairs => Result.ok _ (CompileState.fresh.withExports
    (Table.insertAll [] (pairs ++ _)))) (exported_exportPieces exported)

/-- The first pass over a source, and then exports. -/
theorem scanSource_append_exportTags :
    (usual store extension).scanSource (source ++ exportTags exported) path .fresh =
      .ok (pieces.map (Piece.action extension path none) ++ exportActions extension path exported)
        (CompileState.fresh.withExports
          (Table.insertAll [] (pieces.flatMap Piece.exported ++ exported))) := by
  have htag := Reading.startsTag_exportTags exported
  rw [← List.append_nil (exportTags exported)] at htag
  have hsource := Reading.Through.source (congrArg Reading.fault hread) htag
  have hthrough := hsource.append (Reading.through_exportTags hexported [])
  have hpieces := hthrough.ofBytes_eq
  rw [hread] at hpieces
  have hnone : ∀ name, .embedFile name ∉ pieces ++ exportPieces exported := by
    intro name h
    rcases List.mem_append.1 h with h | h
    · exact hembed name h
    · exact not_embed_exportPieces exported name h
  rw [scanSource_of_not_embed hpieces hnone, List.map_append, List.flatMap_append]
  exact congrArg (fun pairs => Result.ok _ (CompileState.fresh.withExports
    (Table.insertAll [] (_ ++ pairs)))) (exported_exportPieces exported)

end Scanned

/-- Exports may stand in front of a source, or behind it, if the source embeds nothing and
does not export the same names: it compiles to the same code, or fails by the same error.
Either way the second pass finds under each name what was exported last. -/
theorem compileSource_exportTags
    (hexported : ∀ e ∈ exported, Sign.quote ∉ Utf8.encode e.1 ∧ Balanced e.2)
    (hscan : (usual store extension).scanSource source path .fresh = .ok actions s)
    (hembed : ∀ name, .embedFile name ∉ (Reading.ofBytes builtinTags none source).pieces)
    (hnew : ∀ e ∈ exported, s.exports.find? e.1 = none) :
    Outcome ((usual store extension).compileSource (exportTags exported ++ source) path .fresh) =
        Outcome ((usual store extension).compileSource (source ++ exportTags exported) path .fresh) ∧
      (∃ first s₁, (usual store extension).scanSource (exportTags exported ++ source) path .fresh =
          .ok first s₁ ∧
        ∀ e ∈ exported, s₁.exports.find? e.1 = exported.reverse.lookup e.1) ∧
      ∃ first s₂, (usual store extension).scanSource (source ++ exportTags exported) path .fresh =
          .ok first s₂ ∧
        ∀ e ∈ exported, s₂.exports.find? e.1 = exported.reverse.lookup e.1 := by
  have hread : Reading.ofBytes builtinTags none source =
      ⟨(Reading.ofBytes builtinTags none source).pieces, none⟩ :=
    reading_of_scanSource hscan
  have hfront := scanSource_exportTags_append store extension path hexported hread hembed
  have hback := scanSource_append_exportTags store extension path hexported hread hembed
  rw [scanSource_of_not_embed hread hembed] at hscan
  cases hscan
  refine ⟨?_, ⟨_, _, hfront, ?_⟩, ⟨_, _, hback, ?_⟩⟩
  · rw [outcome_compileSource, outcome_compileSource, blockOf_of_scanSource hfront,
      blockOf_of_scanSource hback, resolveAll_idle_append idle_exportActions,
      resolveAll_append_idle idle_exportActions]
    have hcouples := couples_resolveAll keeps_find? (usual store extension) .fresh
      ((Reading.ofBytes builtinTags none source).pieces.map (Piece.action extension path none))
    have hagree := hcouples _ _ (.intro (Table.find?_insertAll_comm hnew))
    rw [hagree.outcome_eq fun _ => id]
  · intro e he
    exact (Table.find?_insertAll_comm hnew e.1).trans (Table.find?_insertAll_of_new hnew he)
  · intro e he
    exact Table.find?_insertAll_of_new hnew he

end ExportTags

/-- A name that is exported twice. -/
def exportedTwice : List (String × Bytes) := [("n", Utf8.encode "x"), ("n", Utf8.encode "\x7by\x7d")]

theorem compileSource_exportTags_exportedTwice :
    (∀ e ∈ exportedTwice, Sign.quote ∉ Utf8.encode e.1 ∧ Balanced e.2) ∧
      Outcome (plain.compileSource (exportTags exportedTwice ++ importTag "n") "" .fresh) =
        Outcome (plain.compileSource (importTag "n" ++ exportTags exportedTwice) "" .fresh) := by
  have hexported : ∀ e ∈ exportedTwice, Sign.quote ∉ Utf8.encode e.1 ∧ Balanced e.2 := by
    decide +kernel
  have hscan : plain.scanSource (importTag "n") "" .fresh =
      .ok [.defer "" none (.importBody "n")] .fresh := by
    decide +kernel
  have hread : Reading.ofBytes builtinTags none (importTag "n") = ⟨[.importBody "n"], none⟩ := by
    decide +kernel
  have hembed : ∀ name, .embedFile name ∉ (Reading.ofBytes builtinTags none (importTag "n")).pieces := by
    intro name
    rw [hread]
    simp
  exact ⟨hexported, (compileSource_exportTags hexported hscan hembed fun _ _ => rfl).1⟩

end Compiler

end Stencil
