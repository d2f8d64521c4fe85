/-
# `Stencil.Proofs.Reporting` — what a compilation that fails reports

A scan that runs off its text ends in `unexpectedEnd`.  No template is said to be wrong by that:
the readers of tags turn it into the fault of the tag that is left open.  Nor does a compilation
report that its levels ran out, for they never do.  What it does report has a reason, outside of
the readers:

| error | reason |
| :-- | :-- |
| a fault of a source | a text that was there at first has a part that is read up to this fault |
| `notExported`, `circularImport` | an import |
| `fileDoesNotExist` | the store has no file at the location |
| `circularInclude` | a file that is included |

`FailsBy I P m` is what is proved of each part of a compilation: from states with the invariant
`I` it ends in errors with the property `P` only.  That the invariant survives is known from the
qualities of sources (`Quality.Carries`); here the quality is to lie within the texts that were
there at first, and what is kept under names has it.

**Proved here**, for every compiler, source, directory and state:

    a source or a file compiles, or an error is reported for a reason, while the scanner
      called alone ends in `unexpectedEnd` where no delimiter lies ahead
                                                        (`Compiler.compile_or_report`)
-/
import Mathlib.Data.List.TakeWhile
import Stencil.Proofs.Termination

namespace Stencil

open EStateM (Result)

/-! ## What a computation fails by -/

/-- From states with the invariant, the computation ends in errors with the property only. -/
def FailsBy {ε σ α : Type} (I : σ → Prop) (P : ε → Prop) (m : EStateM ε σ α) : Prop :=
  ∀ s e s', I s → m s = .error e s' → P e

namespace FailsBy

variable {ε σ α β : Type} {I : σ → Prop} {P : ε → Prop} {Q : α → Prop}

theorem pure (a : α) : FailsBy I P (Pure.pure a : EStateM ε σ α) := nofun

theorem throw {e : ε} (h : P e) : FailsBy I P (MonadExcept.throw e : EStateM ε σ α) := by
  rintro s _ s' _ ⟨⟩
  exact h

/-- What comes first maintains the invariant for what comes then. -/
theorem bind {m : EStateM ε σ α} {f : α → EStateM ε σ β} (hm : FailsBy I P m)
    (hok : Maintains I m Q) (hf : ∀ a, Q a → FailsBy I P (f a)) : FailsBy I P (m >>= f) := by
  intro s e s' hs h
  simp only [Bind.bind, EStateM.bind] at h
  cases hfirst : m s with
  | ok a s₁ =>
      rw [hfirst] at h
      obtain ⟨hs₁, hQ⟩ := hok s a s₁ hs hfirst
      exact hf a hQ s₁ e s' hs₁ h
  | error d s₁ =>
      rw [hfirst] at h
      cases h
      exact hm s e s' hs hfirst

/-- A computation that looks at its state. -/
theorem get {f : σ → EStateM ε σ β} (hf : ∀ s, I s → FailsBy I P (f s)) :
    FailsBy I P (MonadState.get >>= f) :=
  fun s e s' hs h => hf s hs s e s' hs h

theorem map {m : EStateM ε σ α} {f : α → β} (hm : FailsBy I P m) : FailsBy I P (f <$> m) := by
  intro s e s' hs h
  simp only [Functor.map, EStateM.map] at h
  cases hm' : m s with
  | ok a s₁ =>
      rw [hm'] at h
      cases h
  | error d s₁ =>
      rw [hm'] at h
      cases h
      exact hm s e s' hs hm'

/-- Element by element. -/
theorem mapM {Q : β → Prop} {f : α → EStateM ε σ β} : ∀ {xs : List α},
    (∀ x ∈ xs, FailsBy I P (f x)) → (∀ x ∈ xs, Maintains I (f x) Q) → FailsBy I P (xs.mapM f)
  | [], _, _ => by
      rw [List.mapM_nil]
      exact pure []
  | x :: xs, hxs, hok => by
      rw [List.mapM_cons]
      have hrest : ∀ x ∈ xs, Maintains I (f x) Q := fun x hx => hok x (List.mem_cons_of_mem _ hx)
      refine bind (hxs x List.mem_cons_self) (hok x List.mem_cons_self) fun y _ => ?_
      refine bind (mapM (fun x hx => hxs x (List.mem_cons_of_mem _ hx)) hrest) (.mapM hrest) ?_
      exact fun ys _ => pure (y :: ys)

theorem optionMapM {f : α → EStateM ε σ β} : ∀ {x : Option α}, (∀ y ∈ x, FailsBy I P (f y)) →
    FailsBy I P (x.mapM f)
  | none, _ => pure none
  | some x, h => map (h x rfl)

/-- What is entered and left does not matter for the invariant. -/
theorem within {I : CompileState → Prop} {P : CompileError → Prop}
    {enter : CompileState → CompileState} {leave : CompileState → CompileState → CompileState}
    {part : CompileM α} (henter : ∀ s, I s → I (enter s)) (h : FailsBy I P part) :
    FailsBy I P (CompileM.within enter leave part) := by
  intro s e s' hs hfail
  unfold CompileM.within at hfail
  cases hpart : part (enter s) with
  | ok a s₁ =>
      rw [hpart] at hfail
      cases hfail
  | error d s₁ =>
      rw [hpart] at hfail
      cases hfail
      exact h (enter s) e s₁ (henter s hs) hpart

end FailsBy

/-! ## Texts that are known -/

theorem Block.every_of_forall {data : Bytes → Prop} {name : String → Prop} {expr : Expr → Prop}
    (hdata : ∀ bs, data bs) (hname : ∀ n, name n) (hexpr : ∀ e, expr e) (b : Block) :
    b.Every data name expr := by
  induction b with
  | done => trivial
  | raw bs next ih => exact ⟨hdata bs, ih⟩
  | print e next ih => exact ⟨hexpr e, ih⟩
  | branch e yes next ihY ih => exact ⟨hexpr e, ihY, ih⟩
  | branchElse e yes no next ihY ihN ih => exact ⟨hexpr e, ihY, ihN, ih⟩
  | loop n e body next ihB ih => exact ⟨hname n, hexpr e, ihB, ih⟩

namespace Quality

/-- To lie within one of the texts; what is in blocks does not matter. -/
def known (texts : List Bytes) : Quality :=
  ⟨Known texts, fun _ => True, fun _ => True, fun _ => True⟩

variable {texts : List Bytes}

/-- What is cut from a known text is known. -/
theorem known_inPiece {text : Bytes} (htext : Known texts text) {piece : Piece}
    (h : piece.Within text) : (known texts).InPiece piece := by
  have hbody : ∀ source, .body source ∈ piece.requests → Known texts source :=
    fun source hsource => htext.mono (h.body source hsource).1
  cases piece with
  | emit code =>
      exact Block.every_of_forall (fun _ => trivial) (fun _ => trivial) (fun _ => trivial) code
  | scopedBody inner body => exact hbody body List.mem_cons_self
  | exportBody name body => exact htext.mono (h.kept name body rfl).1.1
  | loop name iterable body => exact ⟨trivial, trivial, hbody body List.mem_cons_self⟩
  | conditional branches otherwise =>
      refine ⟨fun branch hbranch => ⟨trivial, hbody _ ?_⟩, fun body hno => hbody _ ?_⟩
      · exact List.mem_append_left _ (List.mem_map_of_mem hbranch)
      · have hmem := List.mem_map_of_mem (f := Request.body) (Option.mem_toList.2 hno)
        exact List.mem_append_right _ hmem
  | embedFile name | importBody name | extendFile name => trivial

end Quality

/-! ## Reports -/

namespace Compiler

/-- What may be reported where these texts are there, and why. -/
inductive Reports (compiler : Compiler) (texts : List Bytes) : CompileError → Prop where
  | fault {text : Bytes} {scope : Option Bytes} {e : CompileError} (known : Known texts text)
      (read : (Reading.ofBytes compiler.tags scope text).fault = some e) : Reports compiler texts e
  | notExported (name : String) : Reports compiler texts (.notExported name)
  | circularImport (name : String) : Reports compiler texts (.circularImport name)
  | missing {location : String} (load : compiler.store.load location = none) :
      Reports compiler texts (.fileDoesNotExist location)
  | circularInclude (location : String) : Reports compiler texts (.circularInclude location)

variable {compiler : Compiler} {texts : List Bytes}

/-- What is reported is not that a scan ran off its text. -/
theorem Reports.ne_unexpectedEnd {e : CompileError} (h : compiler.Reports texts e)
    (position : Nat) : e ≠ .unexpectedEnd position := by
  rintro rfl
  obtain ⟨-, hread⟩ := h
  exact Reading.isFault_of_fault hread

/-- What is reported, and that the levels ran out. -/
def ReportsOrDeep (compiler : Compiler) (texts : List Bytes) (e : CompileError) : Prop :=
  compiler.Reports texts e ∨ e = .nestingTooDeep

/-- From states whose exports are known, the computation fails with a report. -/
abbrev Reported {α : Type} (compiler : Compiler) (texts : List Bytes) (m : CompileM α) : Prop :=
  FailsBy (Quality.known texts).InState (compiler.ReportsOrDeep texts) m

/-- So do the ways to compile bodies and files. -/
structure ReportedAll (compiler : Compiler) (texts : List Bytes) (nested : Nested) : Prop where
  block : ∀ source path, Known texts source → compiler.Reported texts (nested.block source path)
  file : ∀ name path, compiler.Reported texts (nested.file name path)

section Nested

variable {nested : Nested} (hnested : compiler.ReportedAll texts nested)
  (hcarries : (Quality.known texts).CarriesAll nested)

include hnested

theorem reported_ofPiece (extension path : String) (piece : Piece) :
    compiler.Reported texts (Action.ofPiece nested extension path piece) := by
  refine .get fun s _ => ?_
  cases piece with
  | embedFile name => exact .map (hnested.file _ _)
  | exportBody name body => nofun
  | emit | scopedBody | loop | conditional | importBody | extendFile => exact .pure _

include hcarries

theorem reported_scan {source : Bytes} (hsource : Known texts source) (path : String) :
    compiler.Reported texts
      (Action.scan nested compiler.tags compiler.extension source path) := by
  refine .get fun s _ => ?_
  have hpieces : ∀ piece ∈ (Reading.ofBytes compiler.tags s.scope source).pieces,
      (Quality.known texts).InPiece piece := fun piece hpiece =>
    Quality.known_inPiece hsource (Reading.within_ofBytes source piece hpiece)
  have hok : ∀ piece ∈ (Reading.ofBytes compiler.tags s.scope source).pieces,
      Maintains (Quality.known texts).InState (Action.ofPiece nested compiler.extension path piece)
        (Quality.known texts).InAction := fun piece hpiece =>
    Quality.maintains_ofPiece hcarries _ path (hpieces piece hpiece)
  refine .bind (.mapM (fun piece _ => reported_ofPiece hnested _ path piece) hok) (.mapM hok) ?_
  intro actions _
  cases hread : (Reading.ofBytes compiler.tags s.scope source).fault with
  | some e => exact .throw (.inl (.fault hsource hread))
  | none => exact .pure actions

theorem reported_resolveDeferral (path : String) (scope : Option Bytes) {what : Deferral}
    (h : (Quality.known texts).InDeferral what) :
    compiler.Reported texts (Action.resolveDeferral nested path scope what) := by
  have hbody : ∀ {source : Bytes}, Known texts source →
      compiler.Reported texts (CompileM.underScope scope (nested.block source path)) :=
    fun hsource => .within (fun _ => id) (hnested.block _ path hsource)
  have hok : ∀ {source : Bytes}, Known texts source →
      Maintains (Quality.known texts).InState (CompileM.underScope scope (nested.block source path))
        (Quality.known texts).InBlock :=
    fun hsource => Quality.maintains_underScope scope (hcarries.block _ path hsource)
  cases what with
  | importBody name =>
      refine .get fun s hs => ?_
      cases hfind : s.exports.find? name with
      | none => exact .throw (.inl (.notExported name))
      | some body =>
          refine .get fun t _ => ?_
          by_cases hcircular : name ∈ t.importing
          · simp only [if_pos hcircular]
            exact .throw (.inl (.circularImport name))
          · simp only [if_neg hcircular]
            exact .within (fun _ => id) (hbody (hs name body hfind))
  | extendFile name => exact .within (fun _ => id) (hnested.file name path)
  | body source => exact hbody h
  | conditional branches otherwise =>
      have hyes : ∀ branch ∈ branches, compiler.Reported texts (do
          let block ← CompileM.underScope scope (nested.block branch.2 path)
          pure (branch.1, block)) := by
        intro branch hbranch
        obtain ⟨-, hsource⟩ := h.1 branch hbranch
        exact .bind (hbody hsource) (hok hsource) fun _ _ => .pure _
      have hyesOk : ∀ branch ∈ branches, Maintains (Quality.known texts).InState (do
          let block ← CompileM.underScope scope (nested.block branch.2 path)
          pure (branch.1, block)) fun _ => True := by
        intro branch hbranch
        exact .bind (hok (h.1 branch hbranch).2) fun _ _ => .pure trivial
      refine .bind (.mapM hyes hyesOk) (.mapM hyesOk) fun blocks _ => ?_
      exact .bind (.optionMapM fun source hno => hbody (h.2 source hno))
        (.optionMapM fun source hno => hok (h.2 source hno)) fun _ _ => .pure _
  | loop name iterable source =>
      exact .bind (hbody h.2.2) (hok h.2.2) fun _ _ => .pure _

theorem reported_resolve {action : Action} (h : (Quality.known texts).InAction action) :
    compiler.Reported texts (Action.resolve nested action) := by
  cases action with
  | emit code => exact .pure code
  | defer path scope what => exact reported_resolveDeferral hnested hcarries path scope h

theorem reported_passes {source : Bytes} (hsource : Known texts source) (path : String) :
    compiler.Reported texts (compiler.passes nested source path) := by
  have hscan : Maintains (Quality.known texts).InState
      (Action.scan nested compiler.tags compiler.extension source path) fun actions =>
        ∀ action ∈ actions, (Quality.known texts).InAction action := by
    refine Quality.maintains_scan hcarries (fun scope piece hpiece => ?_) _ path
    exact Quality.known_inPiece hsource (Reading.within_ofBytes source piece hpiece)
  refine .bind (reported_scan hnested hcarries hsource path) hscan fun actions hactions => ?_
  refine .map (.mapM (Q := (Quality.known texts).InBlock) ?_ ?_)
  · exact fun action haction => reported_resolve hnested hcarries (hactions action haction)
  · exact fun action haction => Quality.maintains_resolve hcarries (hactions action haction)

end Nested

section Levels

variable (hstore : ∀ data ∈ compiler.store.sources, Known texts data)

include hstore

theorem reportedAll_nestedWith {block : Bytes → String → CompileM Block}
    (h : ∀ source path, Known texts source → compiler.Reported texts (block source path)) :
    compiler.ReportedAll texts (compiler.nestedWith block) := by
  refine ⟨h, fun name path => ?_⟩
  refine .get fun s _ => ?_
  by_cases hcircular : Location.join path name ∈ s.including
  · simp only [if_pos hcircular]
    exact .throw (.inl (.circularInclude _))
  · simp only [if_neg hcircular]
    cases hload : compiler.store.load (Location.join path name) with
    | none => exact .throw (.inl (.missing hload))
    | some source =>
        exact .within (fun _ => id) (h source path (hstore _ (compiler.store.mem_sources hload)))

/-- How sources and files are compiled on a level carries what is known. -/
theorem known_carriesAll (levels : Nat) :
    (Quality.known texts).CarriesAll (compiler.nestedWith (compiler.compileBlock levels)) := by
  have hfiles : ∀ location source, compiler.store.load location = some source →
      Known texts source := fun _ source hload => hstore source (compiler.store.mem_sources hload)
  refine Quality.carriesAll_nestedWith hfiles
    (Quality.carries_compileBlock (Quality.known texts) hfiles ?_ levels)
  exact fun scope source hsource piece hpiece =>
    Quality.known_inPiece hsource (Reading.within_ofBytes source piece hpiece)

/-- The induction is on the levels of nesting. -/
theorem reported_compileBlock (levels : Nat) {source : Bytes} (path : String)
    (hsource : Known texts source) :
    compiler.Reported texts (compiler.compileBlock levels source path) := by
  induction levels generalizing source path with
  | zero => exact .throw (.inr rfl)
  | succ levels ih =>
      rw [compileBlock_succ]
      have hnested := reportedAll_nestedWith hstore fun source path => @ih source path
      exact reported_passes hnested (known_carriesAll hstore levels) hsource path

end Levels

/-- The exports of a state are among the texts that are there. -/
theorem known_inState (source : Bytes) (s : CompileState) :
    (Quality.known (compiler.knownTexts source s)).InState s :=
  (knownExports source s).2

theorem known_sources (source : Bytes) (s : CompileState) :
    ∀ data ∈ compiler.store.sources, Known (compiler.knownTexts source s) data :=
  fun data hdata => ⟨data, mem_knownTexts source s data hdata, List.infix_rfl⟩

/-- A source that does not compile is reported, and not for want of levels. -/
theorem compileSource_reports {source : Bytes} {path : String} {s s' : CompileState}
    {e : CompileError} (h : compiler.compileSource source path s = .error e s') :
    e ≠ .nestingTooDeep ∧ compiler.Reports (compiler.knownTexts source s) e := by
  have hblock := compileSource_eq_error.1 h
  have hne : e ≠ .nestingTooDeep := by
    rintro rfl
    exact blockOf_ne_nestingTooDeep source path s s' hblock
  refine ⟨hne, Or.resolve_right ?_ hne⟩
  exact reported_compileBlock (known_sources source s) (compiler.levels source s) path
    (known_source source s) s e s' (known_inState source s) hblock

/-- A file that does not compile is reported, and not for want of levels. -/
theorem compileFile_reports {name path : String} {s s' : CompileState} {e : CompileError}
    (h : compiler.compileFile name path s = .error e s') :
    e ≠ .nestingTooDeep ∧ compiler.Reports (compiler.knownTexts [] s) e := by
  have hblock : compiler.compileFileBlock (compiler.levels [] s) name path s = .error e s' :=
    compileFile_eq_error.1 h
  have hne : e ≠ .nestingTooDeep := by
    rintro rfl
    exact ne_nestingTooDeep_of_couples [] (couples_compileFileBlock s (Nat.le_refl _) name path)
      s' hblock
  have hstore : ∀ data ∈ compiler.store.sources, Known (compiler.knownTexts [] s) data :=
    known_sources [] s
  have hall := reportedAll_nestedWith hstore fun _ path =>
    reported_compileBlock hstore (compiler.levels [] s) path
  exact ⟨hne, Or.resolve_right (hall.file name path s e s' (known_inState [] s) hblock) hne⟩

end Compiler

/-! ## Scans that run off their text -/

namespace SourceReader

/-- A scan runs off its text exactly if no delimiter lies ahead. -/
theorem readUntil_unexpectedEnd_iff (isDelimiter : UInt8 → Bool) (c : Cursor) :
    (∃ position c', readUntil isDelimiter true c = .error (.unexpectedEnd position) c') ↔
      ∀ b ∈ c.rest, isDelimiter b = false := by
  have hnone : c.rest.dropWhile (fun b => !isDelimiter b) = [] ↔
      ∀ b ∈ c.rest, isDelimiter b = false := by
    simp only [List.dropWhile_eq_nil_iff, Bool.not_eq_true']
  rw [← hnone]
  simp only [readUntil, drop_length_takeWhile]
  cases hbehind : c.rest.dropWhile (fun b => !isDelimiter b) with
  | nil => exact ⟨fun _ => rfl, fun _ => ⟨_, _, rfl⟩⟩
  | cons b after =>
      constructor
      · rintro ⟨_, _, ⟨⟩⟩
      · rintro ⟨⟩

/-- A string runs off its text exactly if no quote closes it. -/
theorem readString_unexpectedEnd_iff (c : Cursor) :
    (∃ position c', readString c = .error (.unexpectedEnd position) c') ↔
      ∃ text, c.rest = Sign.quote :: text ∧ Sign.quote ∉ text := by
  have hplain : ∀ text : Bytes, (∀ b ∈ text, (b == Sign.quote) = false) ↔ Sign.quote ∉ text := by
    intro text
    simp only [beq_eq_false_iff_ne]
    exact ⟨fun h hquote => h _ hquote rfl, fun h b hb hquote => h (hquote ▸ hb)⟩
  cases hopen : expectByte Sign.quote c with
  | ok _ c₁ =>
      have hrest := expectByte_eq_ok hopen
      have hread : readString c = readUntil (· == Sign.quote) true c₁ := by
        simp only [readString, Bind.bind, EStateM.bind, hopen]
      rw [hread, readUntil_unexpectedEnd_iff, hplain, hrest]
      constructor
      · exact fun h => ⟨_, rfl, h⟩
      · rintro ⟨text, htext, hquote⟩
        obtain rfl := (List.cons.inj htext).2
        exact hquote
  | error e c₁ =>
      have hread : readString c = .error e c₁ := by
        simp only [readString, Bind.bind, EStateM.bind, hopen]
      have hfault := (takes_expectByte _).error hopen
      rw [hread]
      constructor
      · rintro ⟨_, _, ⟨⟩⟩
        exact hfault.elim
      · rintro ⟨text, hrest, -⟩
        obtain ⟨_, hok, -⟩ := gives_expectByte Sign.quote text c hrest
        cases hok.symm.trans hopen

end SourceReader

/-- Every source and every file compiles, or an error is reported that has a reason: neither
that the levels ran out, nor that a scan ran off its text.  The scanner itself ends in that
where it is called alone and no delimiter lies ahead. -/
theorem Compiler.compile_or_report (compiler : Compiler) (source : Bytes) (name path : String)
    (s : CompileState) :
    ((∃ t s', compiler.compileSource source path s = .ok t s') ∨
      ∃ e s', compiler.compileSource source path s = .error e s' ∧ e ≠ .nestingTooDeep ∧
        (∀ position, e ≠ .unexpectedEnd position) ∧
        compiler.Reports (compiler.knownTexts source s) e) ∧
    ((∃ t s', compiler.compileFile name path s = .ok t s') ∨
      ∃ e s', compiler.compileFile name path s = .error e s' ∧ e ≠ .nestingTooDeep ∧
        (∀ position, e ≠ .unexpectedEnd position) ∧
        compiler.Reports (compiler.knownTexts [] s) e) ∧
    (∀ isDelimiter c,
      (∃ position c', SourceReader.readUntil isDelimiter true c =
          .error (.unexpectedEnd position) c') ↔ ∀ b ∈ c.rest, isDelimiter b = false) ∧
    ∀ c, (∃ position c', SourceReader.readString c = .error (.unexpectedEnd position) c') ↔
      ∃ text, c.rest = Sign.quote :: text ∧ Sign.quote ∉ text := by
  refine ⟨?_, ?_, SourceReader.readUntil_unexpectedEnd_iff,
    SourceReader.readString_unexpectedEnd_iff⟩
  · cases hresult : compiler.compileSource source path s with
    | ok t s' => exact .inl ⟨t, s', rfl⟩
    | error e s' =>
        obtain ⟨hne, hreport⟩ := compileSource_reports hresult
        exact .inr ⟨e, s', rfl, hne, hreport.ne_unexpectedEnd, hreport⟩
  · cases hresult : compiler.compileFile name path s with
    | ok t s' => exact .inl ⟨t, s', rfl⟩
    | error e s' =>
        obtain ⟨hne, hreport⟩ := compileFile_reports hresult
        exact .inr ⟨e, s', rfl, hne, hreport.ne_unexpectedEnd, hreport⟩

end Stencil
