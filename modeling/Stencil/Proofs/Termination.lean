/-
# `Stencil.Proofs.Termination` — compilation ends

The recursion of compilation has no measure in plain sight.  A body that is imported may
be longer than the source that imports it, the table of exports changes on the way, and
whether a file is being included is decided by its location as it is spelled.  So the
recursion is bounded by a number of levels (`Compiler.levels`), and this module shows
that the bound is never met.

Every text that is compiled lies within one of the texts that were there at first
(`Known`): the source, the sources of files, and the bodies that were exported before.
So do the names between quotes, of which there are only finitely many, each of them with
one location.  What decreases is

    (names not being imported + locations not being included) · (longest text + 2)
      + length of the source

for a body is shorter than its source, and an import or an inclusion takes one of the
names or locations away (`Compiler.needs`).

**Proved here**, for every compiler, source, directory and state:

    more levels change nothing, and the last one is never met    (`Compiler.compile_terminates`)

The first half also says that levels can be forgotten: compilation is the recursion that
compiles each body and each file with `blockOf` itself.
-/
import Stencil.Proofs.Compiled
import Stencil.Proofs.Coupling

namespace Stencil

open EStateM (Result)

/-! ## Names in texts -/

/-- The text lies within one of the given ones. -/
def Known (texts : List Bytes) (text : Bytes) : Prop := ∃ whole ∈ texts, text <:+: whole

/-- The names that are spelled anywhere in a text. -/
def namesIn (text : Bytes) : List String :=
  (List.range (text.length + 1)).flatMap fun start =>
    (List.range (text.length + 1)).filterMap fun length =>
      Utf8.decode? ((text.drop start).take length)

theorem mem_namesIn_of_quotes {text : Bytes} {name : String} (h : Quotes text name) :
    name ∈ namesIn text := by
  obtain ⟨before, after, rfl⟩ := h
  refine List.mem_flatMap.2 ⟨before.length + 1, ?_, ?_⟩
  · rw [List.mem_range]
    simp
  · refine List.mem_filterMap.2 ⟨(Utf8.encode name).length, ?_, ?_⟩
    · rw [List.mem_range]
      simp
      omega
    · rw [List.append_assoc, ← List.drop_drop, List.drop_left, List.cons_append, List.cons_append,
        List.drop_one, List.tail_cons, List.append_assoc, List.take_left]
      exact Utf8.decode?_encode name

theorem length_flatMap_le {α β : Type} {xs : List α} {f : α → List β} {n : Nat}
    (h : ∀ x ∈ xs, (f x).length ≤ n) : (xs.flatMap f).length ≤ xs.length * n := by
  induction xs with
  | nil => exact Nat.zero_le _
  | cons x xs ih =>
      have hfirst := h x List.mem_cons_self
      have hrest := ih fun x hx => h x (List.mem_cons_of_mem _ hx)
      rw [List.flatMap_cons, List.length_append, List.length_cons, Nat.succ_mul]
      omega

theorem length_namesIn_le (text : Bytes) :
    (namesIn text).length ≤ (text.length + 1) * (text.length + 1) := by
  have hstarts : (List.range (text.length + 1)).length = text.length + 1 := List.length_range
  conv => rhs; rw [← hstarts]
  refine length_flatMap_le fun start _ => ?_
  rw [hstarts]
  exact Nat.le_trans (List.length_filterMap_le _ _) (Nat.le_of_eq hstarts)

theorem length_flatMap_namesIn_le (texts : List Bytes) (count : Nat) :
    count + (texts.flatMap namesIn).length ≤
      texts.foldl (fun count text => count + (text.length + 1) * (text.length + 1)) count := by
  induction texts generalizing count with
  | nil => exact Nat.le_refl _
  | cons text texts ih =>
      have hfirst := length_namesIn_le text
      have hrest := ih (count + (text.length + 1) * (text.length + 1))
      rw [List.foldl_cons, List.flatMap_cons, List.length_append]
      omega

/-- The length of the longest text. -/
def longest (texts : List Bytes) : Nat := (texts.map List.length).foldl max 0

theorem length_le_longest {texts : List Bytes} {text : Bytes} (h : Known texts text) :
    text.length ≤ longest texts := by
  obtain ⟨whole, hwhole, hin⟩ := h
  have hmem := List.mem_map_of_mem (f := List.length) hwhole
  have hmax : whole.length ≤ ((texts.map List.length).max?).getD 0 := List.le_max?_getD_of_mem hmem
  unfold longest
  rw [List.foldl_max]
  exact Nat.le_trans hin.length_le (Nat.le_trans hmax (Nat.le_max_right _ _))

/-- How many of the items are not used. -/
def unused (items used : List String) : Nat := (items.filter fun item => item ∉ used).length

theorem unused_le (items used : List String) : unused items used ≤ items.length :=
  List.length_filter_le _ _

/-- Using one more item leaves fewer. -/
theorem unused_append_lt {items used : List String} {item : String} (hitem : item ∈ items)
    (hused : item ∉ used) : unused items (used ++ [item]) < unused items used := by
  have hfilter : (items.filter fun other => other ∉ used ++ [item]) =
      (items.filter fun other => other ∉ used).filter fun other => other ≠ item := by
    rw [List.filter_filter]
    refine List.filter_congr fun other _ => ?_
    simp [and_comm]
  unfold unused
  rw [hfilter, List.length_filter_lt_length_iff_exists]
  exact ⟨item, List.mem_filter.2 ⟨hitem, by simpa using hused⟩, by simp⟩

/-! ## Levels of nesting -/

theorem Known.mono {texts : List Bytes} {text whole : Bytes} (h : Known texts whole)
    (hw : text <:+: whole) : Known texts text := by
  obtain ⟨known, hmem, hin⟩ := h
  exact ⟨known, hmem, hw.trans hin⟩

theorem Known.name {texts : List Bytes} {text : Bytes} {name : String} (h : Known texts text)
    (hname : Quotes text name) : name ∈ texts.flatMap namesIn := by
  obtain ⟨whole, hmem, hin⟩ := h
  exact List.mem_flatMap.2 ⟨whole, hmem, mem_namesIn_of_quotes (hname.trans hin)⟩

/-- The same table twice, of bodies that lie within the texts. -/
def KnownExports (texts : List Bytes) (E G : Table String Bytes) : Prop :=
  E = G ∧ ∀ name body, E.find? name = some body → Known texts body

theorem KnownExports.insert {texts : List Bytes} {E G : Table String Bytes} {name : String}
    {body : Bytes} (h : KnownExports texts E G) (hbody : Known texts body) :
    KnownExports texts (E.insert name body) (G.insert name body) := by
  obtain ⟨rfl, hknown⟩ := h
  refine ⟨rfl, ?_⟩
  intro other found hfind
  by_cases hother : other = name
  · rw [hother, Table.find?_insert_self] at hfind
    cases hfind
    exact hbody
  · rw [Table.find?_insert_ne _ _ hother] at hfind
    exact hknown other found hfind

/-- Every error may occur, but that levels run out. -/
def Faults.ofSource : Faults CompileError := ⟨(· ≠ .nestingTooDeep), fun _ => False⟩

theorem ofSource_of_isFault {e : CompileError} (h : e.IsFault) : Faults.ofSource.allowed e := by
  rintro rfl
  exact h

namespace Compiler

section Needs

variable (compiler : Compiler) (texts : List Bytes) (path : String)

/-- The locations of all names in the texts. -/
def locations : List String :=
  (texts.flatMap namesIn).map fun name => Location.join path (name ++ compiler.extension)

/-- How many levels are enough for a source that lies within the texts. -/
def needs (b : CompileState) (source : Bytes) : Nat :=
  (unused (texts.flatMap namesIn) b.importing +
      unused (compiler.locations texts path) b.including) * (longest texts + 2) +
    source.length + 1

variable {compiler texts path} {b : CompileState} {source text : Bytes}

theorem needs_body (h : text.length < source.length) :
    compiler.needs texts path b text < compiler.needs texts path b source := by
  unfold needs
  omega

theorem needs_of_fewer {few many : Nat} (hfew : few < many) (htext : Known texts text) :
    few * (longest texts + 2) + text.length + 1 <
      many * (longest texts + 2) + source.length + 1 := by
  have hstep := Nat.mul_le_mul_right (longest texts + 2) (Nat.succ_le_of_lt hfew)
  have hlength := length_le_longest htext
  rw [Nat.succ_mul] at hstep
  omega

theorem needs_imported (source : Bytes) {name : String} (htext : Known texts text)
    (hname : name ∈ texts.flatMap namesIn) (hfresh : name ∉ b.importing) :
    compiler.needs texts path { b with importing := b.importing ++ [name] } text <
      compiler.needs texts path b source :=
  needs_of_fewer (Nat.add_lt_add_right (unused_append_lt hname hfresh) _) htext

theorem needs_included (source : Bytes) {location : String} (htext : Known texts text)
    (hlocation : location ∈ compiler.locations texts path) (hfresh : location ∉ b.including) :
    compiler.needs texts path { b with including := b.including ++ [location] } text <
      compiler.needs texts path b source :=
  needs_of_fewer (Nat.add_lt_add_left (unused_append_lt hlocation hfresh) _) htext

end Needs

variable {compiler : Compiler} {texts : List Bytes}

/-- Two ways to compile sources, from equal tables of known bodies. -/
def withBlocks (compiler : Compiler) (texts : List Bytes) (path : String)
    (block block' : Bytes → String → CompileM Block) : Comparison :=
  ⟨compiler.nestedWith block, compiler.nestedWith block', compiler.extension, path, [],
    KnownExports texts, .ofSource⟩

section Level

variable {block block' : Bytes → String → CompileM Block} {path : String} {levels : Nat}
  {source : Bytes} {b : CompileState}

/-- If whatever needs fewer levels is compiled alike, the requests of a source are
answered alike. -/
theorem follows_level (hstore : ∀ data ∈ compiler.store.sources, data ∈ texts)
    (hnested : ∀ text b, Known texts text → compiler.needs texts path b text < levels →
      Couples (b.At (KnownExports texts)) .ofSource (fun _ => True) (block text path)
        (block' text path))
    (hknown : Known texts source) (hneeds : compiler.needs texts path b source ≤ levels) :
    ∀ piece ∈ (Reading.ofBytes compiler.tags b.scope source).pieces,
      (compiler.withBlocks texts path block block').Follows b (fun _ => True) piece := by
  intro piece hpiece
  have hwithin := Reading.within_ofBytes source piece hpiece
  refine ⟨?_, ?_⟩
  · intro r hr
    cases r with
    | body body =>
        obtain ⟨hin, hshorter⟩ := hwithin.body body hr
        exact hnested _ _ (hknown.mono hin) (Nat.lt_of_lt_of_le (needs_body hshorter) hneeds)
    | file name =>
        refine couples_compileFileWith (fun _ => nofun) nofun ?_
        intro hfresh content hload
        have hcontent : Known texts content :=
          ⟨content, hstore _ (compiler.store.mem_sources hload), List.infix_rfl⟩
        have hlocation : Location.join path (name ++ compiler.extension) ∈
            compiler.locations texts path :=
          List.mem_map_of_mem (hknown.name (hwithin.file name hr))
        refine hnested _ _ hcontent (Nat.lt_of_lt_of_le ?_ hneeds)
        exact needs_included source hcontent hlocation hfresh
    | imported name =>
        rintro E _ ⟨rfl, hexports⟩
        refine ⟨fun hnone => ⟨nofun, .inr hnone⟩, ?_⟩
        intro body hbody
        refine ⟨hbody, fun _ => nofun, ?_⟩
        intro hfresh
        have hkept := hexports name body hbody
        have hname := hknown.name (hwithin.imported name hr)
        refine hnested _ _ hkept (Nat.lt_of_lt_of_le ?_ hneeds)
        exact needs_imported source hkept hname hfresh
  · intro name body hkept E G hEG
    exact hEG.insert (hknown.mono (hwithin.kept name body hkept).1.1)

/-- If whatever needs fewer levels is compiled alike, so is the source. -/
theorem couples_level (hstore : ∀ data ∈ compiler.store.sources, data ∈ texts)
    (hnested : ∀ text b, Known texts text → compiler.needs texts path b text < levels →
      Couples (b.At (KnownExports texts)) .ofSource (fun _ => True) (block text path)
        (block' text path))
    (hknown : Known texts source) (hneeds : compiler.needs texts path b source ≤ levels) :
    Couples (b.At (KnownExports texts)) .ofSource (fun _ => True)
      (compiler.passes (compiler.nestedWith block) source path)
      (compiler.passes (compiler.nestedWith block') source path) :=
  (couples_passes (compiler.withBlocks texts path block block') (fun _ => True) rfl
    (fun _ => ofSource_of_isFault) (follows_level hstore hnested hknown hneeds)).imp
    fun _ _ => trivial

end Level

/-- With enough levels a source is compiled as with more, and they do not run out. -/
theorem couples_compileBlock (hstore : ∀ data ∈ compiler.store.sources, data ∈ texts)
    {levels levels' : Nat} (hle : levels ≤ levels') {source : Bytes} {path : String}
    {b : CompileState} (hknown : Known texts source)
    (hneeds : compiler.needs texts path b source ≤ levels) :
    Couples (b.At (KnownExports texts)) .ofSource (fun _ => True)
      (compiler.compileBlock levels source path) (compiler.compileBlock levels' source path) := by
  -- Each level takes one of those that are needed away.
  induction levels generalizing levels' source b with
  | zero => exact absurd hneeds (Nat.not_succ_le_zero _)
  | succ levels ih =>
      cases levels' with
      | zero => exact absurd hle (Nat.not_succ_le_zero _)
      | succ levels' =>
          rw [compileBlock_succ, compileBlock_succ]
          refine couples_level hstore ?_ hknown hneeds
          intro text b hknown hneeds
          exact ih (Nat.le_of_succ_le_succ hle) hknown (Nat.le_of_lt_succ hneeds)

/-! ## Enough levels -/

/-- The texts that are there when a source is compiled. -/
def knownTexts (compiler : Compiler) (source : Bytes) (s : CompileState) : List Bytes :=
  source :: compiler.store.sources ++ s.exports.map Prod.snd

theorem mem_knownTexts (source : Bytes) (s : CompileState) :
    ∀ data ∈ compiler.store.sources, data ∈ compiler.knownTexts source s :=
  fun _ hdata => List.mem_append_left _ (List.mem_cons_of_mem _ hdata)

theorem known_source (source : Bytes) (s : CompileState) :
    Known (compiler.knownTexts source s) source :=
  ⟨source, List.mem_append_left _ List.mem_cons_self, List.infix_rfl⟩

theorem knownExports (source : Bytes) (s : CompileState) :
    KnownExports (compiler.knownTexts source s) s.exports s.exports := by
  refine ⟨rfl, ?_⟩
  intro name body hfind
  exact ⟨body, List.mem_append_right _ (Table.mem_of_find? hfind), List.infix_rfl⟩

/-- The bound on the levels is enough for all texts that are there. -/
theorem needs_le_levels {source text : Bytes} {s : CompileState}
    (h : Known (compiler.knownTexts source s) text) (path : String) (b : CompileState) :
    compiler.needs (compiler.knownTexts source s) path b text ≤ compiler.levels source s := by
  have hlevels : compiler.levels source s =
      (2 * (compiler.knownTexts source s).foldl
          (fun count text => count + (text.length + 1) * (text.length + 1)) 0 + 2) *
        (longest (compiler.knownTexts source s) + 2) := rfl
  rw [hlevels]
  generalize compiler.knownTexts source s = texts at *
  have hnames := length_flatMap_namesIn_le texts 0
  have hlength := length_le_longest h
  have himporting := unused_le (texts.flatMap namesIn) b.importing
  have hincluding := unused_le (compiler.locations texts path) b.including
  have hlocations : (compiler.locations texts path).length = (texts.flatMap namesIn).length :=
    List.length_map _
  have hunused : unused (texts.flatMap namesIn) b.importing +
      unused (compiler.locations texts path) b.including ≤
      2 * texts.foldl (fun count text => count + (text.length + 1) * (text.length + 1)) 0 := by
    omega
  have hproduct := Nat.mul_le_mul_right (longest texts + 2) hunused
  unfold needs
  rw [Nat.add_mul (2 * _) 2]
  omega

section Alike

variable {α : Type} {V : α → Prop} {m n : CompileM α} {s : CompileState}

/-- What is compiled alike, from a state of which the texts are known, is the same. -/
theorem eq_of_couples (source : Bytes)
    (h : Couples (s.At (KnownExports (compiler.knownTexts source s))) .ofSource V m n) :
    m s = n s :=
  (h s s (.intro (knownExports source s))).eq (fun _ _ hst => hst.eq fun _ _ => And.left)
    fun _ => id

theorem ne_nestingTooDeep_of_couples (source : Bytes)
    (h : Couples (s.At (KnownExports (compiler.knownTexts source s))) .ofSource V m n)
    (s' : CompileState) : m s ≠ .error .nestingTooDeep s' :=
  fun hm => (h.error (.intro (knownExports source s)) hm).1 rfl

end Alike

/-- More levels than the bound change nothing. -/
theorem compileBlock_of_le {levels : Nat} {source : Bytes} {s : CompileState}
    (h : compiler.levels source s ≤ levels) (path : String) :
    compiler.compileBlock levels source path s = compiler.blockOf source path s :=
  (eq_of_couples source (couples_compileBlock (mem_knownTexts source s) h (known_source source s)
    (needs_le_levels (known_source source s) path s))).symm

/-- A source that is met on the way is compiled as if it were compiled alone. -/
theorem couples_blockOf (hstore : ∀ data ∈ compiler.store.sources, data ∈ texts) {levels : Nat}
    {source : Bytes} {path : String} {b : CompileState} (hknown : Known texts source)
    (hneeds : compiler.needs texts path b source ≤ levels) :
    Couples (b.At (KnownExports texts)) .ofSource (fun _ => True)
      (compiler.compileBlock levels source path) (compiler.blockOf source path) := by
  intro s t hst
  rw [← compileBlock_of_le (Nat.le_max_right levels (compiler.levels source t)) path]
  exact couples_compileBlock hstore (Nat.le_max_left _ _) hknown hneeds s t hst

theorem blockOf_ne_nestingTooDeep (source : Bytes) (path : String) (s s' : CompileState) :
    compiler.blockOf source path s ≠ .error .nestingTooDeep s' :=
  ne_nestingTooDeep_of_couples (m := compiler.compileBlock (compiler.levels source s) source path)
    source (couples_blockOf (mem_knownTexts source s) (known_source source s)
      (needs_le_levels (known_source source s) path s)) s'

/-- Compilation without levels: what a source asks for is compiled in the same way. -/
theorem blockOf_eq_passes (source : Bytes) (path : String) (s : CompileState) :
    compiler.blockOf source path s =
      compiler.passes (compiler.nestedWith compiler.blockOf) source path s := by
  have hpos : compiler.levels source s ≠ 0 := by
    unfold levels
    exact Nat.mul_ne_zero (Nat.succ_ne_zero _) (Nat.succ_ne_zero _)
  obtain ⟨levels, hlevels⟩ := Nat.exists_eq_succ_of_ne_zero hpos
  have hknown : Known (compiler.knownTexts source s) source := known_source source s
  have hneeds := needs_le_levels hknown path s
  show compiler.compileBlock (compiler.levels source s) source path s = _
  rw [hlevels] at hneeds ⊢
  refine eq_of_couples source (couples_level (mem_knownTexts source s) ?_ hknown hneeds)
  intro text b htext hless
  exact couples_blockOf (mem_knownTexts source s) htext (Nat.le_of_lt_succ hless)

/-- So is its first pass. -/
theorem scanSource_eq_scan (source : Bytes) (path : String) (s : CompileState) :
    compiler.scanSource source path s =
      Action.scan (compiler.nestedWith compiler.blockOf) compiler.tags compiler.extension source
        path s := by
  have hstore : ∀ data ∈ compiler.store.sources, data ∈ compiler.knownTexts source s :=
    mem_knownTexts source s
  have hknown : Known (compiler.knownTexts source s) source := known_source source s
  have hfollows : ∀ piece ∈ (Reading.ofBytes compiler.tags s.scope source).pieces,
      (compiler.withBlocks (compiler.knownTexts source s) path
        (compiler.compileBlock (compiler.levels source s)) compiler.blockOf).Follows s
          (fun _ => True) piece := by
    refine follows_level hstore ?_ hknown (needs_le_levels hknown path s)
    intro text b htext hless
    exact couples_blockOf hstore htext (Nat.le_of_lt hless)
  have hscan := Comparison.couples_scan (fun _ => ofSource_of_isFault) hfollows
  exact eq_of_couples (m := Action.scan (compiler.nestedWith
    (compiler.compileBlock (compiler.levels source s))) compiler.tags compiler.extension source
      path) source hscan

/-- A file is compiled as its source is, while it is included. -/
theorem couples_compileFileBlock {levels : Nat} (s : CompileState) (h : compiler.levels [] s ≤ levels)
    (name path : String) :
    Couples (s.At (KnownExports (compiler.knownTexts [] s))) .ofSource (fun _ => True)
      (compiler.compileFileBlock levels name path)
      (compiler.compileFileWith compiler.blockOf name path) := by
  refine couples_compileFileWith (fun _ => nofun) nofun ?_
  intro _ content hload
  have hcontent : Known (compiler.knownTexts [] s) content :=
    ⟨content, mem_knownTexts [] s _ (compiler.store.mem_sources hload), List.infix_rfl⟩
  refine couples_blockOf (mem_knownTexts [] s) hcontent ?_
  exact Nat.le_trans (needs_le_levels hcontent path _) h

/-- Compilation ends: the levels never run out, and more of them change nothing.  So a
source is compiled by the recursion that knows no levels, and so is a file. -/
theorem compile_terminates (compiler : Compiler) (source : Bytes) (name path : String)
    (s : CompileState) :
    (∀ more, compiler.compileBlock (compiler.levels source s + more) source path s =
        compiler.passes (compiler.nestedWith compiler.blockOf) source path s) ∧
      (∀ more, compiler.compileFileBlock (compiler.levels [] s + more) name path s =
        compiler.compileFileWith compiler.blockOf name path s) ∧
      (∀ s', compiler.compileSource source path s ≠ .error .nestingTooDeep s') ∧
      ∀ s', compiler.compileFile name path s ≠ .error .nestingTooDeep s' := by
  refine ⟨?_, ?_, ?_, ?_⟩
  · intro more
    rw [compileBlock_of_le (Nat.le_add_right _ more), blockOf_eq_passes]
  · intro more
    exact eq_of_couples [] (couples_compileFileBlock s (Nat.le_add_right _ more) name path)
  · intro s' h
    exact blockOf_ne_nestingTooDeep source path s s' (compileSource_eq_error.1 h)
  · intro s' h
    have hblock : compiler.compileFileBlock (compiler.levels [] s) name path s =
        .error .nestingTooDeep s' :=
      compileFile_eq_error.1 h
    exact ne_nestingTooDeep_of_couples []
      (couples_compileFileBlock s (Nat.le_refl _) name path) s' hblock

end Compiler

end Stencil
