/-
# `Stencil.Proofs.Circularity` — no file is included within itself

Whether a file is being included is decided by its location as it is spelled, while a
store in memory finds a file under every spelling of its location.  So `a` and `./a` pass
the check, and the file at `a` may well be included while it is being included.  It does
not go through: the compilation ends in an error.

Why that is so stands in the source of the file.  What a source meets (`Meets`) — the
files it includes and the names it imports, directly or in the body of a tag — does not
depend on the exports or on the scope.  On the way from the outer inclusion to the inner
one some file or name is met first.  It is being included, or imported, when the inner one
begins; and the inner one, which reads the same source, meets it again.

    a source that compiles meets nothing that is under way   (`Compiler.couples_clear`)
    the outer inclusion has met something that is under way  (`Compiler.Ancestry`)

Beginnings are noticed by a second compiler, which raises an alarm at each inclusion that
a watch tells of (`Compiler.compileWatched`).  It does as the first does until then.

**Proved here**, for every store in memory, compiler, source and directory:

    a compilation that begins to include a file whose location, normalized, is that of a
    file which is being included ends in an error   (`Compiler.compileSource_of_begins_respelled`)
-/
import Stencil.Proofs.Termination

namespace Stencil

open EStateM (Result)

/-! ## What a source meets -/

/-- A piece of the source has the request. -/
def Asks (tags : TagTable) (scope : Option Bytes) (source : Bytes) (r : Request) : Prop :=
  ∃ piece ∈ (Reading.ofBytes tags scope source).pieces, r ∈ piece.requests

/-- The scope is none, or a path. -/
def IsScope (scope : Option Bytes) : Prop :=
  ∀ path ∈ scope, ∃ segments, Path.parse path = .ok segments

theorem Scope.requests_piece (p : Scope) (piece : Piece) :
    (p.piece piece).requests = piece.requests := by
  cases piece with
  | conditional branches otherwise =>
      show (branches.map p.guarded).map (fun branch => Request.body branch.2) ++ _ = _
      rw [List.map_map]
      rfl
  | emit | scopedBody | loop | embedFile | exportBody | importBody | extendFile => rfl

/-- A source asks for the same under every scope. -/
theorem asks_iff {tags : TagTable} {scope : Option Bytes} {source : Bytes} (h : IsScope scope)
    (r : Request) : Asks tags scope source r ↔ Asks tags none source r := by
  cases scope with
  | none => exact Iff.rfl
  | some path =>
      obtain ⟨segments, hparse⟩ := h path rfl
      let p : Scope := ⟨path, segments, hparse⟩
      have hpieces : (Reading.ofBytes tags (some path) source).pieces =
          (Reading.ofBytes tags none source).pieces.map p.piece :=
        (p.reads_ofCursor tags none [] (.ofBytes source)).1
      unfold Asks
      rw [hpieces]
      constructor
      · rintro ⟨_, hmapped, hr⟩
        obtain ⟨piece, hpiece, rfl⟩ := List.mem_map.1 hmapped
        exact ⟨piece, hpiece, p.requests_piece piece ▸ hr⟩
      · rintro ⟨piece, hpiece, hr⟩
        exact ⟨p.piece piece, List.mem_map_of_mem hpiece, (p.requests_piece piece).symm ▸ hr⟩

/-- The files and the names that a source asks for, itself or in the body of a tag. -/
inductive Meets (tags : TagTable) : Bytes → Request → Prop where
  | file {source : Bytes} {name : String} (h : Asks tags none source (.file name)) :
      Meets tags source (.file name)
  | imported {source : Bytes} {name : String} (h : Asks tags none source (.imported name)) :
      Meets tags source (.imported name)
  | body {source body : Bytes} {r : Request} (h : Asks tags none source (.body body))
      (hr : Meets tags body r) : Meets tags source r

/-- Where the first never succeeds, the second may do anything. -/
theorem Couples.never {σ α : Type} {R : σ → σ → Prop} {V : α → Prop}
    {m n o : EStateM CompileError σ α} (h : Couples R .any (fun _ => False) m n) :
    Couples R .any V m o := by
  intro s t hst
  cases hm : m s with
  | ok a s' => exact (h.ok hst hm).1.elim
  | error e s' => exact ⟨trivial, .inl trivial⟩

namespace Compiler

section UnderWay

variable (compiler : Compiler) (path : String)

/-- What is asked for is being included, or imported. -/
def UnderWay (b : CompileState) : Request → Prop
  | .file name => Location.join path (name ++ compiler.extension) ∈ b.including
  | .imported name => name ∈ b.importing
  | .body _ => False

/-- The source meets nothing that is under way. -/
def Clear (b : CompileState) (source : Bytes) : Prop :=
  ∀ r, Meets compiler.tags source r → ¬ compiler.UnderWay path b r

/-- What answering a request says about what is under way. -/
def Cleared (b : CompileState) : Request → Prop
  | .body body => compiler.Clear path b body
  | .file name => ¬ compiler.UnderWay path b (.file name)
  | .imported name => ¬ compiler.UnderWay path b (.imported name)

variable {compiler path}

theorem clear_of_cleared {b : CompileState} {source : Bytes} (hscope : IsScope b.scope)
    (h : ∀ piece ∈ (Reading.ofBytes compiler.tags b.scope source).pieces,
      ∀ r ∈ piece.requests, compiler.Cleared path b r) : compiler.Clear path b source := by
  have hasks : ∀ r, Asks compiler.tags none source r → compiler.Cleared path b r := by
    intro r hr
    obtain ⟨piece, hpiece, hr⟩ := (asks_iff hscope r).2 hr
    exact h piece hpiece r hr
  intro r hr
  cases hr with
  | file h => exact hasks _ h
  | imported h => exact hasks _ h
  | body h hr => exact hasks _ h r hr

theorem isScope_bodyScope {b : CompileState} {source : Bytes} {piece : Piece}
    (hscope : IsScope b.scope) (h : piece.Within source) :
    IsScope (piece.bodyScope b.scope) := by
  cases piece with
  | scopedBody inner body =>
      rintro _ ⟨⟩
      exact h.scope inner body rfl
  | emit | loop | conditional | embedFile | exportBody | importBody | extendFile => exact hscope

/-- A source that compiles meets nothing that is under way. -/
theorem couples_clear (levels : Nat) {source : Bytes} {b : CompileState}
    (hscope : IsScope b.scope) :
    Couples (b.At Eq) .any (fun _ => compiler.Clear path b source)
      (compiler.compileBlock levels source path) (compiler.compileBlock levels source path) := by
  induction levels generalizing source b with
  | zero => exact .throw trivial
  | succ levels ih =>
      let cmp : Comparison := ⟨compiler.nestedWith (compiler.compileBlock levels),
        compiler.nestedWith (compiler.compileBlock levels), compiler.extension, path, [], Eq, .any⟩
      rw [compileBlock_succ]
      refine (couples_passes cmp (compiler.Cleared path b) rfl (fun _ _ => trivial) ?_).imp
        fun _ h => clear_of_cleared hscope h
      intro piece hpiece
      have hbody := isScope_bodyScope hscope (Reading.within_ofBytes source piece hpiece)
      refine Comparison.follows_of_eq rfl ?_
      intro r hr
      cases r with
      | body body => exact ih hbody
      | file name =>
          refine couples_compileFileWith (fun _ => trivial) trivial ?_
          intro hfresh content hload
          exact (ih hbody).imp fun _ _ => hfresh
      | imported name =>
          refine Comparison.answers_imported_of_eq rfl (fun _ => trivial) ?_
          intro hfresh body
          exact (ih hbody).imp fun _ _ => hfresh

end UnderWay

/-! ## Beginnings -/

section Watch

variable (compiler : Compiler) (watch : String → List String → Bool) (alarm : CompileError)

/-- Compiles a file, but raises an alarm instead where the watch tells of its location,
next to the locations that are being included. -/
def compileFileWatched (block : Bytes → String → CompileM Block) (name path : String) :
    CompileM Block := do
  if watch (Location.join path name) (← get).including then throw alarm
  else compiler.compileFileWith block name path

/-- Compiles a source, but for the alarms. -/
def compileWatched : Nat → Bytes → String → CompileM Block
  | 0, _, _ => throw .nestingTooDeep
  | levels + 1, source, path =>
    compiler.passes ⟨compileWatched levels, compiler.compileFileWatched watch alarm
      (compileWatched levels)⟩ source path

/-- In the course of compiling the source, the compilation of a file begins that the watch
tells of: for there an alarm, whichever it is, would end the compilation. -/
def Begins (source : Bytes) (path : String) (s : CompileState) : Prop :=
  ∃ alarm, compiler.compileWatched watch alarm (compiler.levels source s) source path s ≠
    compiler.blockOf source path s

end Watch

/-- The location is, but for its spelling, one of those that are being included. -/
def respelled (location : String) (including : List String) : Bool :=
  including.any fun other => Location.normalize other == Location.normalize location

/-- Each file that is being included has met something that is under way, unless the
source is still a part of it.  So have the files at the origins, which are where the
compilation began. -/
structure Ancestry (compiler : Compiler) (path : String) (origins : List String)
    (b : CompileState) (source : Bytes) : Prop where
  scope : IsScope b.scope
  including : ∀ location ∈ origins ++ b.including, ∀ content,
    compiler.store.load location = some content →
      (∃ r, Meets compiler.tags content r ∧ compiler.UnderWay path b r) ∨
        ∀ r, Meets compiler.tags source r → Meets compiler.tags content r

namespace Ancestry

variable {compiler : Compiler} {path : String} {origins : List String} {b : CompileState}
  {source : Bytes}

theorem body {scope : Option Bytes} {body : Bytes} (h : compiler.Ancestry path origins b source)
    (hscope : IsScope scope) (hbody : Asks compiler.tags none source (.body body)) :
    compiler.Ancestry path origins { b with scope := scope } body := by
  refine ⟨hscope, ?_⟩
  intro location hlocation content hload
  rcases h.including location hlocation content hload with hmet | hpart
  · exact .inl hmet
  · exact .inr fun r hr => hpart r (.body hbody hr)

/-- The file or name that is next under way has been met by all that are being included. -/
theorem met {b' : CompileState} {r : Request} (h : compiler.Ancestry path origins b source)
    (hmeets : Meets compiler.tags source r) (hunderWay : compiler.UnderWay path b' r)
    (hmono : ∀ r, compiler.UnderWay path b r → compiler.UnderWay path b' r) :
    ∀ location ∈ origins ++ b.including, ∀ content,
      compiler.store.load location = some content →
        ∃ r, Meets compiler.tags content r ∧ compiler.UnderWay path b' r := by
  intro location hlocation content hload
  rcases h.including location hlocation content hload with ⟨r, hr, hold⟩ | hpart
  · exact ⟨r, hr, hmono r hold⟩
  · exact ⟨_, hpart _ hmeets, hunderWay⟩

theorem underWay_including {location : String} {r : Request} (h : compiler.UnderWay path b r) :
    compiler.UnderWay path { b with including := b.including ++ [location] } r := by
  cases r with
  | body _ => exact h
  | file _ => exact List.mem_append_left _ h
  | imported _ => exact h

theorem underWay_importing {name : String} {r : Request} (h : compiler.UnderWay path b r) :
    compiler.UnderWay path { b with importing := b.importing ++ [name] } r := by
  cases r with
  | body _ => exact h
  | file _ => exact h
  | imported _ => exact List.mem_append_left _ h

end Ancestry

section Watched

variable {compiler : Compiler} {path : String} {origins : List String}
  {watch : String → List String → Bool} {alarm : CompileError} {levels : Nat}

/-- The watch tells of locations only whose file is at an origin, or is being included. -/
def Justified (compiler : Compiler) (origins : List String)
    (watch : String → List String → Bool) : Prop :=
  ∀ location including, watch location including = true →
    ∃ outer ∈ origins ++ including, compiler.store.load outer = compiler.store.load location

/-- Sources are compiled as they are when the watch raises an alarm, or fail. -/
def Watched (compiler : Compiler) (path : String) (origins : List String)
    (watch : String → List String → Bool) (alarm : CompileError) (levels : Nat) : Prop :=
  ∀ source b, compiler.Ancestry path origins b source → Couples (b.At Eq) .any (fun _ => True)
    (compiler.compileBlock levels source path)
    (compiler.compileWatched watch alarm levels source path)

/-- A file that is included within itself does not compile. -/
theorem couples_compileFileWatched (justified : compiler.Justified origins watch)
    (watched : compiler.Watched path origins watch alarm levels) {source : Bytes} {name : String}
    {b : CompileState} (ancestry : compiler.Ancestry path origins b source)
    (hname : Asks compiler.tags none source (.file name)) :
    Couples (b.At Eq) .any (fun _ => True)
      (compiler.compileFileWith (compiler.compileBlock levels) (name ++ compiler.extension) path)
      (compiler.compileFileWatched watch alarm
        (compiler.compileWatched watch alarm levels) (name ++ compiler.extension) path) := by
  let location := Location.join path (name ++ compiler.extension)
  let inner : CompileState := { b with including := b.including ++ [location] }
  have hunderWay : compiler.UnderWay path inner (.file name) := List.mem_concat_self
  have hmet := ancestry.met (.file hname) hunderWay fun _ => Ancestry.underWay_including
  by_cases hwatch : watch location b.including = true
  · -- Its source meets what its outer inclusion has met.
    refine Couples.never (n := compiler.compileFileWith (compiler.compileBlock levels)
      (name ++ compiler.extension) path) (couples_compileFileWith (fun _ => trivial) trivial ?_)
    intro _ content hload
    obtain ⟨outer, houter, hsame⟩ := justified location b.including hwatch
    obtain ⟨r, hr, hagain⟩ := hmet outer houter content (hsame.trans hload)
    have hclear : Couples (inner.At Eq) .any (fun _ => compiler.Clear path inner content)
        (compiler.compileBlock levels content path) (compiler.compileBlock levels content path) :=
      couples_clear levels ancestry.scope
    exact hclear.imp fun _ hclear => hclear r hr hagain
  · rintro _ _ ⟨hE⟩
    show Agree _ _ _ _ ((if watch location b.including = true then _ else _ : CompileM Block) _)
    rw [if_neg hwatch]
    refine couples_compileFileWith (fun _ => trivial) trivial ?_ _ _ (.intro hE)
    intro _ content hload
    refine watched content inner ⟨ancestry.scope, ?_⟩
    intro other hother content' hload'
    rw [← List.append_assoc] at hother
    rcases List.mem_append.1 hother with hold | hnew
    · exact .inl (hmet other hold content' hload')
    · obtain rfl := List.mem_singleton.1 hnew
      cases hload.symm.trans hload'
      exact .inr fun _ => id

theorem watched_compileBlock (justified : compiler.Justified origins watch) (path : String)
    (alarm : CompileError) (levels : Nat) :
    compiler.Watched path origins watch alarm levels := by
  induction levels with
  | zero => exact fun _ _ _ => .throw trivial
  | succ levels ih =>
      intro source b ancestry
      let cmp : Comparison := ⟨compiler.nestedWith (compiler.compileBlock levels),
        ⟨compiler.compileWatched watch alarm levels, compiler.compileFileWatched watch alarm
          (compiler.compileWatched watch alarm levels)⟩, compiler.extension, path, [], Eq, .any⟩
      rw [compileBlock_succ]
      refine (couples_passes cmp (fun _ => True) rfl (fun _ _ => trivial) ?_).imp fun _ _ => trivial
      intro piece hpiece
      have hscope := isScope_bodyScope ancestry.scope (Reading.within_ofBytes source piece hpiece)
      have hasks : ∀ r ∈ piece.requests, Asks compiler.tags none source r :=
        fun r hr => (asks_iff ancestry.scope r).1 ⟨piece, hpiece, hr⟩
      refine Comparison.follows_of_eq rfl ?_
      intro r hr
      cases r with
      | body body => exact ih body _ (ancestry.body hscope (hasks _ hr))
      | file name =>
          have here : compiler.Ancestry path origins
              { b with scope := piece.bodyScope b.scope } source :=
            ⟨hscope, ancestry.including⟩
          exact couples_compileFileWatched justified ih here (hasks _ hr)
      | imported name =>
          refine Comparison.answers_imported_of_eq rfl (fun _ => trivial) ?_
          intro _ body
          refine ih body _ ⟨hscope, ?_⟩
          intro location hlocation content hload
          refine .inl (ancestry.met (.imported (hasks _ hr)) ?_
            (fun _ => Ancestry.underWay_importing) location hlocation content hload)
          exact List.mem_concat_self

/-- What compiles in spite of the watch compiles to the same if it is watched. -/
theorem compileWatched_of_ok (justified : compiler.Justified origins watch) {source : Bytes}
    {b : CompileState} (ancestry : compiler.Ancestry path origins b source) (alarm : CompileError)
    {block : Block} {s' : CompileState}
    (h : compiler.compileBlock levels source path b = .ok block s') :
    compiler.compileWatched watch alarm levels source path b = .ok block s' := by
  have hwatched := watched_compileBlock justified path alarm levels
  obtain ⟨-, t', hok, hst⟩ := (hwatched source b ancestry).ok (.intro rfl) h
  obtain rfl := hst.eq fun _ _ => id
  exact hok

end Watched

section Respelled

variable {compiler : Compiler} {path : String}

/-- In a store that finds a file under every spelling of its location, respelled locations
have the file of one that is being included. -/
theorem justified_respelled
    (hstore : ∀ a b, Location.normalize a = Location.normalize b →
      compiler.store.load a = compiler.store.load b) : compiler.Justified [] respelled := by
  intro location including hwatch
  obtain ⟨outer, houter, hsame⟩ := List.any_eq_true.1 hwatch
  exact ⟨outer, houter, hstore _ _ (eq_of_beq hsame)⟩

/-- From a state in which nothing is under way, what begins a file within itself fails. -/
theorem blockOf_eq_error_of_begins
    (hstore : ∀ a b, Location.normalize a = Location.normalize b →
      compiler.store.load a = compiler.store.load b) {source : Bytes}
    (h : compiler.Begins respelled source path .fresh) :
    ∃ e s', compiler.blockOf source path .fresh = .error e s' := by
  obtain ⟨alarm, halarm⟩ := h
  have ancestry : compiler.Ancestry path [] .fresh source := ⟨nofun, nofun⟩
  cases hblock : compiler.blockOf source path .fresh with
  | error e s' => exact ⟨e, s', rfl⟩
  | ok b s' =>
      have hwatched := compileWatched_of_ok (justified_respelled hstore) ancestry alarm hblock
      exact absurd (hwatched.trans hblock.symm) halarm

end Respelled

/-- A compilation that begins to include a file within itself, however it spells its
location, ends in an error. -/
theorem compileSource_of_begins_respelled (files : SourceTable) (tags : TagTable)
    (extension : String) {source : Bytes} {path : String}
    (h : (Compiler.mk files.store tags extension).Begins respelled source path .fresh) :
    ∃ e s', (Compiler.mk files.store tags extension).compileSource source path .fresh =
      .error e s' := by
  have hstore : ∀ a b, Location.normalize a = Location.normalize b →
      files.store.load a = files.store.load b := by
    intro a b hsame
    exact congrArg files.find? hsame
  obtain ⟨e, s', hblock⟩ := blockOf_eq_error_of_begins hstore h
  exact ⟨e, s', compileSource_eq_error.2 hblock⟩

/-- A file that embeds itself, as `./a`. -/
def selfEmbedding : SourceTable := SourceTable.ofFiles [("a.leaf", Utf8.encode "#embed(\"./a\")")]

theorem compileSource_of_begins_respelled_selfEmbedding :
    (Compiler.mk selfEmbedding.store builtinTags ".leaf").Begins respelled
        (Utf8.encode "#embed(\"a\")") "" .fresh ∧
      ∃ e s', (Compiler.mk selfEmbedding.store builtinTags ".leaf").compileSource
        (Utf8.encode "#embed(\"a\")") "" .fresh = .error e s' := by
  have hbegins : (Compiler.mk selfEmbedding.store builtinTags ".leaf").Begins respelled
      (Utf8.encode "#embed(\"a\")") "" .fresh :=
    ⟨.nestingTooDeep, by decide +kernel⟩
  exact ⟨hbegins, compileSource_of_begins_respelled selfEmbedding builtinTags ".leaf" hbegins⟩

end Compiler

end Stencil
