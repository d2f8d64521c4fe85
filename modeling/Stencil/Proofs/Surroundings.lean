/-
# `Stencil.Proofs.Surroundings` — compilation in larger surroundings

A compilation depends on its surroundings by what it looks up: files in the store, and bodies
in the table of exports.  One that succeeds has found all that it looked for.  With more files,
and with more names in the table to begin with, it finds the same, for what is added hides
nothing: a name that the compilation exports itself is overwritten, be it new or not.

**Proved here**, for every source, directory, extension, table of files and state:

    what compiles goes on to compile, to the same code, with more files
    and more exports under other names                        (`Compiler.compileSource_of_larger`)

The invariant is that the second table has what the first has under a name (`Table.Within`).
The converse fails, of course: a file or a name that is looked for in vain may be among those
that are added.  So the compilations part after an error (`Faults.any`).
-/
import Stencil.Proofs.Exporting

namespace Stencil

/-! ## Larger tables and stores -/

namespace Table

variable {κ α : Type} [DecidableEq κ]

/-- What the first table has under a key, the second has too. -/
def Within (t u : Table κ α) : Prop :=
  ∀ key value, t.find? key = some value → u.find? key = some value

theorem Within.insert {t u : Table κ α} (h : t.Within u) (key : κ) (value : α) :
    (t.insert key value).Within (u.insert key value) := by
  intro other found hfind
  by_cases hkey : other = key
  · subst hkey
    rw [find?_insert_self] at hfind ⊢
    exact hfind
  · rw [find?_insert_ne _ _ hkey] at hfind ⊢
    exact h other found hfind

/-- Pairs with new keys hide nothing. -/
theorem within_insertAll {t : Table κ α} {pairs : List (κ × α)}
    (h : ∀ p ∈ pairs, t.find? p.1 = none) : t.Within (t.insertAll pairs) := by
  intro key value hfind
  rw [find?_insertAll]
  cases hpairs : pairs.reverse.lookup key with
  | none => exact hfind
  | some other =>
      have hnone := h _ (mem_of_lookup_reverse hpairs)
      cases hnone.symm.trans hfind

end Table

/-- What the first store has at a location, the second has too. -/
def Store.Within (store store' : Store) : Prop :=
  ∀ location source, store.load location = some source → store'.load location = some source

namespace SourceTable

/-- Puts sources at some locations, one after the other. -/
def addAll (files : SourceTable) (more : List (String × Bytes)) : SourceTable :=
  more.foldl (fun table file => add table file.1 file.2) files

/-- Sources at new locations hide nothing, however they are spelled. -/
theorem within_addAll {files : SourceTable} {more : List (String × Bytes)}
    (h : ∀ file ∈ more, files.find? (Location.normalize file.1) = none) :
    files.store.Within (files.addAll more).store := by
  have hinsert : files.addAll more =
      files.insertAll (more.map fun file => (Location.normalize file.1, file.2)) := by
    rw [Table.insertAll, List.foldl_map]
    rfl
  have hwithin : files.Within (files.addAll more) := by
    rw [hinsert]
    exact Table.within_insertAll (List.forall_mem_map.2 h)
  intro location source hload
  exact hwithin _ source hload

end SourceTable

/-! ## Compilation -/

namespace Compiler

variable {compiler : Compiler} {store : Store}

/-- The compiler with another store. -/
def withStore (compiler : Compiler) (store : Store) : Compiler := { compiler with store := store }

/-- With a larger store, and from a larger table, a source compiles alike if it compiles. -/
theorem couples_withStore (hstore : compiler.store.Within store) (levels : Nat) (source : Bytes)
    (path : String) (b : CompileState) :
    Couples (b.At Table.Within) .any (fun _ => True) (compiler.compileBlock levels source path)
      ((compiler.withStore store).compileBlock levels source path) := by
  induction levels generalizing source b with
  | zero => exact .throw trivial
  | succ levels ih =>
      let larger := compiler.withStore store
      let cmp : Comparison := ⟨compiler.nestedWith (compiler.compileBlock levels),
        larger.nestedWith (larger.compileBlock levels), compiler.extension, path, [],
        Table.Within, .any⟩
      refine (couples_passes cmp (fun _ => True) rfl (fun _ _ => trivial) ?_).imp fun _ _ => trivial
      intro piece _
      refine ⟨?_, fun name body _ E G hEG => hEG.insert name body⟩
      intro r _
      cases r with
      | body body => exact ih body _
      | file name =>
          refine couples_compileFileBehind List.not_mem_nil (fun _ => trivial) ?_ ?_
          · exact fun _ => ⟨trivial, .inl trivial⟩
          · exact fun _ content hload => ⟨hstore _ content hload, ih content _⟩
      | imported name =>
          intro E G hEG
          refine ⟨fun _ => ⟨trivial, .inl trivial⟩, ?_⟩
          intro body hfind
          exact ⟨hEG name body hfind, fun _ => trivial, fun _ => ih body _⟩

/-- A block that is compiled is compiled in larger surroundings too. -/
theorem blockOf_withStore (hstore : compiler.store.Within store) {source : Bytes} {path : String}
    {s s' : CompileState} {b : Block} (hok : compiler.blockOf source path s = .ok b s')
    {exports : Table String Bytes} (hexports : s.exports.Within exports) :
    ∃ s'', (compiler.withStore store).blockOf source path (s.withExports exports) = .ok b s'' ∧
      s'.exports.Within s''.exports := by
  let levels := max (compiler.levels source s)
    ((compiler.withStore store).levels source (s.withExports exports))
  -- Both have enough levels if they have as many as the one with more of them.
  have hsmall : compiler.compileBlock levels source path s = .ok b s' :=
    (compileBlock_of_le (Nat.le_max_left _ _) path).trans hok
  have hstart : s.At Table.Within s (s.withExports exports) := .intro hexports
  obtain ⟨-, s'', hlarge, ⟨hfinal⟩⟩ :=
    (couples_withStore hstore levels source path s).ok hstart hsmall
  rw [compileBlock_of_le (Nat.le_max_right _ _)] at hlarge
  exact ⟨_, hlarge, hfinal⟩

/-- What compiles goes on to compile, to the same code, if files are added at new locations,
and bodies under names that are not in the table of exports. -/
theorem compileSource_of_larger {files : SourceTable} {tags : TagTable} {extension path : String}
    {source : Bytes} {s s' : CompileState} {t : Template}
    (hok : (Compiler.mk files.store tags extension).compileSource source path s = .ok t s')
    {more extra : List (String × Bytes)}
    (hmore : ∀ file ∈ more, files.find? (Location.normalize file.1) = none)
    (hextra : ∀ entry ∈ extra, s.exports.find? entry.1 = none) :
    ∃ s'', (Compiler.mk (files.addAll more).store tags extension).compileSource source path
        (s.withExports (s.exports.insertAll extra)) = .ok t s'' ∧
      s'.exports.Within s''.exports := by
  obtain ⟨b, hblock, rfl⟩ := compileSource_eq_ok.1 hok
  obtain ⟨s'', hlarge, hexports⟩ := blockOf_withStore (SourceTable.within_addAll hmore) hblock
    (Table.within_insertAll hextra)
  exact ⟨s'', compileSource_eq_ok.2 ⟨b, hlarge, rfl⟩, hexports⟩

/-- One file. -/
def oneFile : SourceTable := SourceTable.ofFiles [("a.leaf", Utf8.encode "A")]

/-- An import, whose name is exported behind it, and the file. -/
def findingSource : Bytes :=
  Utf8.encode "#import(\"n\")#embed(\"./a\")#export(\"n\") \x7bN\x7d"

/-- What they are compiled to. -/
def findingBlock : Block := .raw (Utf8.encode "N") (.raw (Utf8.encode "A") .done)

/-- One of the names added is the one that is imported: its body is overwritten. -/
theorem compileSource_of_larger_findingSource :
    let more := [("b.leaf", Utf8.encode "B"), ("./b.leaf", Utf8.encode "C")]
    let extra := [("n", Utf8.encode "other"), ("m", Utf8.encode "M")]
    (Compiler.mk oneFile.store builtinTags ".leaf").compileSource findingSource "" .fresh =
        .ok ⟨findingBlock.code⟩ (CompileState.fresh.withExports [("n", Utf8.encode "N")]) ∧
      (∀ file ∈ more, oneFile.find? (Location.normalize file.1) = none) ∧
      (∀ entry ∈ extra, CompileState.fresh.exports.find? entry.1 = none) ∧
      ∃ s, (Compiler.mk (oneFile.addAll more).store builtinTags ".leaf").compileSource findingSource
        "" (CompileState.fresh.withExports (Table.insertAll [] extra)) =
          .ok ⟨findingBlock.code⟩ s := by
  intro more extra
  have hok : (Compiler.mk oneFile.store builtinTags ".leaf").compileSource findingSource "" .fresh =
      .ok ⟨findingBlock.code⟩ (CompileState.fresh.withExports [("n", Utf8.encode "N")]) := by
    decide +kernel
  have hmore : ∀ file ∈ more, oneFile.find? (Location.normalize file.1) = none := by
    decide +kernel
  have hextra : ∀ entry ∈ extra, CompileState.fresh.exports.find? entry.1 = none := by
    decide +kernel
  obtain ⟨s, hlarger, -⟩ := compileSource_of_larger hok hmore hextra
  exact ⟨hok, hmore, hextra, s, hlarger⟩

end Compiler

end Stencil
