/-
# `Stencil.Proofs.Textual` — text in, text out

Sources are bytes, and they are cut without looking at characters.  All the same a text is
cut into texts: the bytes at which it is cut are below 0x80, and part of no longer character
(`Utf8.IsText.cut`).  So the bodies of a text are texts, and so are the raw bytes that it
puts into a block.  A run only writes such bytes, and the values of the context, one behind
the other.

**Proved here**, for every compiler, source, directory and context, where files, source and
byte strings in the context are texts:

    what a template writes is a text, and decoding it does not fail  (`Compiler.compileSource_text`)
-/
import Stencil.Proofs.Compiled
import Stencil.Render.Template

namespace Stencil

open EStateM (Result)
open Utf8 (IsText)

/-! ## Values -/

/-- Every byte string in the value is a text. -/
inductive Value.Textual : Value → Prop where
  | absent : Textual .absent
  | bool (b : Bool) : Textual (.bool b)
  | int (i : Int) : Textual (.int i)
  | float (x : Binary64) : Textual (.float x)
  | text (t : Text) : Textual (.text t)
  | bytes {data : Bytes} (h : IsText data) : Textual (.bytes data)
  | sequence {items : List Value} (h : ∀ v ∈ items, Textual v) : Textual (.sequence items)
  | object {entries : List (Text × Value)} (h : ∀ v ∈ entries.map Prod.snd, Textual v) :
      Textual (.object entries)

/-- Every byte string in the values of the context is a text. -/
def Context.Textual (context : Context) : Prop := context.Every Value.Textual

namespace Value

theorem inherited_textual : Inherited Textual where
  absent := .absent
  bool := .bool
  items := by
    rintro _ ⟨⟩
    assumption
  entries := by
    rintro _ ⟨⟩
    assumption

/-- What is printed is a text. -/
theorem Textual.output {v : Value} {data : Bytes} (h : v.Textual) (hdata : v.output = .ok data) :
    IsText data := by
  cases h with
  | bytes h =>
      cases hdata
      exact h
  | int i =>
      obtain ⟨text, -, rfl⟩ := map_eq_ok.1 (mapError_eq_ok.1 hdata)
      exact Utf8.isText_encode text
  | text t =>
      -- a text with a lone surrogate is not printed
      cases t with
      | whole s =>
          cases hdata
          exact Utf8.isText_encode s
      | broken => cases hdata
  | bool | float =>
      cases hdata
      exact Utf8.isText_encode _
  | absent | sequence | object =>
      cases hdata
      exact Utf8.isText_nil

end Value

/-! ## Compilation -/

theorem cuttable_isText : Cuttable IsText := ⟨Utf8.isText_encode "#", IsText.cut⟩

/-- The raw bytes in the block are texts. -/
def Block.Textual (b : Block) : Prop := b.Every IsText (fun _ => True) fun _ => True

/-- Every source in the store is a text. -/
def Store.Textual (store : Store) : Prop :=
  ∀ location source, store.load location = some source → IsText source

/-- The bodies that are kept under names are texts. -/
def CompileState.Textual (s : CompileState) : Prop :=
  ∀ name body, s.exports.find? name = some body → IsText body

namespace Compiler

variable {compiler : Compiler}

/-- Texts are compiled to blocks of texts. -/
theorem textual_blockOf (hstore : compiler.store.Textual) {source : Bytes} (hsource : IsText source)
    {path : String} {s s' : CompileState} (hs : s.Textual) {b : Block}
    (h : compiler.blockOf source path s = .ok b s') : s'.Textual ∧ b.Textual := by
  have hcarries := carries_cut cuttable_isText compiler hstore (compiler.levels source s)
  obtain ⟨hs', hb⟩ := hcarries source path hsource s b s' hs h
  exact ⟨hs', hb.imp (fun _ hdata => hdata.1) (fun _ _ => trivial) fun _ _ => trivial⟩

end Compiler

/-! ## Runs -/

namespace Run

/-- From a text written to a text written. -/
abbrev WritesText (m : Run Unit) : Prop :=
  Maintains (fun p : Progress => IsText p.output) m fun _ => True

theorem writesText_step (limits : Limits) : WritesText (step limits) := by
  intro p _ p' hp h
  unfold step at h
  split at h
  · cases h
  · cases h
    exact ⟨hp, trivial⟩

theorem writesText_write {data : Bytes} (h : IsText data) : WritesText (write data) := by
  rintro p _ _ hp ⟨⟩
  refine ⟨?_, trivial⟩
  show IsText (data.reverseAux p.written).reverse
  rw [List.reverseAux_eq, List.reverse_append, List.reverse_reverse]
  exact hp.append h

theorem writesText_nested (depth : Nat) {body : Nat → Run Unit}
    (h : ∀ inner, WritesText (body inner)) : WritesText (nested depth body) := by
  cases depth with
  | zero => exact .throw _
  | succ inner => exact h inner

theorem maintains_given {α : Type} {I : Progress → Prop} (x : Except RunError α) :
    Maintains I (given x) fun a => x = .ok a := by
  cases x with
  | ok a => exact .pure rfl
  | error e => exact .throw e

end Run

namespace Block

open Run

/-- What is common to all statements: a step, and the value of an expression. -/
theorem writesText_value {context : Context} (hcontext : context.Textual) (limits : Limits)
    (e : Expr) {f : Value → Run Unit} (h : ∀ v : Value, v.Textual → WritesText (f v)) :
    WritesText (do step limits; let v ← given (e.value context); f v) := by
  refine .after (writesText_step limits) fun _ => .bind (maintains_given _) ?_
  intro v hv
  exact h v (Value.inherited_textual.value hcontext hv)

/-- A block of texts writes texts, in a context of texts. -/
theorem writesText_run {b : Block} (hb : b.Textual) (limits : Limits) (depth : Nat)
    {context : Context} (hcontext : context.Textual) : WritesText (b.run limits depth context) := by
  induction b generalizing depth context with
  | done => exact .pure trivial
  | raw data next ih =>
      refine .after (writesText_step limits) fun _ => ?_
      exact .after (writesText_write hb.1) fun _ => ih hb.2 depth hcontext
  | print e next ih =>
      refine writesText_value hcontext limits e fun v hv => ?_
      refine .bind (maintains_given _) fun data hdata => ?_
      have htext : IsText data := hv.output (mapError_eq_ok.1 hdata)
      exact .after (writesText_write htext) fun _ => ih hb.2 depth hcontext
  | branch e yes next ihY ih =>
      have hyes : WritesText (nested depth fun inner => yes.run limits inner context) :=
        writesText_nested depth fun inner => ihY hb.2.1 inner hcontext
      have hnext := ih hb.2.2 depth hcontext
      refine writesText_value hcontext limits e fun v _ => ?_
      split
      · exact .after hyes fun _ => hnext
      · exact hnext
  | branchElse e yes no next ihY ihN ih =>
      have hyes : WritesText (nested depth fun inner => yes.run limits inner context) :=
        writesText_nested depth fun inner => ihY hb.2.1 inner hcontext
      have hno : WritesText (nested depth fun inner => no.run limits inner context) :=
        writesText_nested depth fun inner => ihN hb.2.2.1 inner hcontext
      have hnext := ih hb.2.2.2 depth hcontext
      refine writesText_value hcontext limits e fun v _ => ?_
      split
      · exact .after hyes fun _ => hnext
      · exact .after hno fun _ => hnext
  | loop name e body next ihB ih =>
      refine writesText_value hcontext limits e fun v hv => ?_
      refine .after (.forM trivial fun x hx => writesText_nested depth fun inner => ?_) ?_
      · exact ihB hb.2.2.1 inner ⟨Value.inherited_textual.elements hv x hx, hcontext⟩
      · exact fun _ => ih hb.2.2.2 depth hcontext

/-- So does its code, run by the machine. -/
theorem isText_of_run {b : Block} (hb : b.Textual) (hlegible : b.Legible) (fits : b.LengthsFit)
    {limits : Limits} {context : Context} (hcontext : context.Textual) {output : Bytes}
    (h : Machine.run limits b.encode context = .ok output) : IsText output := by
  rw [Machine.run_encode hlegible fits] at h
  cases hrun : b.run limits Machine.maxDepth context .start with
  | error e p =>
      rw [hrun] at h
      cases h
  | ok _ p =>
      rw [hrun] at h
      cases h
      have hstart : IsText Progress.start.output := Utf8.isText_nil
      exact (writesText_run hb limits Machine.maxDepth hcontext _ _ _ hstart hrun).1

end Block

/-! ## Templates -/

theorem Charset.decode_of_isText {data : Bytes} (h : IsText data) :
    ∃ s, Charset.utf8.decode data = .ok s := by
  obtain ⟨s, hs⟩ := h
  unfold Utf8.decode? at hs
  cases hdecode : Utf8.decode data with
  | error e => rw [hdecode] at hs; cases hs
  | ok t => exact ⟨t, by simp only [Charset.decode, hdecode]⟩

namespace Template

variable {t : Template} {limits : Option Limits} {setting : Option String} {context : Context}

/-- An output is one of the machine, within some limits. -/
theorem exists_limits_of_run {output : Bytes} (h : t.run limits setting context = .ok output) :
    ∃ limits, Machine.run limits t.code context = .ok output := by
  unfold run at h
  split at h
  · exact ⟨_, mapError_eq_ok.1 h⟩
  · split at h
    · exact ⟨_, mapError_eq_ok.1 h⟩
    · cases h

/-- What is written is not looked at by a run, so it fails by no bytes in it. -/
theorem run_ne_undecodable (e : CharsetError) :
    t.run limits setting context ≠ .error (.undecodable e) := by
  intro h
  rcases run_eq_error h with ⟨_, ⟨⟩⟩ | ⟨_, ⟨⟩⟩

/-- If no output is anything but a text, decoding it does not fail. -/
theorem render_ne_undecodable
    (h : ∀ output, t.run limits setting context = .ok output → IsText output) (e : CharsetError) :
    t.render limits setting .utf8 context ≠ .error (.undecodable e) := by
  intro herr
  unfold render at herr
  cases hrun : t.run limits setting context with
  | error d =>
      rw [hrun] at herr
      cases herr
      exact run_ne_undecodable e hrun
  | ok output =>
      obtain ⟨s, hs⟩ := Charset.decode_of_isText (h output hrun)
      rw [hrun] at herr
      change (Charset.utf8.decode output).mapError _ = _ at herr
      rw [hs] at herr
      cases herr

end Template

namespace Compiler

variable {compiler : Compiler}

/-- Text in, text out: if all files, the source and the byte strings in the context are texts,
the template writes a text, and rendering it does not fail for bytes that spell none. -/
theorem compileSource_text (hstore : compiler.store.Textual) {source : Bytes}
    (hsource : IsText source) {path : String} {t : Template} {s : CompileState}
    (hok : compiler.compileSource source path .fresh = .ok t s)
    (fits : compiler.LengthsFit source path .fresh) {context : Context}
    (hcontext : context.Textual) (limits : Option Limits) (setting : Option String) :
    (∀ output, t.run limits setting context = .ok output → IsText output) ∧
      ∀ e, t.render limits setting .utf8 context ≠ .error (.undecodable e) := by
  obtain ⟨b, hblock, hb, hcode⟩ := exists_blockOf hok
  have hfresh : CompileState.fresh.Textual := nofun
  obtain ⟨-, htext⟩ := textual_blockOf hstore hsource hfresh hblock
  have hrun : ∀ output, t.run limits setting context = .ok output → IsText output := by
    intro output h
    obtain ⟨_, hmachine⟩ := Template.exists_limits_of_run h
    rw [hcode] at hmachine
    exact Block.isText_of_run htext hb.legible (fits b s hblock) hcontext hmachine
  exact ⟨hrun, Template.render_ne_undecodable hrun⟩

/-- A compiler with the usual tags, and a file with letters in it that are two bytes each. -/
def lettered : Compiler :=
  ⟨SourceTable.store [("part.leaf", Utf8.encode "é#(x)")], builtinTags, ".leaf"⟩

/-- A loop over a body that embeds the file. -/
def letteredSource : Bytes := Utf8.encode "ä#loop(xs, \"x\") \x7b#embed(\"part\")ü\x7d"

/-- A text and a byte string. -/
def letteredContext : Context :=
  .ofTable [("xs", .sequence [.text "ö", .bytes (Utf8.encode "ß")])]

/-- What it is compiled to. -/
def letteredBlock : Block :=
  .raw (Utf8.encode "ä") (.loop "x" (.path ["xs"])
    (.raw (Utf8.encode "é") (.print (.path ["x"]) (.raw (Utf8.encode "ü") .done))) .done)

theorem blockOf_letteredSource :
    lettered.blockOf letteredSource "" .fresh = .ok letteredBlock .fresh := by
  decide +kernel

theorem compileSource_text_lettered :
    lettered.store.Textual ∧ letteredContext.Textual ∧
      lettered.LengthsFit letteredSource "" .fresh ∧
      (Template.mk letteredBlock.code).run none none letteredContext =
        .ok (Utf8.encode "äéöüéßü") ∧
      (∀ output, (Template.mk letteredBlock.code).run none none letteredContext = .ok output →
        IsText output) ∧
      ∀ e, (Template.mk letteredBlock.code).render none none .utf8 letteredContext ≠
        .error (.undecodable e) := by
  have hstore : lettered.store.Textual := by
    intro location source hload
    obtain rfl := List.mem_singleton.1 (lettered.store.mem_sources hload)
    exact Utf8.isText_encode _
  have hcontext : letteredContext.Textual := by
    refine List.forall_mem_singleton.2 (.sequence (List.forall_mem_cons.2 ⟨.text _, ?_⟩))
    exact List.forall_mem_singleton.2 (.bytes (Utf8.isText_encode _))
  have fits : lettered.LengthsFit letteredSource "" .fresh := by
    intro b s hb
    cases blockOf_letteredSource.symm.trans hb
    decide +kernel
  have hok : lettered.compileSource letteredSource "" .fresh = .ok ⟨letteredBlock.code⟩ .fresh :=
    compileSource_eq_ok.2 ⟨_, blockOf_letteredSource, rfl⟩
  exact ⟨hstore, hcontext, fits, by decide +kernel,
    compileSource_text hstore (Utf8.isText_encode _) hok fits hcontext none none⟩

end Compiler

end Stencil
