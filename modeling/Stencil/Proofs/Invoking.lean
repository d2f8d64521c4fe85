/-
# `Stencil.Proofs.Invoking` — a step limit on the command line

What comes of a command line that renders a template is what comes of the render: its output,
written where it is wanted, or what went wrong (`Report.ofRendered`).

**Proved here**: a step limit on the command line arrives at the render as it was written,
whatever the setting is, with two exceptions (`Invocation.report_of_limit`).  One is an integer of
more digits than are read, which has the command line rejected.  The other is zero, which counts
as no limit at all.
-/
import Stencil.Proofs.Compiled
import Stencil.Proofs.Hearing
import Stencil.Proofs.Loading

namespace Stencil

/-! ## Reports -/

/-- The report on a render: its output, written where it is wanted, or what went wrong. -/
def Report.ofRendered (disk : Disk) (out : Option String) : Except RenderError Bytes → Report
  | .error e => ⟨1, [], "FATAL ERROR\n" ++ e.message ++ "\n", disk, none⟩
  | .ok output =>
    match out with
    | none => ⟨0, output, "", disk, none⟩
    | some location =>
      match disk.write location output with
      | .ok disk => ⟨0, [], "", disk, none⟩
      | .error e =>
        ⟨1, [], "FATAL ERROR\n" ++ e.message ++ "\n", disk, (CommandError.disk e).missing?⟩

/-- A template that compiles, at the location that the words of a command lead to. -/
theorem Entry.compiled_of_compileFile {entry : Entry} {disk : Disk} {location base : String}
    {t : Template} {s : CompileState}
    (hlocation : Location.absolute (Disk.locationOf disk.standing) entry.template = location)
    (hbase : entry.base.getD (Location.directory location) = base)
    (h : Compiler.compileFile ⟨disk.store, builtinTags, entry.extension⟩
      (Location.relative (Disk.locationOf disk.standing) base location) base .fresh = .ok t s) :
    entry.compiled disk = .ok t := by
  subst hlocation hbase
  unfold Entry.compiled
  extract_lets here location base compiler
  have hcompiles : compiler.compileFile (Location.relative here base location) base .fresh =
      .ok t s := h
  rw [hcompiles]

/-- Once there are a template and a context, it is the render that is reported on. -/
theorem Report.ofCommand_render {disk : Disk} {entry : Entry} {t : Template} {location : String}
    {context : Context} (ht : entry.compiled disk = .ok t)
    (hcontext : Context.ofFile disk location = .ok context) (setting : Option String)
    (limits : Option Limits) (out : Option String) :
    Report.ofCommand disk setting (.render entry (some location) limits out) =
      .ofRendered disk out (t.run limits setting context) := by
  simp only [Report.ofCommand, Command.perform, ht, hcontext, Bind.bind, Except.bind]
  cases hrun : t.run limits setting context with
  | error e => rcases Template.run_eq_error hrun with ⟨_, rfl⟩ | ⟨_, rfl⟩ <;> rfl
  | ok output =>
      cases out with
      | none => rfl
      | some location =>
          simp only [Except.mapError, Report.ofRendered]
          cases disk.write location output <;> rfl

theorem Charset.decode_encode (s : String) : utf8.decode (Utf8.encode s) = .ok s := by
  have h := Utf8.decode?_encode s
  unfold Utf8.decode? at h
  cases hdecode : Utf8.decode (Utf8.encode s) with
  | error e =>
      rw [hdecode] at h
      cases h
  | ok t =>
      rw [hdecode] at h
      cases h
      simp only [decode, hdecode]

namespace Invocation

variable {i : Invocation} {disk : Disk} {n : Int} {t : Template} {location : String}
  {entries : List (HostKey × HostValue)} {context : Context}

/-- The report on a command line that can be read. -/
theorem report_eq (h : i.IsReadable) (ht : i.entry.compiled disk = .ok t)
    (hlocation : i.named .context = some location)
    (hcontext : Context.ofFile disk location = .ok context) (setting : Option String) :
    Report.ofTexts disk setting i.texts =
      .ofRendered disk (i.named .out)
        (t.run ((i.limit.filter (· ≠ 0)).map fun n => ⟨some n⟩) setting context) := by
  rw [Report.ofTexts, ofTexts_texts h, hlocation]
  exact Report.ofCommand_render ht hcontext setting _ _

/-- A step limit on the command line is kept, whatever the setting is, unless it is zero, which
counts as none. -/
theorem report_of_limit (hn : i.limit = some n) (ht : i.entry.compiled disk = .ok t)
    (hlocation : i.named .context = some location) (hobject : disk.HoldsObject location entries) :
    ∃ context, Context.ofHost (.mapping entries) = .ok context ∧ ∀ setting,
      (i.IsReadable → n ≠ 0 → Report.ofTexts disk setting i.texts =
        .ofRendered disk (i.named .out) (t.runWithin ⟨some n⟩ context)) ∧
      (i.IsReadable → n = 0 → Report.ofTexts disk setting i.texts =
        .ofRendered disk (i.named .out) (t.run none setting context)) ∧
      (¬ i.IsReadable → Report.ofTexts disk setting i.texts =
        ⟨2, [], Usage.reminder (some .render), disk, none⟩) := by
  obtain ⟨context, hhost, hcontext⟩ := Context.exists_ofFile hobject
  refine ⟨context, hhost, fun setting => ⟨fun h hne => ?_, fun h hzero => ?_, fun h => ?_⟩⟩
  · have hkept : (some n).filter (· ≠ 0) = some n := if_pos (decide_eq_true hne)
    rw [report_eq h ht hlocation hcontext, hn, hkept]
    rfl
  · rw [report_eq h ht hlocation hcontext, hn, hzero]
    rfl
  · rw [Report.ofTexts, ofTexts_of_unreadable h]

/-- A page of one letter, and a context of nothing. -/
def pageDisk : Disk :=
  Disk.ofFiles "/" [("p.leaf", Utf8.encode "x"), ("c.json", Utf8.encode "\x7b\x7d")]

/-- Renders that page within a number of steps. -/
def pageWithin (n : Int) : Invocation where
  template := "p.leaf"
  plain := .of_no_dash (by decide)
  before := []
  behind := [.text .context "c.json" (.of_no_dash (by decide)), .limit n]

/-- The page, compiled. -/
def page : Template := ⟨[1, 1, 0, 0, 0, 0x78, 0]⟩

theorem compiled_page (n : Int) : (pageWithin n).entry.compiled pageDisk = .ok page := by
  have hcompiles : Compiler.compileFile ⟨pageDisk.store, builtinTags, ".leaf"⟩
      (Location.relative (Disk.locationOf pageDisk.standing) "/" "/p.leaf") "/" .fresh =
        .ok page .fresh := by decide +kernel
  have hlocation : Location.absolute (Disk.locationOf pageDisk.standing) "p.leaf" = "/p.leaf" := by
    decide +kernel
  have hbase : Location.directory "/p.leaf" = "/" := by decide +kernel
  exact Entry.compiled_of_compileFile hlocation hbase hcompiles

theorem page_holdsObject : pageDisk.HoldsObject "c.json" [] := by
  have hdata : pageDisk.read "c.json" = .ok (Utf8.encode "\x7b\x7d") := rfl
  have hvalue : Json.readValue [] ['\x7b', '\x7d'] = .ok (.mapping [], []) := by
    simp only [Json.readValue, Json.complete]
    rfl
  have hread : Json.read ['\x7b', '\x7d'] = .ok (.mapping []) := by
    have hblanks : Json.skipBlanks ['\x7b', '\x7d'] = ['\x7b', '\x7d'] := rfl
    rw [Json.read, if_neg (by decide), hblanks, hvalue]
    rfl
  exact ⟨⟨_, _, hdata, Charset.decode_encode _, hread⟩, by decide⟩

theorem isReadable_page {n : Int} (h : Integer.IsShort n) : (pageWithin n).IsReadable := by
  intro m hmem
  obtain rfl : m = n := List.mem_singleton.1 hmem
  exact h

theorem report_of_limit_page : (pageWithin 5).limit = some 5 ∧
    (pageWithin 5).named .context = some "c.json" ∧ pageDisk.HoldsObject "c.json" [] ∧
    ∃ context, Context.ofHost (.mapping []) = .ok context ∧ ∀ setting,
      Report.ofTexts pageDisk setting (pageWithin 5).texts =
        .ofRendered pageDisk none (page.runWithin ⟨some 5⟩ context) := by
  have hlimit : (pageWithin 5).limit = some 5 := rfl
  have hcontext : (pageWithin 5).named .context = some "c.json" := rfl
  obtain ⟨context, hhost, hreport⟩ :=
    report_of_limit hlimit (compiled_page 5) hcontext page_holdsObject
  exact ⟨hlimit, hcontext, page_holdsObject, context, hhost, fun setting =>
    (hreport setting).1 (isReadable_page (by decide)) (by decide)⟩

/-- A limit of zero is not kept: the page is rendered, which takes a step. -/
theorem limit_zero_not_kept :
    ¬ ∀ (i : Invocation) (disk : Disk) (n : Int) (t : Template) (location : String)
      (entries : List (HostKey × HostValue)) (context : Context) (setting : Option String),
      i.limits = [n] → i.entry.compiled disk = .ok t → i.named .context = some location →
        disk.HoldsObject location entries → Context.ofHost (.mapping entries) = .ok context →
          Report.ofTexts disk setting i.texts =
            .ofRendered disk (i.named .out) (t.runWithin ⟨some n⟩ context) := by
  intro h
  obtain ⟨context, hhost, hcontext⟩ := Context.exists_ofFile page_holdsObject
  obtain rfl : Context.empty = context := Except.ok.inj hhost
  have hkept := h (pageWithin 0) pageDisk 0 page "c.json" [] .empty none rfl (compiled_page 0) rfl
    page_holdsObject hhost
  rw [report_eq (isReadable_page (by decide)) (compiled_page 0) rfl hcontext] at hkept
  have hrenders : (Report.ofRendered pageDisk none (page.run none none .empty)).exit = 0 := by
    decide +kernel
  have hfails : (Report.ofRendered pageDisk none (page.runWithin ⟨some 0⟩ .empty)).exit = 1 := by
    decide +kernel
  cases hrenders.symm.trans ((congrArg Report.exit hkept).trans hfails)

end Invocation

end Stencil
