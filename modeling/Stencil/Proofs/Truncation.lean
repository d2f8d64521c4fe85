/-
# `Stencil.Proofs.Truncation` — compiled code ends where it says

The code of a template is that of one block, and a block ends with a byte of its own.  So the
machine stops at the end of the code by itself: bytes behind it are not looked at.  And of code
that is cut short the machine misses what was cut off, wherever the cut is:

    in the head of an element, or in its bytes or blocks     `unexpectedEnd`
    in front of the byte that closes a loop                  `unclosedLoop`
    in front of another element, or of the last byte         `unexpectedEnd`

It does so whatever the data select, for the length of a block is compared with what lies ahead
before the block is run or skipped.  But a run that fails on the whole code may fail for the same
reason in front of the cut; what is compared is therefore a run that succeeds on the whole code
with the run on the part (`Run.Misses`).

Of each reader it is proved that it fails by an unexpected end on less than it reads
(`Starves`); of each element that the machine fails on less than its bytes; and then, by
induction on the tree, of each block.
-/
import Mathlib.Data.List.TakeWhile
import Stencil.Proofs.Concatenation

namespace Stencil

open EStateM (Result)

/-- The first bytes of others, but not all of them. -/
def Bytes.ShortOf (cut bs : Bytes) : Prop := ∃ b rest, bs = cut ++ b :: rest

namespace Bytes.ShortOf

variable {cut bs cs : Bytes} {b : UInt8}

theorem of_ne (h : cut <+: bs) (hne : cut ≠ bs) : ShortOf cut bs := by
  obtain ⟨more, rfl⟩ := h
  cases more with
  | nil => exact absurd (List.append_nil cut).symm hne
  | cons b rest => exact ⟨b, rest, rfl⟩

theorem length_lt (h : ShortOf cut bs) : cut.length < bs.length := by
  obtain ⟨b, rest, rfl⟩ := h
  rw [List.length_append, List.length_cons]
  omega

/-- A cut of two parts is a cut of the first, or it has the first and a cut of the second. -/
theorem append (h : ShortOf cut (bs ++ cs)) :
    ShortOf cut bs ∨ ∃ cut', cut = bs ++ cut' ∧ ShortOf cut' cs := by
  obtain ⟨b, rest, h⟩ := h
  rcases List.append_eq_append_iff.1 h with ⟨cut', hcut, hcs⟩ | ⟨more, hbs, hrest⟩
  · exact .inr ⟨cut', hcut, b, rest, hcs⟩
  · cases more with
    | nil => exact .inr ⟨[], by rw [hbs, List.append_nil, List.append_nil], b, rest, hrest.symm⟩
    | cons b' more => exact .inl ⟨b', more, hbs⟩

/-- A cut of bytes that have a first one is empty, or it has the first one too. -/
theorem cons (h : ShortOf cut (b :: bs)) :
    cut = [] ∨ ∃ cut', cut = b :: cut' ∧ ShortOf cut' bs := by
  cases cut with
  | nil => exact .inl rfl
  | cons b' cut' =>
      obtain ⟨b'', rest, h⟩ := h
      rw [List.cons_append] at h
      obtain ⟨rfl, hrest⟩ := List.cons.inj h
      exact .inr ⟨cut', rfl, b'', rest, hrest⟩

theorem eq_nil (h : ShortOf cut [b]) : cut = [] := by
  rcases h.cons with rfl | ⟨_, -, _, _, hnil⟩
  · rfl
  · exact absurd hnil (by simp)

end Bytes.ShortOf

open Bytes (ShortOf)

/-! ## Readers on less than they read -/

/-- Where less than these bytes lies ahead and nothing behind it, the reader fails by an
unexpected end. -/
def Starves {α : Type} (r : CodeReader α) (bs : Bytes) : Prop :=
  ∀ c cut, ShortOf cut bs → c.Faces cut → ∃ position c', r c = .error (.unexpectedEnd position) c'

namespace Starves

variable {α β : Type} {bs cs : Bytes}

/-- The first of two readers fails already. -/
theorem bind_left {r : CodeReader α} {f : α → CodeReader β} (hr : Starves r bs) :
    Starves (r >>= f) bs := by
  intro c cut hcut hc
  obtain ⟨position, c', hfails⟩ := hr c cut hcut hc
  exact ⟨position, c', by simp only [Bind.bind, EStateM.bind, hfails]⟩

/-- The cut is in what the first reader reads, or in what the second reads behind it. -/
theorem bind {r : CodeReader α} {f : α → CodeReader β} {a : α} (hr : Starves r bs)
    (hyields : ∀ after, Yields r bs after (.ok a)) (hf : Starves (f a) cs) :
    Starves (r >>= f) (bs ++ cs) := by
  intro c cut hcut hc
  rcases hcut.append with hfirst | ⟨cut', rfl, hsecond⟩
  · exact hr.bind_left c cut hfirst hc
  · have hread : r c = .ok a (c.forward bs.length) := hyields cut' c hc
    obtain ⟨position, c', hfails⟩ := hf _ cut' hsecond hc.forward
    exact ⟨position, c', by simp only [Bind.bind, EStateM.bind, hread, hfails]⟩

end Starves

/-- Where less than these bytes lies ahead, their number does not. -/
theorem Cursor.Faces.not_holds {c : Cursor} {cut bs : Bytes} (hc : c.Faces cut)
    (hcut : ShortOf cut bs) : ¬ c.holds bs.length = true := by
  obtain ⟨hin, hrest⟩ := hc
  have hlength := congrArg List.length hrest
  have hless := hcut.length_lt
  rw [c.rest_eq, List.length_drop] at hlength
  rw [Cursor.holds_iff]
  omega

namespace CodeReader

theorem starves_readByte (b : UInt8) : Starves readByte [b] := by
  intro c cut hcut hc
  obtain rfl := hcut.eq_nil
  exact ⟨_, _, readByte_nil hc.2⟩

theorem starves_readBytes (data : Bytes) : Starves (readBytes data.length) data := by
  intro c cut hcut hc
  exact ⟨_, _, if_neg (hc.not_holds hcut)⟩

theorem starves_require (bs : Bytes) : Starves (require bs.length) bs := by
  intro c cut hcut hc
  exact ⟨_, _, if_neg (hc.not_holds hcut)⟩

theorem starves_readLength (n : Nat) : Starves readLength (Bytes.lengthField n) := by
  intro c cut hcut hc
  obtain ⟨position, c', hfails⟩ := starves_readBytes (Bytes.lengthField n) c cut hcut hc
  rw [Bytes.length_lengthField] at hfails
  exact ⟨position, c', by simp only [readLength, Functor.map, EStateM.map, hfails]⟩

theorem starves_readClosed {data : Bytes} (h : Opcode.stop ∉ data) :
    Starves readClosed (data ++ [Opcode.stop]) := by
  intro c cut hcut hc
  have hclosed : Opcode.stop ∉ cut := by
    rcases hcut.append with ⟨b, rest, rfl⟩ | ⟨cut', rfl, hcut'⟩
    · exact fun hmem => h (List.mem_append_left _ hmem)
    · rwa [hcut'.eq_nil, List.append_nil]
  have htake : c.rest.takeWhile (· != Opcode.stop) = c.rest := by
    rw [hc.2, List.takeWhile_eq_self_iff]
    exact fun b hb => bne_iff_ne.2 fun hstop => hclosed (hstop ▸ hb)
  refine ⟨c.data.length, c, ?_⟩
  simp only [readClosed, htake, List.drop_length]

theorem starves_readName {name : String} (h : Opcode.stop ∉ Utf8.encode name) :
    Starves readName (encodeName name) :=
  (starves_readClosed h).bind_left

theorem starves_readNames : ∀ {segments : List String} (found : List String),
    (∀ s ∈ segments, IsName s) → Starves (readNames found) (encodePath segments)
  | [], found, _ => by
      intro c cut hcut hc
      obtain rfl := ShortOf.eq_nil hcut
      exact ⟨_, _, readNames_nil found hc.2⟩
  | s :: ss, found, hs => by
      have hname : IsName s := hs s List.mem_cons_self
      have hrest := starves_readNames (s :: found) fun t ht => hs t (List.mem_cons_of_mem _ ht)
      have hboth : Starves (readName >>= fun name => readNames (name :: found))
          (encodeName s ++ encodePath ss) :=
        (starves_readName hname.2).bind (fun _ => yields_readName hname.2) hrest
      rw [encodePath_cons]
      intro c cut hcut hc
      obtain ⟨b, rest, hb, hne⟩ := exists_encodeName_eq_cons hname
      have hcut' : ShortOf cut (b :: (rest ++ encodePath ss)) := by rwa [hb] at hcut
      rcases hcut'.cons with rfl | ⟨cut', rfl, -⟩
      · exact ⟨_, _, readNames_nil found hc.2⟩
      · rw [readNames_eq_bind found hc.2 hne]
        exact hboth c _ hcut hc

theorem starves_readPath {segments : List String} (h : IsPath segments) :
    Starves readPath (encodePath segments) :=
  (starves_readNames [] h.2).bind_left

end CodeReader

/-! ## Elements -/

namespace Machine

open CodeReader

variable {context : Context} {e : Expr} {v : Value}

theorem starves_evaluate (he : e.WellFormed) : Starves (evaluate context) e.encode := by
  cases e with
  | path segments =>
      show Starves (evaluate context) ([Opcode.path] ++ encodePath segments)
      refine (starves_readByte _).bind (fun _ => yields_readByte _) ?_
      rw [if_pos rfl]
      exact (starves_readPath he).bind_left
  | always => exact (starves_readByte _).bind_left

theorem starves_raw {data : Bytes} (h : data.length < Bytes.lengthBound) :
    Starves (readTask context Opcode.raw) (Bytes.lengthField data.length ++ data) :=
  (starves_readLength _).bind (fun _ => yields_readLength h) (starves_readBytes data).bind_left

theorem starves_print (he : e.WellFormed) :
    Starves (readTask context Opcode.statement) (Opcode.print :: e.encode) := by
  show Starves _ ([Opcode.print] ++ e.encode)
  refine (starves_readByte _).bind (fun _ => yields_readByte _) ?_
  exact (starves_evaluate he).bind_left

/-- The blocks of a branch are asked for before one of them is run. -/
theorem starves_branch {yes no : Nat} {blocks : Bytes} (he : e.WellFormed)
    (hv : e.value context = .ok v) (hy : yes < Bytes.lengthBound) (hn : no < Bytes.lengthBound)
    (hlen : blocks.length = yes + no) :
    Starves (readTask context Opcode.statement) (Block.branchHead e yes no ++ blocks) := by
  show Starves _ ([Opcode.branch] ++
    (e.encode ++ (Bytes.lengthField yes ++ Bytes.lengthField no)) ++ blocks)
  simp only [List.append_assoc]
  refine (starves_readByte _).bind (fun _ => yields_readByte _) ?_
  refine (starves_evaluate he).bind (fun _ => hv ▸ yields_evaluate he) ?_
  refine (starves_readLength _).bind (fun _ => yields_readLength hy) ?_
  refine (starves_readLength _).bind (fun _ => yields_readLength hn) ?_
  rw [← hlen]
  exact (starves_require blocks).bind_left

/-- The body of a loop is asked for before it is run. -/
theorem starves_loop {name : String} {body : Bytes} (hname : Opcode.stop ∉ Utf8.encode name)
    (he : e.WellFormed) (hv : e.value context = .ok v) (hl : body.length < Bytes.lengthBound) :
    Starves (readTask context Opcode.statement) (Block.loopHead name e body.length ++ body) := by
  show Starves _ ([Opcode.loop] ++
    (encodeName name ++ (e.encode ++ Bytes.lengthField body.length)) ++ body)
  simp only [List.append_assoc]
  refine (starves_readByte _).bind (fun _ => yields_readByte _) ?_
  refine (starves_readName hname).bind (fun _ => yields_readName hname) ?_
  refine (starves_evaluate he).bind (fun _ => hv ▸ yields_evaluate he) ?_
  refine (starves_readLength _).bind (fun _ => yields_readLength hl) ?_
  exact (starves_require body).bind_left

end Machine

/-! ## Runs that miss something -/

/-- The errors that tell that code ends too early. -/
def RunError.IsEnd : RunError → Prop
  | unexpectedEnd _ | unclosedLoop _ => True
  | _ => False

namespace Run

variable {α β γ : Type} {limits : Limits}

/-- Where the first run succeeds, the second misses something: it fails as code does that ends
too early. -/
def Misses (m : Run α) (u : Run β) : Prop :=
  ∀ p a p', m p = .ok a p' → ∃ e p'', u p = .error e p'' ∧ e.IsEnd

namespace Misses

theorem throw {m : Run α} {e : RunError} (h : e.IsEnd) : Misses m (throw e : Run β) :=
  fun p _ _ _ => ⟨e, p, rfl, h⟩

/-- Both do the same first. -/
theorem after {k : Run γ} {f : γ → Run α} {g : γ → Run β} (h : ∀ c, Misses (f c) (g c)) :
    Misses (k >>= f) (k >>= g) := by
  intro p a p' hok
  rw [bind_apply] at hok ⊢
  cases hk : k p with
  | ok c p₁ =>
      rw [hk] at hok
      exact h c p₁ a p' hok
  | error e p₁ =>
      rw [hk] at hok
      cases hok

/-- What the first run does further does not matter. -/
theorem before {m : Run α} {f : α → Run γ} {u : Run β} (h : Misses m u) :
    Misses (m >>= f) u := by
  intro p a p' hok
  rw [bind_apply] at hok
  cases hm : m p with
  | ok c p₁ => exact h p c p₁ hm
  | error e p₁ =>
      rw [hm] at hok
      cases hok

/-- A run that starts with a step and a value has both if it succeeds. -/
theorem step_given {x : Except RunError γ} {f : γ → Run α} {u : Run β}
    (h : ∀ c, x = .ok c → Misses (step limits >>= fun _ => f c) u) :
    Misses (step limits >>= fun _ => given x >>= f) u := by
  cases x with
  | ok c => exact h c rfl
  | error e =>
      intro p a p' hok
      rw [bind_apply] at hok
      cases hstep : step limits p <;> rw [hstep] at hok <;> cases hok

end Misses

end Run

namespace Machine

open Run

/-- The machine misses what is cut off in the head of an element, or in what is asked for with
it. -/
theorem misses_head {limits : Limits} {depth : Nat} {context : Context} {c : Cursor}
    {opcode : UInt8} {head cut : Bytes} (hne : opcode ≠ Opcode.stop)
    (hstarves : Starves (readTask context opcode) head) (hcut : ShortOf cut (opcode :: head))
    (hc : c.Faces cut) (f : Unit → Run Unit) :
    Misses (step limits >>= f) (blockFrom limits depth context c) := by
  rcases hcut.cons with rfl | ⟨cut', rfl, hcut'⟩
  · rw [blockFrom_nil hc.2]
    exact .throw trivial
  · obtain ⟨position, c', hfails⟩ := hstarves _ cut' hcut'
      (Cursor.Faces.forward (show c.Faces ([opcode] ++ cut') from hc))
    rw [blockFrom_eq hc.2 hne]
    refine .after fun _ => ?_
    rw [show readTask context opcode (c.forward 1) = _ from hfails]
    exact .throw trivial

/-- On a part of these bytes the machine misses something of the block. -/
def Detects (limits : Limits) (bs : Bytes) (b : Block) : Prop :=
  ∀ depth context c cut, ShortOf cut bs → c.Faces cut →
    Misses (b.run limits depth context) (blockFrom limits depth context c)

section

variable {limits : Limits} {e : Expr} {yes no body : Block} {name : String}

theorem detects_raw {data : Bytes} (h : data.length < Bytes.lengthBound) :
    Detects limits (Block.raw data .done).elementBytes (.raw data .done) := by
  intro depth context c cut hcut hc
  rw [Block.elementBytes_of_encode_done (Block.encode_raw data .done)] at hcut
  exact misses_head (by decide) (starves_raw h) hcut hc _

theorem detects_print (he : e.WellFormed) :
    Detects limits (Block.print e .done).elementBytes (.print e .done) := by
  intro depth context c cut hcut hc
  rw [Block.elementBytes_of_encode_done (Block.encode_print e .done)] at hcut
  exact misses_head (by decide) (starves_print he) hcut hc _

theorem detects_branch (he : e.WellFormed) (hy : yes.encode.length < Bytes.lengthBound) :
    Detects limits (Block.branch e yes .done).elementBytes (.branch e yes .done) := by
  intro depth context c cut hcut hc
  rw [Block.elementBytes_of_encode_done (Block.encode_branch e yes .done)] at hcut
  refine .step_given fun v hv => ?_
  exact misses_head (by decide) (starves_branch he hv hy (by decide) rfl) hcut hc _

theorem detects_branchElse (he : e.WellFormed) (hy : yes.encode.length < Bytes.lengthBound)
    (hn : no.encode.length < Bytes.lengthBound) :
    Detects limits (Block.branchElse e yes no .done).elementBytes (.branchElse e yes no .done) := by
  intro depth context c cut hcut hc
  rw [Block.elementBytes_of_encode_done (Block.encode_branchElse e yes no .done)] at hcut
  refine .step_given fun v hv => ?_
  exact misses_head (by decide) (starves_branch he hv hy hn List.length_append) hcut hc _

/-- The body of a loop may be there in full, and the byte behind it missing: then the loop runs,
and the byte is missed in the end. -/
theorem detects_loop (hname : Opcode.stop ∉ Utf8.encode name) (he : e.WellFormed)
    (hbody : body.Legible) (fits : body.LengthsFit) (hl : body.encode.length < Bytes.lengthBound) :
    Detects limits (Block.loop name e body .done).elementBytes (.loop name e body .done) := by
  intro depth context c cut hcut hc
  rw [Block.elementBytes_of_encode_done (Block.encode_loop name e body .done),
    ← List.append_assoc] at hcut
  rcases hcut.append with hwithin | ⟨cut', rfl, hbehind⟩
  · refine .step_given fun v hv => ?_
    exact misses_head (by decide) (starves_loop hname he hv hl) hwithin hc _
  · obtain rfl := hbehind.eq_nil
    rw [List.append_assoc] at hc
    have hruns := fun inner x =>
      blockFrom_eq_run hbody fits limits inner (context.overlay name x) hc.forward
    rw [blockFrom_of_yields (by decide) (yields_loop hname he hl) hc]
    simp only [given_bind, bind_assoc, given_ok, pure_bind, Block.run]
    refine .after fun _ => .after fun v => ?_
    rw [perform_each hruns, behindLoop_nil hc.forward.forward.2]
    exact .after fun _ => .throw trivial

/-- A part of the bytes of two blocks is one of the elements of the first, or it has these and a
part of the second. -/
theorem detects_append {b b' : Block} (hb : b.Legible) (fits : b.LengthsFit)
    (h : Detects limits b.elementBytes b) (h' : Detects limits b'.encode b') :
    Detects limits (b.append b').encode (b.append b') := by
  intro depth context c cut hcut hc
  rw [Block.encode_append] at hcut
  rw [Block.run_append]
  rcases hcut.append with hwithin | ⟨cut', rfl, hbehind⟩
  · exact (h depth context c cut hwithin hc).before
  · rw [blockFrom_elements hb fits limits depth context hc]
    exact .after fun _ => h' depth context _ cut' hbehind hc.forward

/-- On a part of the bytes of a block the machine misses something. -/
theorem detects_encode {b : Block} (hb : b.Legible) (fits : b.LengthsFit) :
    Detects limits b.encode b := by
  induction b with
  | done =>
      intro depth context c cut hcut hc
      obtain rfl := ShortOf.eq_nil hcut
      rw [blockFrom_nil hc.2]
      exact .throw trivial
  | raw data next ih =>
      exact detects_append (b := .raw data .done) ⟨hb.1, trivial⟩ ⟨fits.1, trivial⟩
        (detects_raw fits.1) (ih hb.2 fits.2)
  | print e next ih =>
      exact detects_append (b := .print e .done) ⟨hb.1, trivial⟩ trivial (detects_print hb.1)
        (ih hb.2 fits)
  | branch e yes next _ ih =>
      obtain ⟨he, hyes, hnext⟩ := hb
      obtain ⟨hy, hfy, hf⟩ := fits
      exact detects_append (b := .branch e yes .done) ⟨he, hyes, trivial⟩ ⟨hy, hfy, trivial⟩
        (detects_branch he hy) (ih hnext hf)
  | branchElse e yes no next _ _ ih =>
      obtain ⟨he, hyes, hno, hnext⟩ := hb
      obtain ⟨hy, hn, hfy, hfn, hf⟩ := fits
      exact detects_append (b := .branchElse e yes no .done) ⟨he, hyes, hno, trivial⟩
        ⟨hy, hn, hfy, hfn, trivial⟩ (detects_branchElse he hy hn) (ih hnext hf)
  | loop name e body next _ ih =>
      obtain ⟨hname, he, hbody, hnext⟩ := hb
      obtain ⟨hl, hfb, hf⟩ := fits
      exact detects_append (b := .loop name e body .done) ⟨hname, he, hbody, trivial⟩
        ⟨hl, hfb, trivial⟩ (detects_loop hname he hbody hfb hl) (ih hnext hf)

end

/-! ## Code with bytes behind it, and code cut short -/

variable {b : Block}

/-- What stands behind the code of a block is not looked at. -/
theorem run_encode_append (hb : b.Legible) (fits : b.LengthsFit) (limits : Limits)
    (context : Context) (junk : Bytes) :
    run limits (b.encode ++ junk) context = run limits b.encode context := by
  rw [run_encode hb fits, run, start, runBlock_encode_append hb fits]
  cases b.run limits maxDepth context .start <;> rfl

/-- If the code of a block runs to an output, a part of it fails as code does that ends too
early. -/
theorem run_of_shortOf (hb : b.Legible) (fits : b.LengthsFit) {limits : Limits}
    {context : Context} {output cut : Bytes} (h : run limits b.encode context = .ok output)
    (hcut : ShortOf cut b.encode) : ∃ e, run limits cut context = .error e ∧ e.IsEnd := by
  rw [run_encode hb fits] at h
  cases hrun : b.run limits maxDepth context .start with
  | error e p =>
      rw [hrun] at h
      cases h
  | ok _ p =>
      obtain ⟨e, p', hfails, he⟩ := detects_encode hb fits maxDepth context _ cut hcut
        (Cursor.faces_ofBytes cut) _ _ _ hrun
      refine ⟨e, ?_, he⟩
      rw [run, start, show runBlock limits maxDepth context _ .start = _ from hfails]

end Machine

namespace Compiler

variable {compiler : Compiler} {t : Template}

/-- The code of a template runs to the same whatever bytes stand behind it; and if it runs to an
output, then no part of it that starts with it does, the empty one included, but fails with an
unexpected end or with a loop that is not closed. -/
theorem run_code_delimited (h : compiler.Produces t) (limits : Limits) (context : Context) :
    (∀ junk, Machine.run limits (t.code ++ junk) context = Machine.run limits t.code context) ∧
    ∀ output, Machine.run limits t.code context = .ok output →
      ∀ cut, cut <+: t.code → cut ≠ t.code → ∃ position,
        Machine.run limits cut context = .error (.unexpectedEnd position) ∨
          Machine.run limits cut context = .error (.unclosedLoop position) := by
  obtain ⟨b, hb, fits, hcode⟩ := h.exists_block
  rw [hcode]
  refine ⟨Machine.run_encode_append hb.legible fits limits context, ?_⟩
  intro output houtput cut hcut hne
  obtain ⟨e, hfails, he⟩ :=
    Machine.run_of_shortOf hb.legible fits houtput (.of_ne hcut hne)
  cases e with
  | unexpectedEnd position => exact ⟨position, .inl hfails⟩
  | unclosedLoop position => exact ⟨position, .inr hfails⟩
  | _ => exact he.elim

/-- A branch and a loop, and text behind them. -/
def guardedSource : Bytes := Utf8.encode "#if(a) \x7by\x7d#loop(xs, \"x\") \x7b#(x)\x7d."

/-- What it is compiled to. -/
def guardedBlock : Block :=
  .branch (.path ["a"]) (.raw (Utf8.encode "y") .done)
    (.loop "x" (.path ["xs"]) (.print (.path ["x"]) .done) (.raw (Utf8.encode ".") .done))

/-- The branch is not taken, and the loop runs twice. -/
def guardedContext : Context :=
  .ofTable [("a", .bool false), ("xs", .sequence [.int 1, .int 2])]

theorem run_code_delimited_guardedSource :
    plain.Produces ⟨guardedBlock.code⟩ ∧
      Machine.run .unbounded guardedBlock.code guardedContext = .ok (Utf8.encode "12.") ∧
      Machine.run .unbounded (guardedBlock.code ++ [1, 255]) guardedContext =
        .ok (Utf8.encode "12.") ∧
      (∃ position,
        Machine.run .unbounded (guardedBlock.code.take 20) guardedContext =
            .error (.unexpectedEnd position) ∨
          Machine.run .unbounded (guardedBlock.code.take 20) guardedContext =
            .error (.unclosedLoop position)) ∧
      Machine.run .unbounded (guardedBlock.code.take 20) guardedContext =
        .error (.unexpectedEnd 14) ∧
      Machine.run .unbounded (guardedBlock.code.take 41) guardedContext =
        .error (.unclosedLoop 41) := by
  have hblock : plain.blockOf guardedSource "" .fresh = .ok guardedBlock .fresh := by
    decide +kernel
  have hproduces : plain.Produces ⟨guardedBlock.code⟩ := by
    refine .source (compileSource_eq_ok.2 ⟨_, hblock, rfl⟩) fun b s hb => ?_
    cases hblock.symm.trans hb
    decide +kernel
  have hrun : Machine.run .unbounded guardedBlock.code guardedContext =
      .ok (Utf8.encode "12.") := by
    decide +kernel
  obtain ⟨hjunk, hcut⟩ := run_code_delimited hproduces .unbounded guardedContext
  have hshort : guardedBlock.code.take 20 ≠ guardedBlock.code := by decide +kernel
  exact ⟨hproduces, hrun, (hjunk _).trans hrun,
    hcut _ hrun _ (List.take_prefix 20 guardedBlock.code) hshort, by decide +kernel,
    by decide +kernel⟩

end Compiler

end Stencil
