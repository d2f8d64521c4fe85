/-
# `Stencil.Proofs.Shadowing` — what `self` stands for in the body of a loop

There are two ways to give a name a meaning, and in the body of a loop they meet.  The scope of
a body is a path, by which `self` is replaced when the body is compiled.  The name of a loop is
laid over the context when the loop runs.  So `self` stands for the path wherever it is written,
and the path is followed in the context of the loop:

    #(s) {#(q)}                       shows what is at q within the scope s
    #(s) {#loop(r, "v") {#(q)}}       shows the same for each element of r,
                                        unless v is the first segment of s

A loop that binds the first segment of the path hides what the scope stands for.

**Proved here**, for every store, extension and directory, in every state without a scope:

    the body of a loop shows what it shows in front of the loop, once for each element,
      if the loop spares the first segment of the scope      (`Compiler.run_selfLoop`)
    a loop that binds it shows something else                (`Compiler.selfLoop_shadowed`)
-/
import Stencil.Proofs.Binding
import Stencil.Proofs.Chain
import Stencil.Proofs.Iteration

namespace Stencil

open EStateM (Result)

/-! ## Spelling the tags -/

/-- A name that a loop can bind, and that can be written between quotes in the body of a tag. -/
structure LoopName where
  text : String
  usable : SourceReader.isUsableName (Utf8.encode text) = true
  quote : Sign.quote ∉ Utf8.encode text
  braceOpen : Sign.braceOpen ∉ Utf8.encode text
  braceClose : Sign.braceClose ∉ Utf8.encode text

/-- `#(path)`. -/
def printTag (q : PlainPath) : Bytes :=
  Sign.pound :: Sign.parenOpen :: (Utf8.encode q.text ++ [Sign.parenClose])

/-- `#(path) {body}`. -/
def scopedTag (s : PlainPath) (body : Bytes) : Bytes := printTag s ++ braced body

/-- `path, "name"`. -/
def loopArguments (r : PlainPath) (v : LoopName) : Bytes :=
  Utf8.encode (r.text ++ (", \"" ++ v.text ++ "\""))

/-- `#loop(path, "name") {body}`. -/
def loopTag (r : PlainPath) (v : LoopName) (body : Bytes) : Bytes :=
  Sign.pound :: (Utf8.encode "loop" ++ [Sign.parenOpen] ++
    (loopArguments r v ++ [Sign.parenClose] ++ braced body))

theorem PlainPath.braces_not_mem (p : PlainPath) :
    Sign.braceOpen ∉ Utf8.encode p.text ∧ Sign.braceClose ∉ Utf8.encode p.text :=
  ⟨p.not_mem (by decide) (by decide), p.not_mem (by decide) (by decide)⟩

theorem loopArguments_eq (r : PlainPath) (v : LoopName) :
    loopArguments r v = Utf8.encode r.text ++ [0x2C, 0x20] ++
      (Sign.quote :: Utf8.encode v.text ++ [Sign.quote]) := by
  have hcomma : Utf8.encode ", \"" = [0x2C, 0x20, Sign.quote] := by decide +kernel
  have hquote : Utf8.encode "\"" = [Sign.quote] := by decide +kernel
  rw [loopArguments, Utf8.encode_append, Utf8.encode_append, Utf8.encode_append, hcomma, hquote]
  simp

theorem balanced_printTag (q : PlainPath) : Balanced (printTag q) := by
  obtain ⟨hopen, hclose⟩ := q.braces_not_mem
  refine balanced_of_none ?_ ?_ <;> simp only [printTag, List.mem_cons, List.mem_append,
    List.not_mem_nil, not_or]
  · exact ⟨by decide, by decide, hopen, by decide, not_false⟩
  · exact ⟨by decide, by decide, hclose, by decide, not_false⟩

theorem balanced_loopTag (r : PlainPath) (v : LoopName) {body : Bytes} (h : Balanced body) :
    Balanced (loopTag r v body) := by
  have hname : Balanced (Sign.pound :: (Utf8.encode "loop" ++ [Sign.parenOpen])) := by
    decide +kernel
  have harguments : Balanced (loopArguments r v ++ [Sign.parenClose]) := by
    have hsigns : Balanced [0x2C, 0x20, Sign.quote] ∧ Balanced [Sign.quote, Sign.parenClose] := by
      decide +kernel
    have hpath := balanced_of_none r.braces_not_mem.1 r.braces_not_mem.2
    have hv := balanced_of_none v.braceOpen v.braceClose
    have hall := ((hpath.append hsigns.1).append hv).append hsigns.2
    rw [loopArguments_eq]
    simpa using hall
  exact hname.append (harguments.append (balanced_braced h))

/-! ## Reading them -/

/-- Within a scope, a path that begins with `self` begins as the scope does. -/
theorem PlainPath.head?_within (q s : PlainPath) (h : q.segments.head? = some selfName) :
    (q.within (some s.scope)).head? = s.segments.head? := by
  obtain ⟨rest, hq⟩ := List.head?_eq_some_iff.1 h
  have hne : s.segments ≠ [] := (Path.isPath_of_parse s.parsed).1
  show (s.scope.bind q.segments).head? = _
  rw [hq, Scope.bind_self]
  exact List.head?_append_of_ne_nil _ hne

theorem LoopName.quote_not_mem (v : LoopName) : '"' ∉ v.text.toList := by
  intro hmem
  refine v.quote (List.mem_flatMap.2 ⟨'"', hmem, ?_⟩)
  decide +kernel

namespace SourceReader

variable (scope : Option Scope) {body after : Bytes}

/-- A path between parentheses, and what a tag that prints has behind them. -/
theorem gives_printed (q : PlainPath) {taken : Bytes} {piece : Piece}
    (h : Gives (readBodyAhead (.scopedBody (scopedPath (scope.map Scope.path) (Utf8.encode q.text)))
      (.emit (.print (.path (q.within scope)) .done))) taken after piece) :
    Gives (readTag builtinTags (scope.map Scope.path))
      ([] ++ [Sign.parenOpen] ++ (Utf8.encode q.text ++ [Sign.parenClose] ++ taken)) after
      piece := by
  have htag : builtinTags.find? [] = some .print := by decide +kernel
  have hclose : Sign.parenClose ∉ Utf8.encode q.text :=
    fun hmem => (q.delimiters_not_mem _ hmem).1 rfl
  have hend : Gives (readPrintEnd (scope.map Scope.path) (Utf8.encode q.text)) taken after
      piece := by
    rw [readPrintEnd, List.isEmpty_eq_false_iff.2 q.encode_ne_nil, if_neg Bool.false_ne_true,
      checked_bind (q.parseScoped_text scope)]
    exact h
  exact gives_readTag .print (List.forall_mem_nil _) htag (gives_readPrint hclose hend)

/-- The arguments of a loop: a path, and a name in quotes. -/
theorem gives_loopArguments (r : PlainPath) (v : LoopName) (after : Bytes) :
    Gives readArguments (loopArguments r v ++ [Sign.parenClose]) after (loopArguments r v) := by
  have hbetween : ∀ b ∈ ([0x2C, 0x20] : Bytes), b ≠ Sign.parenClose ∧ b ≠ Sign.quote := by
    decide +kernel
  have hplain : ∀ b ∈ Utf8.encode r.text ++ [0x2C, 0x20],
      b ≠ Sign.parenClose ∧ b ≠ Sign.quote := by
    intro b hb
    rcases List.mem_append.1 hb with hb | hb
    · exact r.delimiters_not_mem b hb
    · exact hbetween b hb
  have hclose := gives_readArgumentsFrom_close (loopArguments r v).reverse after
  rw [List.reverse_reverse] at hclose
  have hfound : Sign.quote :: (Utf8.encode v.text).reverseAux
      (Sign.quote :: ((Utf8.encode r.text ++ [0x2C, 0x20]).reverse ++ [])) =
        (loopArguments r v).reverse := by
    rw [loopArguments_eq]
    simp [List.reverseAux_eq]
  rw [← hfound] at hclose
  have hread := gives_readArgumentsFrom_plain hplain
    (gives_readArgumentsFrom_string v.quote hclose)
  rw [← List.append_assoc, ← loopArguments_eq] at hread
  exact hread

theorem parseArguments_loopArguments (r : PlainPath) (v : LoopName) :
    parseArguments "loop" (loopArguments r v) =
      .ok [⟨.path, Utf8.encode r.text⟩, ⟨.string, Utf8.encode v.text⟩] := by
  rw [parseArguments, loopArguments, decodeText_encode]
  show (Argument.readAll _).mapError (CompileError.badArguments "loop") = _
  rw [Argument.readAll_path_string r.toList_ne_nil r.plain v.quote_not_mem]
  rfl

theorem gives_readLoop (r : PlainPath) (v : LoopName) (h : Balanced body) (after : Bytes) :
    Gives (readLoop (scope.map Scope.path)) (loopArguments r v ++ [Sign.parenClose] ++ braced body)
      after (.loop v.text (r.within scope) body) := by
  refine (gives_readArgumentsOf (gives_loopArguments r v _)
    (parseArguments_loopArguments r v)).bind ?_
  show Gives (if isUsableName (Utf8.encode v.text) = true then _ else _) _ after _
  rw [if_pos v.usable]
  refine (gives_braced h after).bind_nil ?_
  show Gives (checked (parseScoped _ (Utf8.encode r.text)) >>= _) _ after _
  rw [checked_bind (r.parseScoped_text scope)]
  show Gives (checked (decodeText (Utf8.encode v.text)) >>= _) _ after _
  rw [checked_bind (decodeText_encode v.text)]
  exact .pure

end SourceReader

namespace Reading

open SourceReader

variable (scope : Option Scope) {body after : Bytes}

/-- A tag that prints, if no body follows it. -/
theorem through_printTag (q : PlainPath)
    (hafter : (after.dropWhile Bytes.isBlank).head? ≠ some Sign.braceOpen) :
    Through builtinTags (scope.map Scope.path) (printTag q) after
      [.emit (.print (.path (q.within scope)) .done)] := by
  have hread := gives_printed scope q (gives_readBodyAhead_none hafter)
  rw [List.append_nil] at hread
  exact .tag hread

/-- A body with a scope, outside of all scopes. -/
theorem through_scopedTag (s : PlainPath) (h : Balanced body) (after : Bytes) :
    Through builtinTags none (scopedTag s body) after
      [.scopedBody (Utf8.encode s.text) body] := by
  have hread := gives_printed none s (gives_readBodyAhead_body (gives_braced h after))
  exact .tag hread

theorem through_loopTag (r : PlainPath) (v : LoopName) (h : Balanced body) (after : Bytes) :
    Through builtinTags (scope.map Scope.path) (loopTag r v body) after
      [.loop v.text (r.within scope) body] := by
  have hname : ∀ b ∈ Utf8.encode "loop", Bytes.isBlank b = false ∧ b ≠ Sign.parenOpen := by
    decide +kernel
  have htag : builtinTags.find? (Utf8.encode "loop") = some .loop := by decide +kernel
  exact .tag (gives_readTag .loop hname htag (gives_readLoop scope r v h after))

end Reading

/-! ## Compiling them -/

namespace Compiler

/-- In front of `after` the text is read through, and both passes make the block of it and leave
the state as it is. -/
def Becomes (compiler : Compiler) (path : String) (st : CompileState) (text after : Bytes)
    (b : Block) : Prop :=
  ∃ pieces actions blocks, Reading.Through compiler.tags st.scope text after pieces ∧
    compiler.firstPass path pieces st = .ok actions st ∧
    compiler.secondPass actions st = .ok blocks st ∧ b = Block.concat blocks

namespace Becomes

variable {compiler : Compiler} {path : String} {st : CompileState} {text more after : Bytes}
  {b b' : Block}

theorem append (h : compiler.Becomes path st text (more ++ after) b)
    (hmore : compiler.Becomes path st more after b') :
    compiler.Becomes path st (text ++ more) after (b.append b') := by
  obtain ⟨pieces, actions, blocks, hthrough, hfirst, hsecond, rfl⟩ := h
  obtain ⟨pieces', actions', blocks', hthrough', hfirst', hsecond', rfl⟩ := hmore
  exact ⟨_, _, _, hthrough.append hthrough',
    mapM_append_eq_ok.2 ⟨_, _, _, hfirst, hfirst', rfl⟩,
    mapM_append_eq_ok.2 ⟨_, _, _, hsecond, hsecond', rfl⟩,
    (Block.concat_append blocks blocks').symm⟩

theorem blockOf (h : compiler.Becomes path st text [] b) :
    compiler.blockOf text path st = .ok b st := by
  obtain ⟨pieces, actions, blocks, hthrough, hfirst, hsecond, rfl⟩ := h
  exact (blockOf_eq_ok hthrough.ofBytes_eq).2 ⟨_, st, _, hfirst, hsecond, rfl⟩

/-- A text that is one piece. -/
theorem piece {piece : Piece} {action : Action}
    (hthrough : Reading.Through compiler.tags st.scope text after [piece])
    (hfirst : Action.ofPiece (compiler.nestedWith compiler.blockOf) compiler.extension path piece
      st = .ok action st)
    (hsecond : Action.resolve (compiler.nestedWith compiler.blockOf) action st = .ok b st) :
    compiler.Becomes path st text after b :=
  ⟨[piece], [action], [b], hthrough, mapM_cons_of_ok hfirst rfl, mapM_cons_of_ok hsecond rfl,
    b.append_done.symm⟩

end Becomes

section Tags

variable {store : Store} {extension path : String} {st : CompileState} {scope : Option Scope}
  {body after : Bytes} {b : Block}

theorem becomes_printTag (hscope : st.scope = scope.map Scope.path) (q : PlainPath)
    (hafter : (after.dropWhile Bytes.isBlank).head? ≠ some Sign.braceOpen) :
    (usual store extension).Becomes path st (printTag q) after
      (.print (.path (q.within scope)) .done) := by
  have hthrough := Reading.through_printTag scope q hafter
  rw [← hscope] at hthrough
  exact .piece hthrough rfl rfl

/-- A body with a scope becomes what its body does under the scope. -/
theorem becomes_scopedTag (hscope : st.scope = none) (s : PlainPath) (hbody : Balanced body)
    (after : Bytes)
    (h : (usual store extension).Becomes path { st with scope := some s.scope.path } body [] b) :
    (usual store extension).Becomes path st (scopedTag s body) after b := by
  have hthrough := Reading.through_scopedTag s hbody after
  rw [← hscope] at hthrough
  exact .piece hthrough rfl (CompileM.underScope_of_ok h.blockOf)

/-- A loop becomes one over what its body does. -/
theorem becomes_loopTag (hscope : st.scope = scope.map Scope.path) (r : PlainPath) (v : LoopName)
    (hbody : Balanced body) (after : Bytes)
    (h : (usual store extension).Becomes path st body [] b) :
    (usual store extension).Becomes path st (loopTag r v body) after
      (.loop v.text (.path (r.within scope)) b .done) := by
  have hthrough := Reading.through_loopTag scope r v hbody after
  rw [← hscope] at hthrough
  exact .piece hthrough rfl (resolve_loop_eq_ok.2 ⟨b, CompileM.underScope_of_ok h.blockOf, rfl⟩)

end Tags

end Compiler

/-! ## Running them -/

namespace Context

/-- What is laid over a context under another name is not seen. -/
theorem resolve_overlay_of_ne {name : String} {segments : List String}
    (h : segments.head? ≠ some name) (context : Context) (x : Value) :
    (context.overlay name x).resolve segments = context.resolve segments := by
  cases segments with
  | nil => rfl
  | cons first rest =>
      have hne : name ≠ first := fun heq => h (congrArg some heq.symm)
      simp only [resolve, lookup_overlay_of_ne hne]

end Context

namespace Run.Renders

/-- What is written by one run for each of the values. -/
theorem output_forM {m : Value → Run Unit} {g : Value → Except RunError Rendering}
    (h : ∀ x, Renders (m x) (g x)) (elements : List Value) :
    Run.output (elements.forM m) = (elements.mapM fun x => (m x).output).map List.flatten := by
  induction elements with
  | nil => rfl
  | cons x xs ih =>
      have hcons : Run.output ((x :: xs).forM m) =
          (do let r ← (m x).output; let s ← Run.output (xs.forM m); return r ++ s) :=
        (h x).output_append (forM h xs)
      rw [hcons, ih, List.mapM_cons]
      cases (m x).output with
      | error e => rfl
      | ok r => cases xs.mapM fun x => (m x).output <;> rfl

/-- A step writes nothing. -/
theorem output_step_bind {m : Run Unit} {x : Except RunError Rendering} (h : Renders m x) :
    Run.output (do Run.step .unbounded; m) = m.output := by
  rw [step.output_append h]
  cases m.output <;> rfl

end Run.Renders

namespace Block

open Run

/-- What is printed depends on what the path resolves to. -/
theorem run_print_of_resolve {segments : List String} {context context' : Context}
    (h : context.resolve segments = context'.resolve segments) (depth depth' : Nat) :
    (print (.path segments) .done).run .unbounded depth context =
      (print (.path segments) .done).run .unbounded depth' context' := by
  simp only [run, Expr.value, h]

/-- If the body of a loop does the same for each element, at all levels, as in front of the loop,
the loop shows that once for each. -/
theorem output_loop_same {name : String} {iterable : List String} {body : Block}
    {context : Context} {v : Value} (h : context.resolve iterable = .ok v)
    (hbody : ∀ x depth, body.run .unbounded depth (context.overlay name x) =
      body.run .unbounded Machine.maxDepth context) :
    (loop name (.path iterable) body .done).output context =
      (v.elements.mapM fun _ => body.output context).map List.flatten := by
  obtain ⟨x, hx⟩ := body.exists_renders Machine.maxDepth context
  have hnested : ∀ y : Value, nested Machine.maxDepth (fun inner =>
      body.run .unbounded inner (context.overlay name y)) =
        body.run .unbounded Machine.maxDepth context :=
    fun y => hbody y _
  unfold output
  rw [run_loop h]
  simp only [hnested]
  rw [Renders.output_step_bind (Renders.forM (fun _ => hx) v.elements),
    Renders.output_forM fun _ => hx]

end Block

namespace Compiler

variable {store : Store} {extension path : String} {st : CompileState}

/-- `self`, or a path that begins with it, means in the body of a loop what it means in front of
it, if the loop does not bind the first segment of the scope.  What the tag shows in the scope
is shown by each iteration, whatever element is laid over the context, and the loop shows
nothing else. -/
theorem run_selfLoop (s q r : PlainPath) (v : LoopName) (hscope : st.scope = none)
    (hself : q.segments.head? = some selfName) (hspares : s.segments.head? ≠ some v.text)
    (fits : (usual store extension).LengthsFit
      (scopedTag s (printTag q ++ loopTag r v (printTag q))) path st) :
    ∃ shown loop both,
      (usual store extension).compileSource (scopedTag s (printTag q)) path st = .ok shown st ∧
      (usual store extension).compileSource (scopedTag s (loopTag r v (printTag q))) path st =
        .ok loop st ∧
      (usual store extension).compileSource
        (scopedTag s (printTag q ++ loopTag r v (printTag q))) path st = .ok both st ∧
      ∀ context iterated, context.resolve (r.within (some s.scope)) = .ok iterated →
        (∀ x, Machine.run .unbounded shown.code (context.overlay v.text x) =
          Machine.run .unbounded shown.code context) ∧
        Machine.run .unbounded loop.code context =
          (iterated.elements.mapM fun _ => Machine.run .unbounded shown.code context).map
            List.flatten ∧
        Machine.run .unbounded both.code context = (do
          let first ← Machine.run .unbounded shown.code context
          let others ← Machine.run .unbounded loop.code context
          return first ++ others) := by
  let inner : CompileState := { st with scope := some s.scope.path }
  have hinner : inner.scope = (some s.scope).map Scope.path := rfl
  have hnothing : (([] : Bytes).dropWhile Bytes.isBlank).head? ≠ some Sign.braceOpen := nofun
  have hprint := balanced_printTag q
  have hloop := balanced_loopTag r v hprint
  -- The three bodies under the scope, and then the scopes around them.
  have hq : (usual store extension).Becomes path inner (printTag q) [] _ :=
    becomes_printTag hinner q hnothing
  have hqs : (usual store extension).Becomes path inner (loopTag r v (printTag q)) [] _ :=
    becomes_loopTag hinner r v hprint [] hq
  have hpound : (((loopTag r v (printTag q)) ++ []).dropWhile Bytes.isBlank).head? ≠
      some Sign.braceOpen := by
    show some Sign.pound ≠ some Sign.braceOpen
    decide
  have hfront : (usual store extension).Becomes path inner (printTag q)
      (loopTag r v (printTag q) ++ []) (.print (.path (q.within (some s.scope))) .done) :=
    becomes_printTag hinner q hpound
  have hshown := (becomes_scopedTag hscope s hprint [] hq).blockOf
  have hlooped := (becomes_scopedTag hscope s hloop [] hqs).blockOf
  have hboth := (becomes_scopedTag hscope s (hprint.append hloop) [] (hfront.append hqs)).blockOf
  have hwell := fun source => (usual store extension).compileBlock_ensures
    ((usual store extension).levels source st) source path st
  have hfits := fits _ _ hboth
  obtain ⟨hfit, hfit'⟩ := Block.lengthsFit_append.1 hfits
  refine ⟨_, _, _, compileSource_eq_ok.2 ⟨_, hshown, rfl⟩, compileSource_eq_ok.2 ⟨_, hlooped, rfl⟩,
    compileSource_eq_ok.2 ⟨_, hboth, rfl⟩, fun context iterated hiterated => ?_⟩
  simp only [run_code (hwell _ _ _ hshown) hfit, run_code (hwell _ _ _ hlooped) hfit',
    run_code (hwell _ _ _ hboth) hfits]
  have hsame := Context.resolve_overlay_of_ne (q.head?_within s hself ▸ hspares) context
  refine ⟨fun x => ?_, ?_, Block.output_append _ _ context⟩
  · exact congrArg Run.output (Block.run_print_of_resolve (hsame x) _ _)
  · exact Block.output_loop_same hiterated fun x depth => Block.run_print_of_resolve (hsame x) _ _

/-! ### A name that is spared, and one that is not -/

/-- The path `a`. -/
def scopePath : PlainPath :=
  ⟨"a", List.all_eq_true.1 (by decide +kernel), ["a"], by decide +kernel⟩

/-- The path `self`. -/
def selfOnly : PlainPath :=
  ⟨selfName, List.all_eq_true.1 rfl, [selfName], Path.parse_selfPath⟩

/-- The path `xs`. -/
def listPath : PlainPath :=
  ⟨"xs", List.all_eq_true.1 (by decide +kernel), ["xs"], by decide +kernel⟩

/-- A name that no path begins with. -/
def sparing : LoopName :=
  ⟨"x", by decide +kernel, by decide +kernel, by decide +kernel, by decide +kernel⟩

/-- The name that the scope begins with. -/
def shadowing : LoopName :=
  ⟨"a", by decide +kernel, by decide +kernel, by decide +kernel, by decide +kernel⟩

/-- What the tag shows, and then each iteration of the loop. -/
def loopedSource (v : LoopName) : Bytes :=
  scopedTag scopePath (printTag selfOnly ++ loopTag listPath v (printTag selfOnly))

example : loopedSource shadowing =
    Utf8.encode "#(a) \x7b#(self)#loop(xs, \"a\") \x7b#(self)\x7d\x7d" := by
  decide +kernel

/-- What the tag alone is compiled to. -/
def shownBlock : Block := .print (.path ["a"]) .done

/-- What all of it is compiled to. -/
def loopedBlock (v : LoopName) : Block :=
  .print (.path ["a"]) (.loop v.text (.path ["xs"]) shownBlock .done)

/-- Something to show, and a list of two others. -/
def loopedContext : Context :=
  .ofTable [("a", .text "A"), ("xs", .sequence [.text "x", .text "y"])]

theorem compileSource_shown :
    plain.compileSource (scopedTag scopePath (printTag selfOnly)) "" .fresh =
      .ok ⟨shownBlock.code⟩ .fresh := by
  decide +kernel

theorem run_shownBlock :
    Machine.run .unbounded shownBlock.code loopedContext = .ok (Utf8.encode "A") := by
  decide +kernel

theorem blockOf_loopedSource (v : LoopName) (hv : v = sparing ∨ v = shadowing) :
    plain.blockOf (loopedSource v) "" .fresh = .ok (loopedBlock v) .fresh := by
  rcases hv with rfl | rfl <;> decide +kernel

theorem run_selfLoop_sparing :
    selfOnly.segments.head? = some selfName ∧ scopePath.segments.head? ≠ some sparing.text ∧
      plain.LengthsFit (loopedSource sparing) "" .fresh ∧
      ∃ both, plain.compileSource (loopedSource sparing) "" .fresh = .ok both .fresh ∧
        Machine.run .unbounded both.code loopedContext = .ok (Utf8.encode "AAA") := by
  have hspares : scopePath.segments.head? ≠ some sparing.text := by decide +kernel
  have fits : plain.LengthsFit (loopedSource sparing) "" .fresh := by
    intro b s hb
    cases hb.symm.trans (blockOf_loopedSource sparing (.inl rfl))
    decide +kernel
  obtain ⟨shown, loop, both, hshown, -, hboth, hrun⟩ :=
    run_selfLoop scopePath selfOnly listPath sparing rfl rfl hspares fits
  cases compileSource_shown.symm.trans hshown
  obtain ⟨-, hloop, hall⟩ := hrun loopedContext (.sequence [.text "x", .text "y"]) rfl
  refine ⟨rfl, hspares, fits, both, hboth, ?_⟩
  rw [hall, hloop, run_shownBlock]
  decide +kernel

/-- The name of the loop hides what the scope stands for.  The tag shows `A` in front of the loop,
and the element in its body. -/
theorem selfLoop_shadowed :
    shadowing.text ≠ selfName ∧ selfOnly.segments.head? = some selfName ∧
      plain.compileSource (scopedTag scopePath (printTag selfOnly)) "" .fresh =
        .ok ⟨shownBlock.code⟩ .fresh ∧
      Machine.run .unbounded shownBlock.code loopedContext = .ok (Utf8.encode "A") ∧
      plain.compileSource (loopedSource shadowing) "" .fresh =
        .ok ⟨(loopedBlock shadowing).code⟩ .fresh ∧
      Machine.run .unbounded (loopedBlock shadowing).code loopedContext =
        .ok (Utf8.encode "Axy") := by
  have hname : shadowing.text ≠ selfName := by decide +kernel
  have hlooped := compileSource_eq_ok.2 ⟨_, blockOf_loopedSource shadowing (.inr rfl), rfl⟩
  refine ⟨hname, rfl, compileSource_shown, run_shownBlock, hlooped, ?_⟩
  decide +kernel

end Compiler

end Stencil
