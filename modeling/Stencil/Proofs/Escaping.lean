/-
# `Stencil.Proofs.Escaping` — every text without a zero byte can be written as a template

In a source only the pound sign stands for more than itself, and the tag `#()` stands for a
pound sign.  So a text is written as a template by putting `#()` for each of its pound signs.
Nothing else in it needs care, be it braces, parentheses, quotes, or what would be a tag: a
tag that prints looks for a body behind its parentheses, but not where there is nothing
between them.

What is read is the runs of the text between its pound signs, each of them one piece, and the
pound signs.  The induction is on the text, and carries the run that has begun.

**Proved here**, for every store, extension, directory and state, with the usual tags:

    a text without a zero byte renders to itself once its pound signs are escaped, in every
    context, and as it stands if it has none        (`Compiler.run_compileSource_escape`)
-/
import Stencil.Proofs.Concatenation

namespace Stencil

/-- `#()`. -/
def poundTag : Bytes := [Sign.pound, Sign.parenOpen, Sign.parenClose]

/-- The text with `#()` for each pound sign. -/
def escape (text : Bytes) : Bytes :=
  text.flatMap fun b => if b = Sign.pound then poundTag else [b]

example : escape (Utf8.encode "no. #1 \x7b##\x7d") = Utf8.encode "no. #()1 \x7b#()#()\x7d" := by
  decide +kernel

theorem escape_pound_cons (text : Bytes) :
    escape (Sign.pound :: text) = poundTag ++ escape text :=
  rfl

theorem escape_cons {b : UInt8} (h : b ≠ Sign.pound) (text : Bytes) :
    escape (b :: text) = b :: escape text := by
  rw [escape, List.flatMap_cons, if_neg h]
  rfl

/-- Without a pound sign there is nothing to escape. -/
theorem escape_eq_self {text : Bytes} (h : Sign.pound ∉ text) : escape text = text := by
  induction text with
  | nil => rfl
  | cons b text ih =>
      obtain ⟨hb, htext⟩ := not_or.1 (List.mem_cons.not.1 h)
      rw [escape_cons (Ne.symm hb), ih htext]

/-! ## Reading it -/

namespace SourceReader

/-- Nothing between the parentheses is a pound sign, whatever lies behind them. -/
theorem gives_readPrint_nothing (scope : Option Bytes) (after : Bytes) :
    Gives (readPrint scope) [Sign.parenClose] after (.emit (.raw [Sign.pound] .done)) :=
  gives_readPrint List.not_mem_nil .pure

end SourceReader

namespace Reading

variable {scope : Option Bytes}

theorem through_poundTag (after : Bytes) :
    Through builtinTags scope poundTag after [.emit (.raw [Sign.pound] .done)] := by
  have htag : builtinTags.find? [] = some .print := by decide +kernel
  exact .tag (SourceReader.gives_readTag .print (List.forall_mem_nil _) htag
    (SourceReader.gives_readPrint_nothing scope after))

end Reading

/-- The blocks of a text behind a run that has begun: its runs without a pound sign, and the
pound signs between them. -/
def Block.ofEscaped (run : Bytes) : Bytes → List Block
  | [] => literal run
  | b :: text =>
    if b = Sign.pound then literal run ++ .raw [Sign.pound] .done :: ofEscaped [] text
    else ofEscaped (run ++ [b]) text

namespace Compiler

theorem through_escape {scope : Option Bytes} {run text : Bytes}
    (hrun : ∀ b ∈ run, b ≠ Sign.pound ∧ b ≠ Opcode.stop) (htext : Opcode.stop ∉ text) :
    Reading.Through builtinTags scope (run ++ escape text) []
      ((Block.ofEscaped run text).map .emit) := by
  induction text generalizing run with
  | nil =>
      have hliteral : Reading.Through builtinTags scope run [] (Reading.literalPieces run) :=
        .literal hrun nofun
      rw [literalPieces_eq] at hliteral
      rw [show run ++ escape [] = run from List.append_nil run]
      exact hliteral
  | cons b text ih =>
      obtain ⟨hstop, hplain⟩ := not_or.1 (List.mem_cons.not.1 htext)
      by_cases hb : b = Sign.pound
      · subst hb
        have hbehind : ∀ b ∈ (poundTag ++ escape text ++ []).head?, b = Sign.pound := by
          rintro _ ⟨⟩
          rfl
        have hliteral : Reading.Through builtinTags scope run _ (Reading.literalPieces run) :=
          .literal hrun hbehind
        rw [literalPieces_eq] at hliteral
        have hrest := (Reading.through_poundTag _).append (ih (List.forall_mem_nil _) hplain)
        rw [escape_pound_cons, Block.ofEscaped, if_pos rfl, List.map_append]
        exact hliteral.append hrest
      · have hmore : ∀ d ∈ run ++ [b], d ≠ Sign.pound ∧ d ≠ Opcode.stop := by
          intro d hd
          rcases List.mem_append.1 hd with hd | hd
          · exact hrun d hd
          · obtain rfl := List.mem_singleton.1 hd
            exact ⟨hb, Ne.symm hstop⟩
        have hrest := ih hmore hplain
        rw [List.append_assoc] at hrest
        rw [escape_cons hb, Block.ofEscaped, if_neg hb]
        exact hrest

end Compiler

/-! ## Running it -/

namespace Block

theorem output_ofEscaped (run text : Bytes) (context : Context) :
    (concat (ofEscaped run text)).output context = .ok (run ++ text) := by
  induction text generalizing run with
  | nil => rw [ofEscaped, output_literal, List.append_nil]
  | cons b text ih =>
      by_cases hb : b = Sign.pound
      · subst hb
        have hpound : (concat [.raw [Sign.pound] .done]).output context = .ok [Sign.pound] :=
          output_literal [Sign.pound] context
        have hsplit : ofEscaped run (Sign.pound :: text) =
            literal run ++ ([.raw [Sign.pound] .done] ++ ofEscaped [] text) := by
          rw [ofEscaped, if_pos rfl]
          rfl
        rw [hsplit, concat_append, concat_append, output_append, output_append, output_literal,
          hpound, ih]
        rfl
      · rw [ofEscaped, if_neg hb, ih, List.append_assoc]
        rfl

/-- The lengths have fields if those of all runs have. -/
theorem lengthsFit_ofEscaped {run text : Bytes} (hrun : Sign.pound ∉ run)
    (h : ∀ r, r <:+: run ++ text → Sign.pound ∉ r → r.length < Bytes.lengthBound) :
    (concat (ofEscaped run text)).LengthsFit := by
  induction text generalizing run with
  | nil => exact lengthsFit_literal.2 (h run (List.prefix_append run []).isInfix hrun)
  | cons b text ih =>
      by_cases hb : b = Sign.pound
      · subst hb
        have hfirst : (concat (literal run)).LengthsFit :=
          lengthsFit_literal.2 (h run (List.prefix_append run _).isInfix hrun)
        have hrest : (concat (ofEscaped [] text)).LengthsFit := by
          refine ih List.not_mem_nil fun r hr => h r (hr.trans ?_)
          exact ((List.suffix_cons _ text).trans (List.suffix_append run _)).isInfix
        have hpound : ([Sign.pound] : Bytes).length < Bytes.lengthBound := by decide
        rw [ofEscaped, if_pos rfl, concat_append, lengthsFit_append]
        exact ⟨hfirst, hpound, hrest⟩
      · have hmore : Sign.pound ∉ run ++ [b] := by
          intro hmem
          rcases List.mem_append.1 hmem with hmem | hmem
          · exact hrun hmem
          · exact hb (List.mem_singleton.1 hmem).symm
        rw [ofEscaped, if_neg hb]
        exact ih hmore fun r hr => h r (by rwa [List.append_assoc] at hr)

end Block

namespace Compiler

variable {store : Store} {extension path : String} {s : CompileState} {text : Bytes}

/-- A text is escaped to a source that compiles in every state, and leaves it as it is. -/
theorem blockOf_escape (h : Opcode.stop ∉ text) :
    (usual store extension).blockOf (escape text) path s =
      .ok (Block.concat (Block.ofEscaped [] text)) s := by
  have hread : Reading.ofBytes builtinTags s.scope (escape text) = ⟨_, none⟩ :=
    (through_escape (List.forall_mem_nil _) h).ofBytes_eq
  exact (blockOf_eq_ok hread).2 ⟨_, s, _, firstPass_emits _, secondPass_emits _, rfl⟩

/-- Escaping round-trips: a text without a zero byte compiles, in every state, once its pound
signs are escaped, and renders to itself in every context.  Where it has no pound sign it does
so as it stands. -/
theorem run_compileSource_escape (store : Store) (extension path : String) (s : CompileState)
    {text : Bytes} (hstop : Opcode.stop ∉ text)
    (fits : ∀ run, run <:+: text → Sign.pound ∉ run → run.length < Bytes.lengthBound) :
    (∃ t, (usual store extension).compileSource (escape text) path s = .ok t s ∧
        ∀ context, Machine.run .unbounded t.code context = .ok text) ∧
      (Sign.pound ∉ text →
        ∃ t, (usual store extension).compileSource text path s = .ok t s ∧
          ∀ context, Machine.run .unbounded t.code context = .ok text) := by
  have hescaped : ∃ t, (usual store extension).compileSource (escape text) path s = .ok t s ∧
      ∀ context, Machine.run .unbounded t.code context = .ok text := by
    have hblock : (usual store extension).blockOf (escape text) path s = .ok _ s :=
      blockOf_escape hstop
    have hwell := (usual store extension).compileBlock_ensures _ _ _ _ _ _ hblock
    have hfit : (Block.concat (Block.ofEscaped [] text)).LengthsFit :=
      Block.lengthsFit_ofEscaped List.not_mem_nil fits
    refine ⟨_, compileSource_eq_ok.2 ⟨_, hblock, rfl⟩, fun context => ?_⟩
    rw [run_code hwell hfit, Block.output_ofEscaped]
    rfl
  refine ⟨hescaped, fun hpound => ?_⟩
  rwa [escape_eq_self hpound] at hescaped

/-- A text full of signs. -/
def signs : Bytes := Utf8.encode "##if(x) \x7b#\x7d \"#(\""

theorem run_compileSource_escape_signs :
    Opcode.stop ∉ signs ∧
      (∀ run, run <:+: signs → Sign.pound ∉ run → run.length < Bytes.lengthBound) ∧
      ∃ t, plain.compileSource (escape signs) "" .fresh = .ok t .fresh ∧
        ∀ context, Machine.run .unbounded t.code context = .ok signs := by
  have hstop : Opcode.stop ∉ signs := by decide +kernel
  have hlength : signs.length < Bytes.lengthBound := by decide +kernel
  have fits : ∀ run, run <:+: signs → Sign.pound ∉ run → run.length < Bytes.lengthBound :=
    fun run hrun _ => Nat.lt_of_le_of_lt hrun.length_le hlength
  exact ⟨hstop, fits, (run_compileSource_escape _ ".leaf" "" .fresh hstop fits).1⟩

end Compiler

end Stencil
