/-
# `Stencil.Proofs.Listed` — a listing shows what a run reads

A listing goes through code from front to back.  It finds the end of a block by its zero byte
and pays no attention to the lengths.  The machine goes by the lengths: it jumps over a block
that it does not run, and back to the body of a loop.  That both come to the same elements is
due to the code: the lengths in the code of a block are those of its blocks.

`Block.marks` are the places in the code of a block where something is to be found, in the
order of the tree: each element, the byte that ends each block, and the byte that ends each
loop.  A listing has one line for each of them, and a run reads nowhere else.

    walk of the code     the lines of the block, in order          (`Listing.walk_encode`)
    a step of a run      a state at a block whose marks are listed
                         leads to such a state                     (`Machine.State.charted_next`)

**Proved here**, of all code that a compiler produces, for every context and limit on the steps:
the listing is that of a block, without a fault and in strictly increasing order up to the last
byte, and what any step of a run reads is listed (`Compiler.lines_of_produces`).
-/
import Stencil.Bytecode.Listing
import Stencil.Proofs.Compiled
import Stencil.Proofs.Stepping

namespace Stencil

open EStateM (Result)

/-! ## Places in the code -/

/-- A place in code: where an element begins, or the byte that ends a block or a loop. -/
inductive Mark where
  | element (position : Nat)
  | stop (position : Nat)
  | close (position : Nat)
deriving DecidableEq, Repr

/-- Where it is. -/
def Mark.position : Mark → Nat
  | element position | stop position | close position => position

/-- An expression as a listing shows it. -/
def Expr.listed : Expr → ListedExpr
  | path segments => .path segments
  | always => .always

namespace Block

/-- The bytes in front of the blocks of the first element of a block, or the one that ends it. -/
def head : Block → Bytes
  | done => [Opcode.stop]
  | raw data _ => Opcode.raw :: (Bytes.lengthField data.length ++ data)
  | print e _ => Opcode.statement :: (Opcode.print :: e.encode)
  | branch e yes _ => Opcode.statement :: branchHead e yes.encode.length 0
  | branchElse e yes no _ => Opcode.statement :: branchHead e yes.encode.length no.encode.length
  | loop name e body _ => Opcode.statement :: loopHead name e body.encode.length

/-- The places in the code of a block that starts at a position, in the order of the tree. -/
def marks : Block → Nat → List Mark
  | done, start => [.stop start]
  | raw data next, start => .element start :: next.marks (start + (raw data next).head.length)
  | print e next, start => .element start :: next.marks (start + (print e next).head.length)
  | branch e yes next, start =>
    let first := start + (branch e yes next).head.length
    .element start :: (yes.marks first ++ next.marks (first + yes.encode.length))
  | branchElse e yes no next, start =>
    let first := start + (branchElse e yes no next).head.length
    let second := first + yes.encode.length
    .element start ::
      (yes.marks first ++ (no.marks second ++ next.marks (second + no.encode.length)))
  | loop name e body next, start =>
    let first := start + (loop name e body next).head.length
    let close := first + body.encode.length
    .element start :: (body.marks first ++ .close close :: next.marks (close + 1))

/-- The lines of a listing of a block that starts at a position. -/
def listing : Block → Nat → Nat → List ListedLine
  | done, depth, start => [.item depth start .stop]
  | raw data next, depth, start =>
    .item depth start (.raw data.length data) ::
      next.listing depth (start + (raw data next).head.length)
  | print e next, depth, start =>
    .item depth start (.print e.listed) ::
      next.listing depth (start + (print e next).head.length)
  | branch e yes next, depth, start =>
    let first := start + (branch e yes next).head.length
    .item depth start (.branch e.listed yes.encode.length 0) ::
      (yes.listing (depth + 1) first ++ next.listing depth (first + yes.encode.length))
  | branchElse e yes no next, depth, start =>
    let first := start + (branchElse e yes no next).head.length
    let second := first + yes.encode.length
    .item depth start (.branch e.listed yes.encode.length no.encode.length) ::
      (yes.listing (depth + 1) first ++ .otherwise depth ::
        (no.listing (depth + 1) second ++ next.listing depth (second + no.encode.length)))
  | loop name e body next, depth, start =>
    let first := start + (loop name e body next).head.length
    let close := first + body.encode.length
    .item depth start (.loop name e.listed body.encode.length) ::
      (body.listing (depth + 1) first ++ .item depth close (.loopEnd true) ::
        next.listing depth (close + 1))

theorem length_head_pos (b : Block) : 0 < b.head.length := by
  cases b <;> exact Nat.succ_pos _

end Block

/-! ## The order of the places -/

/-- The places come one behind the other, from a position on and before another. -/
structure Rising (marks : List Mark) (start stop : Nat) : Prop where
  le : start ≤ stop
  within : ∀ m ∈ marks, start ≤ m.position ∧ m.position < stop
  increasing : marks.Pairwise fun m m' => m.position < m'.position

namespace Rising

variable {marks marks' : List Mark} {start middle stop : Nat} {m : Mark}

theorem single (m : Mark) : Rising [m] m.position (m.position + 1) where
  le := Nat.le_succ _
  within := by
    intro m' hm
    obtain rfl := List.mem_singleton.1 hm
    exact ⟨Nat.le_refl _, Nat.lt_succ_self _⟩
  increasing := List.pairwise_singleton _ m

theorem append (h : Rising marks start middle) (h' : Rising marks' middle stop) :
    Rising (marks ++ marks') start stop where
  le := Nat.le_trans h.le h'.le
  within m hm := by
    rcases List.mem_append.1 hm with hm | hm
    · exact ⟨(h.within m hm).1, Nat.lt_of_lt_of_le (h.within m hm).2 h'.le⟩
    · exact ⟨Nat.le_trans h.le (h'.within m hm).1, (h'.within m hm).2⟩
  increasing := by
    refine List.pairwise_append.2 ⟨h.increasing, h'.increasing, fun m hm m' hm' => ?_⟩
    exact Nat.lt_of_lt_of_le (h.within m hm).2 (h'.within m' hm').1

/-- A place, and those that come somewhere behind it. -/
theorem cons (hm : m.position < middle) (h : Rising marks middle stop) :
    Rising (m :: marks) m.position stop where
  le := Nat.le_trans (Nat.le_of_lt hm) h.le
  within m' hm' := by
    rcases List.mem_cons.1 hm' with rfl | hm'
    · exact ⟨Nat.le_refl _, Nat.lt_of_lt_of_le hm h.le⟩
    · exact ⟨Nat.le_of_lt (Nat.lt_of_lt_of_le hm (h.within m' hm').1), (h.within m' hm').2⟩
  increasing := by
    refine List.pairwise_cons.2 ⟨fun m' hm' => ?_, h.increasing⟩
    exact Nat.lt_of_lt_of_le hm (h.within m' hm').1

end Rising

namespace Block

/-- The places of a block lie in its code, one behind the other. -/
theorem rising_marks (b : Block) (start : Nat) :
    Rising (b.marks start) start (start + b.encode.length) := by
  -- The element comes first, and what follows starts behind its head.
  have hcons {b : Block} {start stop : Nat} {marks : List Mark}
      (h : Rising marks (start + b.head.length) stop) :
      Rising (.element start :: marks) start stop :=
    .cons (m := .element start) (Nat.lt_add_of_pos_right b.length_head_pos) h
  induction b generalizing start with
  | done => exact .single (.stop start)
  | raw data next ih =>
      rw [encode_raw, List.length_append, ← Nat.add_assoc]
      exact hcons (ih _)
  | print e next ih =>
      rw [encode_print, List.length_append, ← Nat.add_assoc]
      exact hcons (ih _)
  | branch e yes next ihY ih =>
      rw [encode_branch, List.length_append, List.length_append, ← Nat.add_assoc, ← Nat.add_assoc]
      exact hcons ((ihY _).append (ih _))
  | branchElse e yes no next ihY ihN ih =>
      rw [encode_branchElse, List.length_append, List.length_append, List.length_append,
        ← Nat.add_assoc, ← Nat.add_assoc, ← Nat.add_assoc]
      exact hcons ((ihY _).append ((ihN _).append (ih _)))
  | loop name e body next ihB ih =>
      rw [encode_loop, List.length_append, List.length_append, List.length_append,
        ← Nat.add_assoc, ← Nat.add_assoc, ← Nat.add_assoc]
      exact hcons ((ihB _).append (.cons (m := .close _) (Nat.lt_succ_self _) (ih _)))

end Block

/-! ## The lines of a block -/

/-- The place that a line is about, if it has a position. -/
def ListedLine.mark? : ListedLine → Option Mark
  | item _ position .stop => some (.stop position)
  | item _ position (.loopEnd _) => some (.close position)
  | item _ position _ => some (.element position)
  | otherwise _ | fault _ => none

/-- It is known what the opcode stands for. -/
def ListedExpr.Known : ListedExpr → Prop
  | path _ | always => True
  | unknown _ => False

/-- What is listed is known, and a loop is closed. -/
def ListedItem.Known : ListedItem → Prop
  | stop | raw .. => True
  | print e | branch e _ _ | loop _ e _ => e.Known
  | loopEnd closed => closed = true
  | unknown _ | unknownStatement _ => False

/-- The line is about something known, and no fault. -/
def ListedLine.Known : ListedLine → Prop
  | item _ _ what => what.Known
  | otherwise _ => True
  | fault _ => False

theorem Expr.known_listed (e : Expr) : e.listed.Known := by
  cases e <;> trivial

namespace Block

theorem known_listing {b : Block} {depth start : Nat} :
    ∀ line ∈ b.listing depth start, line.Known := by
  induction b generalizing depth start with
  | done => exact List.forall_mem_singleton.2 trivial
  | raw data next ih => exact List.forall_mem_cons.2 ⟨trivial, ih⟩
  | print e next ih => exact List.forall_mem_cons.2 ⟨e.known_listed, ih⟩
  | branch e yes next ihY ih =>
      exact List.forall_mem_cons.2 ⟨e.known_listed, List.forall_mem_append.2 ⟨ihY, ih⟩⟩
  | branchElse e yes no next ihY ihN ih =>
      refine List.forall_mem_cons.2 ⟨e.known_listed, List.forall_mem_append.2 ⟨ihY, ?_⟩⟩
      exact List.forall_mem_cons.2 ⟨trivial, List.forall_mem_append.2 ⟨ihN, ih⟩⟩
  | loop name e body next ihB ih =>
      refine List.forall_mem_cons.2 ⟨e.known_listed, List.forall_mem_append.2 ⟨ihB, ?_⟩⟩
      exact List.forall_mem_cons.2 ⟨rfl, ih⟩

/-- The lines with a position are about the places of the block. -/
theorem filterMap_listing (b : Block) (depth start : Nat) :
    (b.listing depth start).filterMap ListedLine.mark? = b.marks start := by
  induction b generalizing depth start with
  | done => rfl
  | raw data next ih => exact congrArg (Mark.element start :: ·) (ih _ _)
  | print e next ih => exact congrArg (Mark.element start :: ·) (ih _ _)
  | branch e yes next ihY ih =>
      refine congrArg (Mark.element start :: ·) ?_
      rw [List.filterMap_append, ihY, ih]
  | branchElse e yes no next ihY ihN ih =>
      refine congrArg (Mark.element start :: ·) ?_
      rw [List.filterMap_append, ihY]
      refine congrArg (_ ++ ·) ?_
      show List.filterMap _ (no.listing _ _ ++ next.listing _ _) = _
      rw [List.filterMap_append, ihN, ih]
  | loop name e body next ihB ih =>
      refine congrArg (Mark.element start :: ·) ?_
      rw [List.filterMap_append, ihB]
      exact congrArg (fun rest => _ ++ Mark.close _ :: rest) (ih _ _)

/-- The last line is about the last byte. -/
theorem getLast?_listing (b : Block) (depth start : Nat) :
    (b.listing depth start).getLast? =
      some (.item depth (start + b.encode.length - 1) .stop) := by
  induction b generalizing depth start with
  | done => rfl
  | raw data next ih =>
      rw [listing, List.getLast?_cons, ih, encode_raw, List.length_append, ← Nat.add_assoc]
      rfl
  | print e next ih =>
      rw [listing, List.getLast?_cons, ih, encode_print, List.length_append, ← Nat.add_assoc]
      rfl
  | branch e yes next ihY ih =>
      rw [listing, List.getLast?_cons, List.getLast?_append, ih, encode_branch, List.length_append,
        List.length_append, ← Nat.add_assoc, ← Nat.add_assoc]
      rfl
  | branchElse e yes no next ihY ihN ih =>
      rw [listing, List.getLast?_cons, List.getLast?_append, List.getLast?_cons,
        List.getLast?_append, ih, encode_branchElse, List.length_append, List.length_append,
        List.length_append, ← Nat.add_assoc, ← Nat.add_assoc, ← Nat.add_assoc]
      rfl
  | loop name e body next ihB ih =>
      rw [listing, List.getLast?_cons, List.getLast?_append, List.getLast?_cons, ih, encode_loop,
        List.length_append, List.length_append, List.length_append, ← Nat.add_assoc,
        ← Nat.add_assoc, ← Nat.add_assoc]
      rfl

end Block

/-! ## Walking the code of a block -/

/-- The first element of a block as a listing shows it, or the end of the block. -/
def Block.item : Block → ListedItem
  | done => .stop
  | raw data _ => .raw data.length data
  | print e _ => .print e.listed
  | branch e yes _ => .branch e.listed yes.encode.length 0
  | branchElse e yes no _ => .branch e.listed yes.encode.length no.encode.length
  | loop name e body _ => .loop name e.listed body.encode.length

namespace Listing

open CodeReader

section Readers

variable {after : Bytes}

theorem yields_readExpr {e : Expr} (he : e.WellFormed) :
    Yields readExpr e.encode after (.ok e.listed) := by
  cases e with
  | path segments =>
      show Yields readExpr ([Opcode.path] ++ encodePath segments) after _
      refine Yields.bind_ok (yields_readByte _) ?_
      rw [if_pos rfl]
      exact (yields_readPath he).map_ok ListedExpr.path
  | always => exact Yields.bind_ok_nil (yields_readByte _) (.pure _)

theorem yields_branchItem {e : Expr} {yes no : Nat} (he : e.WellFormed)
    (hyes : yes < Bytes.lengthBound) (hno : no < Bytes.lengthBound) :
    Yields readStatement (Block.branchHead e yes no) after (.ok (.branch e.listed yes no)) := by
  show Yields readStatement
    ([Opcode.branch] ++ (e.encode ++ (Bytes.lengthField yes ++ Bytes.lengthField no))) after _
  refine Yields.bind_ok (yields_readByte _) ?_
  refine Yields.bind_ok (yields_readExpr he) ?_
  exact Yields.bind_ok (yields_readLength hyes) (.bind_ok_nil (yields_readLength hno) (.pure _))

theorem yields_loopItem {name : String} {e : Expr} {length : Nat}
    (hname : Opcode.stop ∉ Utf8.encode name) (he : e.WellFormed)
    (hlength : length < Bytes.lengthBound) :
    Yields readStatement (Block.loopHead name e length) after
      (.ok (.loop name e.listed length)) := by
  show Yields readStatement
    ([Opcode.loop] ++ (encodeName name ++ (e.encode ++ Bytes.lengthField length))) after _
  refine Yields.bind_ok (yields_readByte _) ?_
  refine Yields.bind_ok (yields_readName hname) ?_
  exact Yields.bind_ok (yields_readExpr he) (.bind_ok_nil (yields_readLength hlength) (.pure _))

theorem yields_statementItem {bs : Bytes} {what : ListedItem}
    (h : Yields readStatement bs after (.ok what)) :
    Yields readItem (Opcode.statement :: bs) after (.ok what) := by
  show Yields readItem ([Opcode.statement] ++ bs) after _
  exact Yields.bind_ok (yields_readByte _) h

/-- The head of a block is read as its first element. -/
theorem yields_readItem {b : Block} (hb : b.Legible) (hl : b.LengthsFit) :
    Yields readItem b.head after (.ok b.item) := by
  cases b with
  | done => exact Yields.bind_ok_nil (yields_readByte _) (.pure _)
  | raw data next =>
      show Yields readItem ([Opcode.raw] ++ (Bytes.lengthField data.length ++ data)) after _
      refine Yields.bind_ok (yields_readByte _) ?_
      refine Yields.bind_ok (yields_readLength hl.1) ?_
      exact Yields.bind_ok_nil (yields_readBytes data) (.pure _)
  | print e next =>
      refine yields_statementItem ?_
      show Yields readStatement ([Opcode.print] ++ e.encode) after _
      exact Yields.bind_ok (yields_readByte _) ((yields_readExpr hb.1).map_ok ListedItem.print)
  | branch e yes next =>
      exact yields_statementItem (yields_branchItem hb.1 hl.1 (by decide))
  | branchElse e yes no next =>
      exact yields_statementItem (yields_branchItem hb.1 hl.1 hl.2.1)
  | loop name e body next =>
      exact yields_statementItem (yields_loopItem hb.1 hb.2.1 hl.1)

end Readers

section Walk

variable {stack : List Frame} {depth : Nat} {lines : List ListedLine} {c : Cursor} {after : Bytes}

/-- Goes on behind an item. -/
def proceed (stack : List Frame) (depth : Nat) (lines : List ListedLine) (c : Cursor) :
    ListedItem → List ListedLine
  | .stop | .unknown _ | .unknownStatement _ => leave stack lines c
  | .raw .. | .print _ | .loopEnd _ => walk stack depth lines c
  | .branch _ _ 0 => walk (.resume depth :: stack) (depth + 1) lines c
  | .branch _ _ (_ + 1) => walk (.second depth :: stack) (depth + 1) lines c
  | .loop .. => walk (.closeLoop depth :: stack) (depth + 1) lines c

/-- An item that is read is listed, and the walk goes on behind it. -/
theorem walk_eq_proceed {what : ListedItem} {c' : Cursor} (hread : readItem c = .ok what c')
    (hend : c.atEnd = false) : walk stack depth lines c =
      proceed stack depth (.item depth c.position what :: lines) c' what := by
  rw [walk, hend, if_neg Bool.false_ne_true]
  split
  next herror => cases hread.symm.trans herror
  next hok =>
    cases hread.symm.trans hok
    cases what with
    | branch e yes no => cases no <;> rfl
    | _ => rfl

/-- So is the first element of a block. -/
theorem walk_head {b : Block} (hb : b.Legible) (hl : b.LengthsFit) (stack : List Frame)
    (depth : Nat) (lines : List ListedLine) (hc : c.Faces (b.head ++ after)) :
    walk stack depth lines c =
      proceed stack depth (.item depth c.position b.item :: lines) (c.forward b.head.length)
        b.item := by
  refine walk_eq_proceed (yields_readItem hb hl c hc) ?_
  rw [Cursor.atEnd, hc.2, List.isEmpty_eq_false_iff]
  exact List.append_ne_nil_of_left_ne_nil (List.length_pos_iff.1 b.length_head_pos) after

theorem proceed_second {e : ListedExpr} {yes no : Nat} (h : 0 < no) :
    proceed stack depth lines c (.branch e yes no) =
      walk (.second depth :: stack) (depth + 1) lines c := by
  cases no with
  | zero => cases h
  | succ => rfl

theorem leave_resume : leave (.resume depth :: stack) lines c = walk stack depth lines c := by
  rw [leave]

theorem leave_second : leave (.second depth :: stack) lines c =
    walk (.resume depth :: stack) (depth + 1) (.otherwise depth :: lines) c := by
  rw [leave]

theorem leave_closeLoop (hc : c.rest = Opcode.stop :: after) :
    leave (.closeLoop depth :: stack) lines c =
      walk stack depth (.item depth c.position (.loopEnd true) :: lines) (c.forward 1) := by
  have hread := readByte_cons hc
  rw [leave]
  split
  next herror => cases hread.symm.trans herror
  next hok =>
    cases hread.symm.trans hok
    rfl

/-- Walking over the code of a block lists the block, and ends behind its code. -/
theorem walk_encode {b : Block} (hb : b.Legible) (hl : b.LengthsFit) (stack : List Frame)
    (depth : Nat) (lines : List ListedLine) (hc : c.Faces (b.encode ++ after)) :
    walk stack depth lines c =
      leave stack ((b.listing depth c.position).reverse ++ lines) (c.forward b.encode.length) := by
  induction b generalizing stack depth lines c after with
  | done => exact walk_head hb hl stack depth lines hc
  | raw data next ih =>
      rw [Block.encode_raw, List.append_assoc] at hc
      refine (walk_head hb hl stack depth lines hc).trans ?_
      refine (ih hb.2 hl.2 stack depth _ hc.forward).trans ?_
      rw [c.forward_append, Block.encode_raw, Block.listing, List.reverse_cons, List.append_assoc]
      rfl
  | print e next ih =>
      rw [Block.encode_print, List.append_assoc] at hc
      refine (walk_head hb hl stack depth lines hc).trans ?_
      refine (ih hb.2 hl stack depth _ hc.forward).trans ?_
      rw [c.forward_append, Block.encode_print, Block.listing, List.reverse_cons, List.append_assoc]
      rfl
  | branch e yes next ihY ih =>
      rw [Block.encode_branch, List.append_assoc, List.append_assoc] at hc
      refine (walk_head hb hl stack depth lines hc).trans ?_
      refine (ihY hb.2.1 hl.2.1 (.resume depth :: stack) (depth + 1) _ hc.forward).trans ?_
      rw [leave_resume]
      refine (ih hb.2.2 hl.2.2 stack depth _ hc.forward.forward).trans ?_
      rw [Block.encode_branch, ← c.forward_append, ← c.forward_append, Block.listing]
      simp only [List.reverse_cons, List.reverse_append, List.append_assoc]
      rfl
  | branchElse e yes no next ihY ihN ih =>
      obtain ⟨-, -, hly, hln, hlnext⟩ := id hl
      rw [Block.encode_branchElse, List.append_assoc, List.append_assoc, List.append_assoc] at hc
      refine (walk_head hb hl stack depth lines hc).trans ?_
      refine (proceed_second no.length_encode_pos).trans ?_
      refine (ihY hb.2.1 hly (.second depth :: stack) (depth + 1) _ hc.forward).trans ?_
      rw [leave_second]
      refine (ihN hb.2.2.1 hln (.resume depth :: stack) (depth + 1) _ hc.forward.forward).trans ?_
      rw [leave_resume]
      refine (ih hb.2.2.2 hlnext stack depth _ hc.forward.forward.forward).trans ?_
      rw [Block.encode_branchElse, ← c.forward_append, ← c.forward_append,
        ← (c.forward _).forward_append, Block.listing]
      simp only [List.reverse_cons, List.reverse_append, List.append_assoc]
      rfl
  | loop name e body next ihB ih =>
      rw [Block.encode_loop, List.append_assoc, List.append_assoc, List.append_assoc] at hc
      refine (walk_head hb hl stack depth lines hc).trans ?_
      refine (ihB hb.2.2.1 hl.2.1 (.closeLoop depth :: stack) (depth + 1) _ hc.forward).trans ?_
      rw [leave_closeLoop hc.forward.forward.2]
      refine (ih hb.2.2.2 hl.2.2 stack depth _ hc.forward.forward.forward).trans ?_
      rw [Block.encode_loop, ← c.forward_append, ← c.forward_append, ← (c.forward _).forward_append,
        Block.listing]
      simp only [List.reverse_cons, List.reverse_append, List.append_assoc]
      rfl

end Walk

/-- The code of a block is listed as the block is. -/
theorem lines_encode {b : Block} (hb : b.Legible) (hl : b.LengthsFit) :
    lines b.encode = b.listing 0 0 := by
  refine (walk_encode hb hl [] 0 [] (Cursor.faces_ofBytes_nil b.encode)).trans ?_
  rw [leave, List.append_nil, List.reverse_reverse]
  rfl

end Listing

/-! ## What a run reads -/

namespace Machine

open CodeReader

/-- The byte that is to end a loop is looked at if no elements are left for its body. -/
def closing (body : Cursor) (length : Nat) : List Value → List Mark
  | [] => [.close (body.position + length)]
  | _ :: _ => []

/-- What is looked at when a block of the statement ends. -/
def Frame.closing (f : Frame) : List Mark :=
  match f.pending with
  | .goOn _ => []
  | .iterate _ elements length => Machine.closing f.entered length elements

/-- What is looked at when a task is taken up, whose blocks lie ahead. -/
def closingOf (c : Cursor) : Task → List Mark
  | .write _ | .choose .. => []
  | .each _ elements length => closing c length elements

namespace State

/-- Where the next step reads: at the end of a block or at an element, and at the end of a loop
when its body has been run for the last time or is not run at all. -/
def reads (limits : Limits) : State → List Mark
  | ended _ => []
  | running context c p frames =>
    match readByte c with
    -- behind the last byte an element is looked for, too
    | .error _ _ => [.element c.position]
    | .ok opcode c₁ =>
      if opcode = Opcode.stop then .stop c.position :: (frames.head?.map Frame.closing).getD []
      else .element c.position ::
        match limits.exceededBy (p.steps + 1) with
        | some _ => []
        | none =>
          match readTask context opcode c₁ with
          | .error _ _ => []
          | .ok task c₂ => closingOf c₂ task

section

variable {limits : Limits} {context : Context} {c : Cursor} {p : Progress} {frames : List Frame}

theorem reads_stop {after : Bytes} (h : c.rest = Opcode.stop :: after) :
    (running context c p frames).reads limits =
      .stop c.position :: (frames.head?.map Frame.closing).getD [] := by
  simp only [reads, readByte_cons h, if_true]

theorem reads_element {opcode : UInt8} {bs : Bytes} (h : c.rest = opcode :: bs)
    (hne : opcode ≠ Opcode.stop) :
    (running context c p frames).reads limits = .element c.position ::
      match limits.exceededBy (p.steps + 1) with
      | some _ => []
      | none =>
        match readTask context opcode (c.forward 1) with
        | .error _ _ => []
        | .ok task c' => closingOf c' task := by
  simp only [reads, readByte_cons h, if_neg hne]

end

end State

/-- A value that was computed in two steps comes from the second. -/
theorem exists_of_bind {α β : Type} {x : Except RunError α} {f : α → Except RunError β} {b : β}
    (h : (x >>= f) = .ok b) : ∃ a, f a = .ok b := by
  cases x with
  | ok a => exact ⟨a, h⟩
  | error e => cases h

/-! ### States whose marks are listed -/

section Charted

variable (listed : Mark → Prop)

/-- A block lies ahead, all places of which are listed. -/
def Charted (c : Cursor) : Prop :=
  ∃ (b : Block) (after : Bytes), b.Legible ∧ b.LengthsFit ∧ c.Faces (b.encode ++ after) ∧
    ∀ m ∈ b.marks c.position, listed m

/-- The byte that ends a loop lies ahead, and is listed, and more of a block lies behind it. -/
structure ChartedEnd (c : Cursor) : Prop where
  stop : ∃ after, c.rest = Opcode.stop :: after
  close : listed (.close c.position)
  behind : Charted listed (c.forward 1)

/-- Wherever the machine goes on for a statement, what lies ahead is listed. -/
def Frame.Charted (f : Frame) : Prop :=
  match f.pending with
  | .goOn behind => Machine.Charted listed behind
  | .iterate _ _ length =>
    Machine.Charted listed f.entered ∧ ChartedEnd listed (f.entered.forward length)

/-- Wherever the machine goes for a task, what lies ahead is listed. -/
def ChartedTask (c : Cursor) : Task → Prop
  | .write _ => Charted listed c
  | .choose holds yes no =>
    (holds = true → Charted listed c) ∧ (0 < no → Charted listed (c.forward yes)) ∧
      Charted listed (c.forward (yes + no))
  | .each _ _ length => Charted listed c ∧ ChartedEnd listed (c.forward length)

/-- What lies ahead in the block that is running is listed, and for each block around it. -/
def State.Charted : State → Prop
  | .running _ c _ frames => Machine.Charted listed c ∧ ∀ f ∈ frames, f.Charted listed
  | .ended _ => True

end Charted

namespace State

variable {listed : Mark → Prop} {c : Cursor} {frames : List Frame}

/-- The body of a loop is run again, or the loop ends. -/
theorem charted_iterate {body : Cursor} {length : Nat} (hbody : Machine.Charted listed body)
    (hend : ChartedEnd listed (body.forward length)) (hframes : ∀ f ∈ frames, f.Charted listed)
    (statement : Nat) (context : Context) (name : String) (p : Progress) (elements : List Value) :
    (∀ m ∈ closing body length elements, listed m) ∧
      (iterate statement context body name length p frames elements).Charted listed := by
  cases elements with
  | nil =>
      obtain ⟨after, hstop⟩ := hend.stop
      refine ⟨List.forall_mem_singleton.2 hend.close, ?_⟩
      simp only [iterate, closeLoop, hstop, if_true]
      exact ⟨hend.behind, hframes⟩
  | cons x xs =>
      exact ⟨List.forall_mem_nil _, hbody, List.forall_mem_cons.2 ⟨⟨hbody, hend⟩, hframes⟩⟩

theorem charted_leave (hframes : ∀ f ∈ frames, f.Charted listed) (c : Cursor) (p : Progress) :
    (∀ m ∈ (frames.head?.map Frame.closing).getD [], listed m) ∧
      (leave c p frames).Charted listed := by
  cases frames with
  | nil => exact ⟨List.forall_mem_nil _, trivial⟩
  | cons f frames =>
      obtain ⟨hf, houter⟩ := List.forall_mem_cons.1 hframes
      obtain ⟨statement, entered, context, pending⟩ := f
      cases pending with
      | goOn behind => exact ⟨List.forall_mem_nil _, hf, houter⟩
      | iterate name elements length =>
          exact charted_iterate hf.1 hf.2 houter statement context name p elements

theorem charted_undertake {task : Task} (htask : ChartedTask listed c task)
    (hframes : ∀ f ∈ frames, f.Charted listed) (statement : Nat) (context : Context)
    (p : Progress) :
    (∀ m ∈ closingOf c task, listed m) ∧
      (undertake statement context c p frames task).Charted listed := by
  cases task with
  | write data => exact ⟨List.forall_mem_nil _, htask, hframes⟩
  | choose holds yes no =>
      obtain ⟨hyes, hno, hbehind⟩ := htask
      refine ⟨List.forall_mem_nil _, ?_⟩
      simp only [undertake]
      split
      next henters =>
        refine ⟨?_, List.forall_mem_cons.2 ⟨hbehind, hframes⟩⟩
        cases holds with
        | true => exact c.forward_zero.symm ▸ hyes rfl
        | false => exact hno (by simpa using henters)
      next => exact ⟨hbehind, hframes⟩
  | each name elements length =>
      exact charted_iterate htask.1 htask.2 hframes statement context name p elements

section

variable {limits : Limits} {context : Context} {p : Progress}

/-- A step over an element, if what is ahead for its task is listed. -/
theorem charted_next_element {opcode : UInt8} {bs : Bytes} (hc : c.rest = opcode :: bs)
    (hne : opcode ≠ Opcode.stop) (hmark : listed (.element c.position))
    (htask : ∀ task c', readTask context opcode (c.forward 1) = .ok task c' →
      ChartedTask listed c' task)
    (hframes : ∀ f ∈ frames, f.Charted listed) :
    (∀ m ∈ (running context c p frames).reads limits, listed m) ∧
      ((running context c p frames).next limits).Charted listed := by
  rw [reads_element hc hne, next_element hc hne, List.forall_mem_cons, and_assoc]
  refine ⟨hmark, ?_⟩
  cases limits.exceededBy (p.steps + 1) with
  | some limit => exact ⟨List.forall_mem_nil _, trivial⟩
  | none =>
      cases hread : readTask context opcode (c.forward 1) with
      | error e _ => exact ⟨List.forall_mem_nil _, trivial⟩
      | ok task c' =>
          exact charted_undertake (htask task c' hread) hframes c.position context p.tick

theorem chartedTask_of_yields {opcode : UInt8} {front behind : Bytes} {x : Except RunError Task}
    (h : Yields (readTask context opcode) front behind x)
    (hc : c.Faces (opcode :: front ++ behind))
    (hx : ∀ task, x = .ok task → ChartedTask listed (c.forward (opcode :: front).length) task) :
    ∀ task c', readTask context opcode (c.forward 1) = .ok task c' →
      ChartedTask listed c' task := by
  intro task c' hread
  have hopcode : c.Faces ([opcode] ++ (front ++ behind)) := hc
  obtain ⟨htask, rfl⟩ := h.eq_ok hopcode.forward hread
  have hwhole := c.forward_append [opcode] front
  exact hwhole ▸ hx task htask

/-- What a step reads is listed, and it leads to a state before which all is listed. -/
theorem charted_next {s : State} (h : s.Charted listed) (limits : Limits) :
    (∀ m ∈ s.reads limits, listed m) ∧ (s.next limits).Charted listed := by
  cases s with
  | ended result => exact ⟨List.forall_mem_nil _, trivial⟩
  | running context c p frames =>
      obtain ⟨⟨b, after, hb, hl, hc, hmarks⟩, hframes⟩ := h
      cases b with
      | done =>
          rw [reads_stop hc.2, next_stop hc.2, List.forall_mem_cons, and_assoc]
          exact ⟨hmarks _ List.mem_cons_self, charted_leave hframes (c.forward 1) p⟩
      | raw data next =>
          rw [Block.encode_raw, List.append_assoc] at hc
          refine charted_next_element hc.2 (by decide) (hmarks _ List.mem_cons_self)
            (chartedTask_of_yields (yields_raw hl.1) hc ?_) hframes
          rintro _ ⟨⟩
          exact ⟨next, after, hb.2, hl.2, hc.forward, fun m hm => hmarks m (.tail _ hm)⟩
      | print e next =>
          rw [Block.encode_print, List.append_assoc] at hc
          refine charted_next_element hc.2 (by decide) (hmarks _ List.mem_cons_self)
            (chartedTask_of_yields (yields_print hb.1) hc ?_) hframes
          intro task htask
          obtain ⟨v, hv⟩ := exists_of_bind htask
          obtain ⟨data, hdata⟩ := exists_of_bind hv
          cases hdata
          exact ⟨next, after, hb.2, hl, hc.forward, fun m hm => hmarks m (.tail _ hm)⟩
      | branch e yes next =>
          rw [Block.encode_branch, List.append_assoc, List.append_assoc] at hc
          obtain ⟨hmark, hblocks⟩ := List.forall_mem_cons.1 hmarks
          obtain ⟨hyesMarks, hnextMarks⟩ := List.forall_mem_append.1 hblocks
          refine charted_next_element hc.2 (by decide) hmark
            (chartedTask_of_yields (yields_branch hb.1 hl.1 (by decide) rfl) hc ?_) hframes
          intro task htask
          obtain ⟨v, hv⟩ := exists_of_bind htask
          cases hv
          exact ⟨fun _ => ⟨yes, _, hb.2.1, hl.2.1, hc.forward, hyesMarks⟩, nofun,
            next, after, hb.2.2, hl.2.2, hc.forward.forward, hnextMarks⟩
      | branchElse e yes no next =>
          obtain ⟨hyes, hno, hly, hln, hlnext⟩ := hl
          rw [Block.encode_branchElse] at hc
          rw [List.append_assoc, List.append_assoc, List.append_assoc] at hc
          obtain ⟨hmark, hblocks⟩ := List.forall_mem_cons.1 hmarks
          obtain ⟨hyesMarks, hblocks⟩ := List.forall_mem_append.1 hblocks
          obtain ⟨hnoMarks, hnextMarks⟩ := List.forall_mem_append.1 hblocks
          refine charted_next_element hc.2 (by decide) hmark
            (chartedTask_of_yields (yields_branch hb.1 hyes hno List.length_append)
              (by rwa [List.append_assoc]) ?_) hframes
          intro task htask
          obtain ⟨v, hv⟩ := exists_of_bind htask
          cases hv
          have hbehind := hc.forward.forward.forward
          refine ⟨fun _ => ⟨yes, _, hb.2.1, hly, hc.forward, hyesMarks⟩,
            fun _ => ⟨no, _, hb.2.2.1, hln, hc.forward.forward, hnoMarks⟩, ?_⟩
          rw [← (c.forward _).forward_forward]
          exact ⟨next, after, hb.2.2.2, hlnext, hbehind, hnextMarks⟩
      | loop name e body next =>
          rw [Block.encode_loop, List.append_assoc, List.append_assoc, List.append_assoc] at hc
          obtain ⟨hmark, hblocks⟩ := List.forall_mem_cons.1 hmarks
          obtain ⟨hbodyMarks, hblocks⟩ := List.forall_mem_append.1 hblocks
          obtain ⟨hclose, hnextMarks⟩ := List.forall_mem_cons.1 hblocks
          refine charted_next_element hc.2 (by decide) hmark
            (chartedTask_of_yields (yields_loop hb.1 hb.2.1 hl.1) hc ?_) hframes
          intro task htask
          obtain ⟨v, hv⟩ := exists_of_bind htask
          cases hv
          have hend := hc.forward.forward
          exact ⟨⟨body, _, hb.2.2.1, hl.2.1, hc.forward, hbodyMarks⟩, ⟨_, hend.2⟩, hclose,
            next, after, hb.2.2.2, hl.2.2, hend.forward, hnextMarks⟩

end

/-- So it goes on, if the code is that of a block with listed places. -/
theorem charted_steps {b : Block} (hb : b.Legible) (hl : b.LengthsFit)
    (hmarks : ∀ m ∈ b.marks 0, listed m) (limits : Limits) (context : Context) (n : Nat) :
    ((next limits)^[n] (start b.encode context)).Charted listed := by
  induction n with
  | zero =>
      have hfaces := Cursor.faces_ofBytes_nil b.encode
      exact ⟨⟨b, [], hb, hl, hfaces, hmarks⟩, List.forall_mem_nil _⟩
  | succ n ih =>
      rw [Function.iterate_succ_apply']
      exact (charted_next ih limits).2

end State

end Machine

namespace Compiler

variable {compiler : Compiler} {t : Template}

/-- The listing of code that a compiler produces is that of its block, from front to back: it has
one line for each element, the end of each block and the end of each loop, in the order of the
tree and at strictly increasing positions, and nothing in it is unknown, unclosed or an error.
It ends with the last byte.  So it shows every place at which a run reads: what any step reads,
in any context and with any limit on the steps, has a line.  The steps lead to what the run
results in, with any number of levels, unless that goes too deep. -/
theorem lines_of_produces (h : compiler.Produces t) :
    ∃ b : Block, b.WellFormed ∧ t.code = b.encode ∧
      Listing.lines t.code = b.listing 0 0 ∧
      (∀ line ∈ Listing.lines t.code, line.Known) ∧
      (Listing.lines t.code).filterMap ListedLine.mark? = b.marks 0 ∧
      ((b.marks 0).Pairwise fun m m' => m.position < m'.position) ∧
      (Listing.lines t.code).getLast? = some (.item 0 (t.code.length - 1) .stop) ∧
      ∀ limits context,
        (∀ n, ∀ m ∈ ((Machine.State.next limits)^[n] (.start t.code context)).reads limits,
          m ∈ (Listing.lines t.code).filterMap ListedLine.mark?) ∧
        ∀ levels, Machine.State.Reaches limits (.start t.code context)
            (.ended (Machine.runBlock limits levels context (Cursor.ofBytes t.code) .start)) ∨
          ∃ p, Machine.runBlock limits levels context (Cursor.ofBytes t.code) .start =
            .error .depthExceeded p := by
  obtain ⟨b, hb, hl, hcode⟩ := h.exists_block
  have hlines : Listing.lines t.code = b.listing 0 0 := by
    rw [hcode]
    exact Listing.lines_encode hb.legible hl
  rw [hlines, b.filterMap_listing]
  refine ⟨b, hb, hcode, rfl, Block.known_listing, rfl, (b.rising_marks 0).increasing, ?_, ?_⟩
  · rw [b.getLast?_listing, hcode, Nat.zero_add]
  · intro limits context
    refine ⟨fun n => ?_, fun levels => Machine.reaches_runBlock limits levels t.code context⟩
    have hcharted := Machine.State.charted_steps hb.legible hl (fun _ => id) limits context n
    rw [hcode]
    exact (Machine.State.charted_next hcharted limits).1

/-- A branch within a loop, and text behind it. -/
def outlineSource : Bytes :=
  Utf8.encode "#loop(xs, \"x\") \x7b#if(x) \x7ba\x7d##else() \x7b#(x)\x7d\x7db"

/-- Its block. -/
def outlineBlock : Block :=
  .loop "x" (.path ["xs"])
    (.branchElse (.path ["x"]) (.raw [97] .done) (.print (.path ["x"]) .done) .done)
    (.raw [98] .done)

/-- Its code. -/
def outlineCode : Bytes :=
  [2, 2, 120, 0, 1, 120, 115, 0, 0, 29, 0, 0, 0, 2, 1, 1, 120, 0, 0, 7, 0, 0, 0, 7, 0, 0, 0,
    1, 1, 0, 0, 0, 97, 0, 2, 3, 1, 120, 0, 0, 0, 0, 0, 1, 1, 0, 0, 0, 98, 0]

/-- What is to be found in it. -/
def outlineMarks : List Mark :=
  [.element 0, .element 13, .element 27, .stop 33, .element 34, .stop 40, .stop 41, .close 42,
    .element 43, .stop 49]

theorem produces_outlineCode : plain.Produces ⟨outlineCode⟩ := by
  have hblock : plain.blockOf outlineSource "" .fresh = .ok outlineBlock .fresh := by
    decide +kernel
  refine .source (compileSource_eq_ok.2 ⟨_, hblock, by decide +kernel⟩) fun b s hb => ?_
  cases hblock.symm.trans hb
  decide +kernel

theorem lines_of_produces_outline :
    plain.Produces ⟨outlineCode⟩ ∧
      (Listing.lines outlineCode).filterMap ListedLine.mark? = outlineMarks ∧
      ∀ limits context n,
        ∀ m ∈ ((Machine.State.next limits)^[n] (.start outlineCode context)).reads limits,
          m ∈ outlineMarks := by
  obtain ⟨b, -, -, -, -, -, -, -, hruns⟩ := lines_of_produces produces_outlineCode
  have hlisted : (Listing.lines outlineCode).filterMap ListedLine.mark? = outlineMarks := by
    rw [show outlineCode = outlineBlock.encode by decide +kernel,
      Listing.lines_encode (by decide +kernel) (by decide +kernel), Block.filterMap_listing]
    decide +kernel
  refine ⟨produces_outlineCode, hlisted, fun limits context n => ?_⟩
  exact hlisted ▸ (hruns limits context).1 n

end Compiler

end Stencil
