/-
# `Stencil.Proofs.Reading` — what the readers of bytecode do on bytes that are written

`Yields r bs after x` says what a reader does wherever the bytes `bs` lie ahead with
`after` behind them: it moves on by `bs` and gives the value of `x`, or it fails with
the error of `x`.  The bytes before the cursor do not matter, and of `after` only what
a reader looks at without reading it.

The rule for sequencing reads two byte strings one after the other; the primitives
then say of each name, path, length and expression that it is read back from the
bytes that it is written as.
-/
import Stencil.Proofs.Format
import Stencil.Render.Machine

namespace Stencil

/-! ## Cursors -/

namespace Cursor

theorem ext_of_position {c d : Cursor} (hd : c.data = d.data) (hp : c.position = d.position) :
    c = d := by
  obtain ⟨data, position, rest, h⟩ := c
  obtain ⟨data', position', rest', h'⟩ := d
  obtain rfl : data = data' := hd
  obtain rfl : position = position' := hp
  obtain rfl : rest = rest' := h.trans h'.symm
  rfl

theorem forward_forward (c : Cursor) (m n : Nat) : (c.forward m).forward n = c.forward (m + n) :=
  ext_of_position rfl (Nat.add_assoc c.position m n)

theorem forward_append (c : Cursor) (bs cs : Bytes) :
    (c.forward bs.length).forward cs.length = c.forward (bs ++ cs).length := by
  rw [c.forward_forward, List.length_append]

theorem past_eq_forward (c : Cursor) {b : UInt8} {rest : Bytes} (h : c.rest = b :: rest) :
    c.past h = c.forward 1 :=
  ext_of_position rfl rfl

/-- The cursor stands within its byte string, or at its end, and these bytes lie ahead. -/
def Faces (c : Cursor) (bs : Bytes) : Prop := c.position ≤ c.data.length ∧ c.rest = bs

theorem Faces.holds {c : Cursor} {bs cs : Bytes} (h : c.Faces (bs ++ cs)) :
    c.holds bs.length = true := by
  obtain ⟨hin, hrest⟩ := h
  have hlen := congrArg List.length hrest
  rw [c.rest_eq, List.length_drop, List.length_append] at hlen
  rw [Cursor.holds_iff]
  omega

theorem Faces.forward {c : Cursor} {bs cs : Bytes} (h : c.Faces (bs ++ cs)) :
    (c.forward bs.length).Faces cs := by
  exact ⟨(c.holds_iff bs.length).1 h.holds, Cursor.rest_forward_of_append h.2⟩

theorem faces_ofBytes (data : Bytes) : (ofBytes data).Faces data := ⟨Nat.zero_le _, rfl⟩

/-- The bytes lie ahead, and nothing behind them. -/
theorem faces_ofBytes_nil (data : Bytes) : (ofBytes data).Faces (data ++ []) := by
  rw [List.append_nil]
  exact faces_ofBytes data

theorem faces_ofPosition (before after : Bytes) :
    (ofPosition (before ++ after) before.length).Faces after := by
  refine ⟨?_, List.drop_left⟩
  show before.length ≤ (before ++ after).length
  rw [List.length_append]
  exact Nat.le_add_right _ _

theorem forward_ofPosition (data : Bytes) (m n : Nat) :
    (ofPosition data m).forward n = ofPosition data (m + n) :=
  ext_of_position rfl rfl

end Cursor

/-! ## Readers on written bytes -/

/-- Where `bs` and then `after` lie ahead, the reader reads `bs` and gives the value of
`x`, or fails with the error of `x`. -/
def Yields {α : Type} (r : CodeReader α) (bs after : Bytes) (x : Except RunError α) : Prop :=
  ∀ c : Cursor, c.Faces (bs ++ after) →
    match x with
    | .ok a => r c = .ok a (c.forward bs.length)
    | .error e => ∃ c', r c = .error e c'

namespace Yields

variable {α β : Type} {bs cs after : Bytes}

theorem pure (a : α) : Yields (Pure.pure a) [] after (.ok a) := by
  intro c _
  rw [show c.forward [].length = c from c.forward_zero]
  rfl

theorem bind {r : CodeReader α} {f : α → CodeReader β} {x : Except RunError α}
    {y : α → Except RunError β} (hr : Yields r bs (cs ++ after) x)
    (hf : ∀ a, x = .ok a → Yields (f a) cs after (y a)) :
    Yields (r >>= f) (bs ++ cs) after (x >>= y) := by
  intro c hc
  rw [List.append_assoc] at hc
  have first := hr c hc
  cases x with
  | error e =>
      obtain ⟨c', he⟩ := first
      exact ⟨c', by simp only [Bind.bind, EStateM.bind, he]⟩
  | ok a =>
      have second := hf a rfl _ hc.forward
      have hbind : (r >>= f) c = f a (c.forward bs.length) := by
        simp only [Bind.bind, EStateM.bind, first]
      show match y a with
        | .ok b => (r >>= f) c = .ok b (c.forward (bs ++ cs).length)
        | .error e => ∃ c', (r >>= f) c = .error e c'
      rw [hbind, ← c.forward_append]
      exact second

/-- A reader that reads bytes of its own, and then one that may fail. -/
theorem bind_ok {r : CodeReader α} {f : α → CodeReader β} {a : α} {y : Except RunError β}
    (hr : Yields r bs (cs ++ after) (.ok a)) (hf : Yields (f a) cs after y) :
    Yields (r >>= f) (bs ++ cs) after y :=
  Yields.bind (y := fun _ => y) hr fun _ h => by cases h; exact hf

/-- A reader that reads bytes, and then one that reads none. -/
theorem bind_nil {r : CodeReader α} {f : α → CodeReader β} {x : Except RunError α}
    {y : α → Except RunError β} (hr : Yields r bs after x)
    (hf : ∀ a, x = .ok a → Yields (f a) [] after (y a)) :
    Yields (r >>= f) bs after (x >>= y) := by
  have hbind : Yields (r >>= f) (bs ++ []) after (x >>= y) := Yields.bind hr hf
  rwa [List.append_nil] at hbind

theorem bind_ok_nil {r : CodeReader α} {f : α → CodeReader β} {a : α} {y : Except RunError β}
    (hr : Yields r bs after (.ok a)) (hf : Yields (f a) [] after y) :
    Yields (r >>= f) bs after y :=
  Yields.bind_nil (y := fun _ => y) hr fun _ h => by cases h; exact hf

theorem map_ok {r : CodeReader α} {a : α} (h : Yields r bs after (.ok a)) (f : α → β) :
    Yields (f <$> r) bs after (.ok (f a)) := by
  intro c hc
  have hread : r c = .ok a (c.forward bs.length) := h c hc
  show (f <$> r) c = .ok (f a) (c.forward bs.length)
  simp only [Functor.map, EStateM.map, hread]

/-- What a reader gives is what it yields, and it stops behind its bytes. -/
theorem eq_ok {r : CodeReader α} {x : Except RunError α} (h : Yields r bs after x)
    {c c' : Cursor} {a : α} (hc : c.Faces (bs ++ after))
    (hread : r c = .ok a c') : x = .ok a ∧ c' = c.forward bs.length := by
  have hx := h c hc
  cases x with
  | ok b =>
      cases hx.symm.trans hread
      exact ⟨rfl, rfl⟩
  | error e =>
      obtain ⟨d, herror⟩ := hx
      cases herror.symm.trans hread

end Yields

namespace CodeReader

variable {after : Bytes}

theorem readByte_nil {c : Cursor} (h : c.rest = []) :
    readByte c = .error (.unexpectedEnd c.position) c := by
  unfold readByte
  split
  next => rfl
  next hb => cases hb.symm.trans h

theorem readByte_cons {c : Cursor} {b : UInt8} {bs : Bytes} (h : c.rest = b :: bs) :
    readByte c = .ok b (c.forward 1) := by
  unfold readByte
  split
  next hn => cases hn.symm.trans h
  next hb =>
    obtain ⟨rfl, -⟩ := List.cons.inj (hb.symm.trans h)
    rw [c.past_eq_forward]

theorem yields_readByte (b : UInt8) : Yields readByte [b] after (.ok b) := by
  intro c hc
  exact readByte_cons hc.2

theorem yields_readBytes (data : Bytes) : Yields (readBytes data.length) data after (.ok data) := by
  intro c hc
  show readBytes data.length c = .ok data (c.forward data.length)
  rw [readBytes, if_pos hc.holds, hc.2, List.take_left]

theorem yields_require {bs : Bytes} : Yields (require bs.length) [] (bs ++ after) (.ok ()) := by
  intro c (hc : c.Faces (bs ++ after))
  show require bs.length c = .ok () (c.forward 0)
  rw [require, if_pos hc.holds, c.forward_zero]

theorem yields_readLength {n : Nat} (hn : n < Bytes.lengthBound) :
    Yields readLength (Bytes.lengthField n) after (.ok n) := by
  intro c hc
  have h : readBytes (Bytes.lengthField n).length c = .ok (Bytes.lengthField n) _ :=
    yields_readBytes (Bytes.lengthField n) c hc
  show readLength c = .ok n (c.forward (Bytes.lengthField n).length)
  simp only [readLength, Functor.map, EStateM.map]
  rw [← Bytes.length_lengthField n, h]
  exact congrArg (EStateM.Result.ok · _) (Bytes.ofLittleEndian_lengthField hn)

theorem takeWhile_ne_stop {bs : Bytes} (h : Opcode.stop ∉ bs) (x : Bytes) :
    (bs ++ Opcode.stop :: x).takeWhile (· != Opcode.stop) = bs := by
  rw [List.takeWhile_append_of_pos]
  · show bs ++ [] = bs
    exact List.append_nil bs
  · intro b hb
    exact bne_iff_ne.2 fun hbs => h (hbs ▸ hb)

theorem yields_readClosed {data : Bytes} (h : Opcode.stop ∉ data) :
    Yields readClosed (data ++ [Opcode.stop]) after (.ok data) := by
  intro c hc
  have hrest' : c.rest = data ++ Opcode.stop :: after := by
    rw [hc.2, List.append_assoc]
    rfl
  have hdrop : c.rest.drop data.length = Opcode.stop :: after := by
    rw [hrest', List.drop_left]
  show readClosed c = .ok data (c.forward (data ++ [Opcode.stop]).length)
  simp only [readClosed]
  rw [hrest', takeWhile_ne_stop h, ← hrest', hdrop, List.length_append]
  rfl

theorem yields_readName {name : String} (h : Opcode.stop ∉ Utf8.encode name) :
    Yields readName (encodeName name) after (.ok name) := by
  refine Yields.bind_ok_nil (yields_readClosed h) ?_
  rw [Utf8.decode?_encode]
  exact Yields.pure name

theorem readNames_nil {c : Cursor} (found : List String) (h : c.rest = []) :
    readNames found c = .error (.unexpectedEnd c.position) c := by
  rw [readNames]
  split
  next => rfl
  next hb => cases hb.symm.trans h

theorem readNames_stop {c : Cursor} {rest : Bytes} (found : List String)
    (h : c.rest = Opcode.stop :: rest) :
    readNames found c = .ok found.reverse (c.forward 1) := by
  rw [readNames]
  split
  next hn => cases hn.symm.trans h
  next hb =>
    obtain ⟨rfl, -⟩ := List.cons.inj (hb.symm.trans h)
    rw [if_pos rfl, c.past_eq_forward]

/-- Where a byte of a name lies ahead, the readers of names read a name, and then more of them. -/
theorem readNames_eq_bind {c : Cursor} {b : UInt8} {rest : Bytes} (found : List String)
    (hc : c.rest = b :: rest) (hne : b ≠ Opcode.stop) :
    readNames found c = (readName >>= fun name => readNames (name :: found)) c := by
  rw [readNames]
  split
  next hnil => cases hnil.symm.trans hc
  next hb =>
    obtain ⟨rfl, -⟩ := List.cons.inj (hb.symm.trans hc)
    rw [if_neg hne]
    simp only [Bind.bind, EStateM.bind]
    split
    next hread => rw [hread]
    next hread => rw [hread]

theorem yields_readNames (found : List String) : ∀ {segments : List String},
    (∀ s ∈ segments, IsName s) →
      Yields (readNames found) (encodePath segments) after (.ok (found.reverse ++ segments))
  | [], _ => by
      intro c hc
      show readNames found c = .ok (found.reverse ++ []) (c.forward 1)
      rw [readNames_stop found hc.2, List.append_nil]
  | s :: ss, hs => by
      have hname : IsName s := hs s List.mem_cons_self
      have hrest : Yields (readNames (s :: found)) (encodePath ss) after
          (.ok ((s :: found).reverse ++ ss)) :=
        yields_readNames (s :: found) fun t ht => hs t (List.mem_cons_of_mem _ ht)
      have hboth : Yields (readName >>= fun name => readNames (name :: found))
          (encodeName s ++ encodePath ss) after (.ok ((s :: found).reverse ++ ss)) :=
        .bind_ok (yields_readName hname.2) hrest
      rw [encodePath_cons]
      rw [List.reverse_cons, List.append_assoc] at hboth
      intro c hc
      obtain ⟨b, rest, hb, hne⟩ := exists_encodeName_eq_cons hname
      have hfirst : c.rest = b :: (rest ++ encodePath ss ++ after) := by
        rw [hc.2, hb]
        rfl
      show readNames found c = _
      rw [readNames_eq_bind found hfirst hne]
      exact hboth c hc

theorem yields_readPath {segments : List String} (h : IsPath segments) :
    Yields readPath (encodePath segments) after (.ok segments) := by
  refine Yields.bind_ok_nil (yields_readNames [] h.2) ?_
  have hne : ([].reverse ++ segments).isEmpty = false := by
    cases segments with
    | nil => exact absurd rfl h.1
    | cons => rfl
  rw [hne]
  exact Yields.pure segments

end CodeReader

/-! ## Expressions and the heads of elements -/

namespace Block

/-- The bytes of a branch between the opcode of its element and its blocks, which have
these lengths. -/
def branchHead (e : Expr) (yes no : Nat) : Bytes :=
  Opcode.branch :: e.encode ++ (Bytes.lengthField yes ++ Bytes.lengthField no)

/-- The bytes of a loop between the opcode of its element and its body, which has this
length. -/
def loopHead (name : String) (e : Expr) (body : Nat) : Bytes :=
  Opcode.loop :: encodeName name ++ (e.encode ++ Bytes.lengthField body)

theorem encode_raw (data : Bytes) (next : Block) :
    (raw data next).encode =
      Opcode.raw :: (Bytes.lengthField data.length ++ data) ++ next.encode := rfl

theorem encode_print (e : Expr) (next : Block) :
    (print e next).encode = Opcode.statement :: (Opcode.print :: e.encode) ++ next.encode := rfl

theorem encode_branch (e : Expr) (yes next : Block) :
    (branch e yes next).encode =
      (Opcode.statement :: branchHead e yes.encode.length 0 ++ yes.encode) ++ next.encode := by
  simp only [encode, branchHead, List.append_assoc, List.cons_append]

theorem encode_branchElse (e : Expr) (yes no next : Block) :
    (branchElse e yes no next).encode =
      (Opcode.statement :: branchHead e yes.encode.length no.encode.length ++
        (yes.encode ++ no.encode)) ++ next.encode := by
  simp only [encode, branchHead, List.append_assoc, List.cons_append]

theorem encode_loop (name : String) (e : Expr) (body next : Block) :
    (loop name e body next).encode =
      (Opcode.statement :: loopHead name e body.encode.length ++
        (body.encode ++ [Opcode.stop])) ++ next.encode := by
  simp only [encode, loopHead, List.append_assoc, List.cons_append, List.nil_append]

/-- What stands in front of the rest of a block stands in front of its elements too. -/
theorem elementBytes_of_encode {b next : Block} {front : Bytes}
    (h : b.encode = front ++ next.encode) : b.elementBytes = front ++ next.elementBytes := by
  simp only [elementBytes, code_eq_encode, h, List.dropLast_append_of_ne_nil next.encode_ne_nil]

/-- What stands in front of the end of a block is its elements. -/
theorem elementBytes_of_encode_done {b : Block} {front : Bytes}
    (h : b.encode = front ++ done.encode) : b.elementBytes = front := by
  rw [elementBytes_of_encode h]
  exact List.append_nil front

/-- The bytes of a block are those of its elements, and the byte that ends it. -/
theorem encode_eq_elementBytes (b : Block) : b.encode = b.elementBytes ++ [Opcode.stop] := by
  have hnext {b next : Block} {front : Bytes} (h : b.encode = front ++ next.encode)
      (ih : next.encode = next.elementBytes ++ [Opcode.stop]) :
      b.encode = b.elementBytes ++ [Opcode.stop] := by
    rw [elementBytes_of_encode h, List.append_assoc, ← ih, h]
  induction b with
  | done => rfl
  | raw data next ih => exact hnext (encode_raw data next) ih
  | print e next ih => exact hnext (encode_print e next) ih
  | branch e yes next _ ih => exact hnext (encode_branch e yes next) ih
  | branchElse e yes no next _ _ ih => exact hnext (encode_branchElse e yes no next) ih
  | loop name e body next _ ih => exact hnext (encode_loop name e body next) ih

/-- The bytes of two blocks in one are those of the elements of the first, and those of the
second. -/
theorem encode_append (b b' : Block) : (b.append b').encode = b.elementBytes ++ b'.encode := by
  have hnext {b next : Block} {front : Bytes} (h : b.encode = front ++ next.encode)
      (happend : (b.append b').encode = front ++ (next.append b').encode)
      (ih : (next.append b').encode = next.elementBytes ++ b'.encode) :
      (b.append b').encode = b.elementBytes ++ b'.encode := by
    rw [happend, ih, elementBytes_of_encode h, List.append_assoc]
  induction b with
  | done => rfl
  | raw data next ih => exact hnext (encode_raw data next) (encode_raw data _) ih
  | print e next ih => exact hnext (encode_print e next) (encode_print e _) ih
  | branch e yes next _ ih => exact hnext (encode_branch e yes next) (encode_branch e yes _) ih
  | branchElse e yes no next _ _ ih =>
      exact hnext (encode_branchElse e yes no next) (encode_branchElse e yes no _) ih
  | loop name e body next _ ih =>
      exact hnext (encode_loop name e body next) (encode_loop name e body _) ih

end Block

/-- The value of an expression in a context. -/
def Expr.value (context : Context) : Expr → Except RunError Value
  | .path segments => (context.resolve segments).mapError .ofPathFault
  | .always => .ok (.bool true)

theorem Expr.value_of_resolve {context : Context} {segments : List String} {v : Value}
    (h : context.resolve segments = .ok v) : (Expr.path segments).value context = .ok v := by
  rw [value, h]
  rfl

namespace Machine

open CodeReader

variable {after : Bytes} {context : Context}

theorem yields_checked {α : Type} (x : Except RunError α) : Yields (checked x) [] after x := by
  cases x with
  | ok a => exact Yields.pure a
  | error e => exact fun c _ => ⟨c, rfl⟩

theorem yields_evaluate {e : Expr} (he : e.WellFormed) :
    Yields (evaluate context) e.encode after (e.value context) := by
  cases e with
  | path segments =>
      show Yields (evaluate context) ([Opcode.path] ++ encodePath segments) after _
      refine Yields.bind_ok (yields_readByte _) ?_
      rw [if_pos rfl]
      exact Yields.bind_ok_nil (yields_readPath he) (yields_checked _)
  | always =>
      refine Yields.bind_ok_nil (yields_readByte _) ?_
      exact Yields.pure _

/-- What a printed value asks for. -/
def printTask (v : Value) : Except RunError Task :=
  v.output.mapError .ofOutputFault >>= fun data => .ok (.write data)

theorem yields_raw {data : Bytes} (h : data.length < Bytes.lengthBound) :
    Yields (readTask context Opcode.raw) (Bytes.lengthField data.length ++ data) after
      (.ok (.write data)) :=
  Yields.bind_ok (yields_readLength h) (Yields.bind_ok_nil (yields_readBytes data) (Yields.pure _))

theorem yields_print {e : Expr} (he : e.WellFormed) :
    Yields (readTask context Opcode.statement) (Opcode.print :: e.encode) after
      (e.value context >>= printTask) := by
  show Yields _ ([Opcode.print] ++ e.encode) after _
  refine Yields.bind_ok (yields_readByte _) ?_
  refine Yields.bind_nil (yields_evaluate he) fun v _ => ?_
  exact Yields.bind_nil (yields_checked _) fun data _ => Yields.pure (Task.write data)

theorem yields_branch {e : Expr} {yes no : Nat} {blocks : Bytes} (he : e.WellFormed)
    (hy : yes < Bytes.lengthBound) (hn : no < Bytes.lengthBound)
    (hlen : blocks.length = yes + no) :
    Yields (readTask context Opcode.statement) (Block.branchHead e yes no) (blocks ++ after)
      (e.value context >>= fun v => .ok (.choose v.isTrue yes no)) := by
  show Yields _
    ([Opcode.branch] ++ (e.encode ++ (Bytes.lengthField yes ++ Bytes.lengthField no))) _ _
  refine Yields.bind_ok (yields_readByte _) ?_
  refine Yields.bind (yields_evaluate he) fun v _ => ?_
  refine Yields.bind_ok (yields_readLength hy) ?_
  refine Yields.bind_ok_nil (yields_readLength hn) ?_
  rw [← hlen]
  exact Yields.bind_ok_nil yields_require (Yields.pure (Task.choose v.isTrue yes no))

theorem yields_loop {name : String} {e : Expr} {body : Bytes}
    (hname : Opcode.stop ∉ Utf8.encode name) (he : e.WellFormed)
    (hl : body.length < Bytes.lengthBound) :
    Yields (readTask context Opcode.statement) (Block.loopHead name e body.length)
      (body ++ after)
      (e.value context >>= fun v => .ok (.each name v.elements body.length)) := by
  show Yields _ ([Opcode.loop] ++
    (encodeName name ++ (e.encode ++ Bytes.lengthField body.length))) _ _
  refine Yields.bind_ok (yields_readByte _) ?_
  refine Yields.bind_ok (yields_readName hname) ?_
  refine Yields.bind (yields_evaluate he) fun v _ => ?_
  refine Yields.bind_ok_nil (yields_readLength hl) ?_
  exact Yields.bind_ok_nil yields_require (Yields.pure (Task.each name v.elements body.length))

end Machine

end Stencil
