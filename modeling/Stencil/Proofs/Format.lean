/-
# `Stencil.Proofs.Format` — what compiled templates look like, and that each is one tree

`Spells b bs` says that the bytes `bs` are the block `b` written in the format

    element   := RAW length bytes | STATEMENT statement
    statement := BRANCH expr length length block [block]
               | LOOP name expr length block STOP
               | PRINT expr
    block     := element* STOP

It speaks of the bytes alone.  A length field is any four bytes that are read as the
number of bytes of what follows; the second field of a branch is zero if there is no
second block, and only then, for a block has at least the byte that ends it.

**Proved here.**

    b well formed, its lengths below 2 ^ 32   ⟹   Spells b b.encode     (`spells_encode`)
    Spells b bs, Spells b' bs',
      bs ++ x = bs' ++ y                      ⟹   b = b', x = y         (`Spells.unique`)

The second needs no induction on `b'`: the first bytes of `bs` decide by which clause
`bs'` was written, names and paths end at a zero byte that they do not hold, and what
a length field announces has that length.
-/
import Stencil.Bytecode.Block
import Stencil.Proofs.Utf8

namespace Stencil

/-! ## What a block is made of -/

/-- A name that bytecode can hold: not empty, and without a zero byte. -/
def IsName (name : String) : Prop :=
  Utf8.encode name ≠ [] ∧ Opcode.stop ∉ Utf8.encode name

instance (name : String) : Decidable (IsName name) :=
  inferInstanceAs (Decidable (_ ∧ _))

/-- A path that bytecode can hold: at least one segment, and every segment a name. -/
def IsPath (segments : List String) : Prop :=
  segments ≠ [] ∧ ∀ segment ∈ segments, IsName segment

instance (segments : List String) : Decidable (IsPath segments) :=
  inferInstanceAs (Decidable (_ ∧ _))

/-- An expression that bytecode can hold. -/
def Expr.WellFormed : Expr → Prop
  | .path segments => IsPath segments
  | .always => True

instance : DecidablePred Expr.WellFormed
  | .path segments => inferInstanceAs (Decidable (IsPath segments))
  | .always => inferInstanceAs (Decidable True)

namespace Block

/-- All raw bytes, all names of loops and all expressions of a block are as stated. -/
def Every (data : Bytes → Prop) (name : String → Prop) (expr : Expr → Prop) : Block → Prop
  | done => True
  | raw bs next => data bs ∧ next.Every data name expr
  | print e next => expr e ∧ next.Every data name expr
  | branch e yes next => expr e ∧ yes.Every data name expr ∧ next.Every data name expr
  | branchElse e yes no next =>
      expr e ∧ yes.Every data name expr ∧ no.Every data name expr ∧ next.Every data name expr
  | loop n e body next =>
      name n ∧ expr e ∧ body.Every data name expr ∧ next.Every data name expr

section Decide

variable {data : Bytes → Prop} {name : String → Prop} {expr : Expr → Prop}
variable [DecidablePred data] [DecidablePred name] [DecidablePred expr]

instance decideEvery : ∀ b : Block, Decidable (b.Every data name expr)
  | done => inferInstanceAs (Decidable True)
  | raw _ next =>
      have := decideEvery next
      inferInstanceAs (Decidable (_ ∧ _))
  | print _ next =>
      have := decideEvery next
      inferInstanceAs (Decidable (_ ∧ _))
  | branch _ yes next =>
      have := decideEvery yes
      have := decideEvery next
      inferInstanceAs (Decidable (_ ∧ _ ∧ _))
  | branchElse _ yes no next =>
      have := decideEvery yes
      have := decideEvery no
      have := decideEvery next
      inferInstanceAs (Decidable (_ ∧ _ ∧ _ ∧ _))
  | loop _ _ body next =>
      have := decideEvery body
      have := decideEvery next
      inferInstanceAs (Decidable (_ ∧ _ ∧ _ ∧ _))

end Decide

/-- A block as a compiler writes it: raw bytes without a zero byte, and names and paths
that bytecode can hold. -/
def WellFormed (b : Block) : Prop :=
  b.Every (Opcode.stop ∉ ·) IsName Expr.WellFormed

instance (b : Block) : Decidable b.WellFormed :=
  decideEvery b

/-- A block that can be read back from its bytes: raw bytes may be any, and the name of
a loop may be empty. -/
def Legible (b : Block) : Prop :=
  b.Every (fun _ => True) (Opcode.stop ∉ Utf8.encode ·) Expr.WellFormed

instance (b : Block) : Decidable b.Legible :=
  decideEvery b

/-- Every length that is written in the code of a block has a field of its own. -/
def LengthsFit : Block → Prop
  | done => True
  | raw data next => data.length < Bytes.lengthBound ∧ next.LengthsFit
  | print _ next => next.LengthsFit
  | branch _ yes next =>
      yes.encode.length < Bytes.lengthBound ∧ yes.LengthsFit ∧ next.LengthsFit
  | branchElse _ yes no next =>
      yes.encode.length < Bytes.lengthBound ∧ no.encode.length < Bytes.lengthBound ∧
        yes.LengthsFit ∧ no.LengthsFit ∧ next.LengthsFit
  | loop _ _ body next =>
      body.encode.length < Bytes.lengthBound ∧ body.LengthsFit ∧ next.LengthsFit

instance decideLengthsFit : ∀ b : Block, Decidable b.LengthsFit
  | done => inferInstanceAs (Decidable True)
  | raw _ next =>
      have := decideLengthsFit next
      inferInstanceAs (Decidable (_ ∧ _))
  | print _ next => decideLengthsFit next
  | branch _ yes next =>
      have := decideLengthsFit yes
      have := decideLengthsFit next
      inferInstanceAs (Decidable (_ ∧ _ ∧ _))
  | branchElse _ yes no next =>
      have := decideLengthsFit yes
      have := decideLengthsFit no
      have := decideLengthsFit next
      inferInstanceAs (Decidable (_ ∧ _ ∧ _ ∧ _ ∧ _))
  | loop _ _ body next =>
      have := decideLengthsFit body
      have := decideLengthsFit next
      inferInstanceAs (Decidable (_ ∧ _ ∧ _))

section Every

variable {data data' : Bytes → Prop} {name name' : String → Prop} {expr expr' : Expr → Prop}

theorem Every.imp (hd : ∀ bs, data bs → data' bs) (hn : ∀ n, name n → name' n)
    (he : ∀ e, expr e → expr' e) {b : Block} :
    b.Every data name expr → b.Every data' name' expr' := by
  intro h
  induction b with
  | done => trivial
  | raw bs next ih => exact ⟨hd _ h.1, ih h.2⟩
  | print e next ih => exact ⟨he _ h.1, ih h.2⟩
  | branch e yes next ihY ih => exact ⟨he _ h.1, ihY h.2.1, ih h.2.2⟩
  | branchElse e yes no next ihY ihN ih =>
      exact ⟨he _ h.1, ihY h.2.1, ihN h.2.2.1, ih h.2.2.2⟩
  | loop n e body next ihB ih => exact ⟨hn _ h.1, he _ h.2.1, ihB h.2.2.1, ih h.2.2.2⟩

theorem Every.append {b b' : Block} (h : b.Every data name expr) (h' : b'.Every data name expr) :
    (b.append b').Every data name expr := by
  induction b with
  | done => exact h'
  | raw bs next ih => exact ⟨h.1, ih h.2⟩
  | print e next ih => exact ⟨h.1, ih h.2⟩
  | branch e yes next _ ih => exact ⟨h.1, h.2.1, ih h.2.2⟩
  | branchElse e yes no next _ _ ih => exact ⟨h.1, h.2.1, h.2.2.1, ih h.2.2.2⟩
  | loop n e body next _ ih => exact ⟨h.1, h.2.1, h.2.2.1, ih h.2.2.2⟩

theorem Every.concat : ∀ {blocks : List Block}, (∀ b ∈ blocks, b.Every data name expr) →
    (Block.concat blocks).Every data name expr
  | [], _ => trivial
  | _ :: _, h =>
      Every.append (h _ List.mem_cons_self)
        (Every.concat fun b hb => h b (List.mem_cons_of_mem _ hb))

end Every

theorem WellFormed.legible {b : Block} (h : b.WellFormed) : b.Legible :=
  h.imp (fun _ _ => trivial) (fun _ hn => hn.2) (fun _ he => he)

theorem encode_ne_nil (b : Block) : b.encode ≠ [] := by
  cases b <;> simp [encode]

theorem length_encode_pos (b : Block) : 0 < b.encode.length :=
  List.length_pos_iff.2 b.encode_ne_nil

end Block

/-! ## The format -/

/-- Four bytes that are read as the number `n`, low byte first. -/
def IsField (n : Nat) (field : Bytes) : Prop :=
  field.length = Bytes.lengthFieldSize ∧ Bytes.ofLittleEndian field = n

/-- The bytes are the block, written in the format. -/
inductive Spells : Block → Bytes → Prop
  | done : Spells .done [Opcode.stop]
  | raw {data field bs : Bytes} {next : Block} :
      IsField data.length field → Opcode.stop ∉ data → Spells next bs →
      Spells (.raw data next) (Opcode.raw :: field ++ data ++ bs)
  | print {e : Expr} {bs : Bytes} {next : Block} :
      e.WellFormed → Spells next bs →
      Spells (.print e next) (Opcode.statement :: Opcode.print :: e.encode ++ bs)
  | branch {e : Expr} {first second block bs : Bytes} {yes next : Block} :
      e.WellFormed → IsField block.length first → IsField 0 second →
      Spells yes block → Spells next bs →
      Spells (.branch e yes next)
        (Opcode.statement :: Opcode.branch :: e.encode ++ first ++ second ++ block ++ bs)
  | branchElse {e : Expr} {first second block other bs : Bytes} {yes no next : Block} :
      e.WellFormed → IsField block.length first → IsField other.length second →
      Spells yes block → Spells no other → Spells next bs →
      Spells (.branchElse e yes no next)
        (Opcode.statement :: Opcode.branch :: e.encode ++ first ++ second ++ block ++ other ++ bs)
  | loop {name : String} {e : Expr} {field block bs : Bytes} {body next : Block} :
      IsName name → e.WellFormed → IsField block.length field →
      Spells body block → Spells next bs →
      Spells (.loop name e body next)
        (Opcode.statement :: Opcode.loop :: encodeName name ++ e.encode ++ field ++ block ++
          Opcode.stop :: bs)

theorem isField_lengthField {n : Nat} (h : n < Bytes.lengthBound) :
    IsField n (Bytes.lengthField n) :=
  ⟨Bytes.length_lengthField n, Bytes.ofLittleEndian_lengthField h⟩

/-- A well-formed block is written in the format by `encode`, if its lengths have fields. -/
theorem spells_encode {b : Block} (hw : b.WellFormed) (hl : b.LengthsFit) : Spells b b.encode := by
  induction b with
  | done => exact .done
  | raw data next ih => exact .raw (isField_lengthField hl.1) hw.1 (ih hw.2 hl.2)
  | print e next ih => exact .print hw.1 (ih hw.2 hl)
  | branch e yes next ihY ih =>
      exact .branch hw.1 (isField_lengthField hl.1) (isField_lengthField (by decide))
        (ihY hw.2.1 hl.2.1) (ih hw.2.2 hl.2.2)
  | branchElse e yes no next ihY ihN ih =>
      obtain ⟨fitY, fitN, hlY, hlN, hl⟩ := hl
      exact .branchElse hw.1 (isField_lengthField fitY) (isField_lengthField fitN)
        (ihY hw.2.1 hlY) (ihN hw.2.2.1 hlN) (ih hw.2.2.2 hl)
  | loop name e body next ihB ih =>
      obtain ⟨fit, hlB, hl⟩ := hl
      exact .loop hw.1 hw.2.1 (isField_lengthField fit) (ihB hw.2.2.1 hlB) (ih hw.2.2.2 hl)

/-! ## One tree for each code -/

/-- What ends at a byte that it does not hold ends in one place. -/
theorem append_cons_inj {bs cs x y : Bytes} {b : UInt8} (hb : b ∉ bs) (hc : b ∉ cs)
    (h : bs ++ b :: x = cs ++ b :: y) : bs = cs ∧ x = y := by
  induction bs generalizing cs with
  | nil =>
      cases cs with
      | nil => exact ⟨rfl, (List.cons.inj h).2⟩
      | cons c cs => exact absurd ((List.cons.inj h).1 ▸ List.mem_cons_self) hc
  | cons a bs ih =>
      cases cs with
      | nil => exact absurd ((List.cons.inj h).1 ▸ List.mem_cons_self) hb
      | cons c cs =>
          obtain ⟨rfl, htail⟩ := List.cons.inj h
          have hb' : b ∉ bs := fun hm => hb (List.mem_cons_of_mem _ hm)
          have hc' : b ∉ cs := fun hm => hc (List.mem_cons_of_mem _ hm)
          obtain ⟨rfl, rfl⟩ := ih hb' hc' htail
          exact ⟨rfl, rfl⟩

theorem encodeName_append (name : String) (x : Bytes) :
    encodeName name ++ x = Utf8.encode name ++ Opcode.stop :: x := by
  rw [encodeName, List.append_assoc]
  rfl

theorem encodeName_inj {n n' : String} {x y : Bytes} (hn : Opcode.stop ∉ Utf8.encode n)
    (hn' : Opcode.stop ∉ Utf8.encode n') (h : encodeName n ++ x = encodeName n' ++ y) :
    n = n' ∧ x = y := by
  rw [encodeName_append, encodeName_append] at h
  obtain ⟨he, hx⟩ := append_cons_inj hn hn' h
  exact ⟨Utf8.encode_injective he, hx⟩

theorem encodePath_cons (s : String) (ss : List String) :
    encodePath (s :: ss) = encodeName s ++ encodePath ss := by
  simp only [encodePath, List.flatMap_cons, List.append_assoc]

theorem encodePath_cons_append (s : String) (ss : List String) (x : Bytes) :
    encodePath (s :: ss) ++ x = encodeName s ++ (encodePath ss ++ x) := by
  rw [encodePath_cons, List.append_assoc]

/-- A name begins with a byte, and not with the one that ends a path. -/
theorem exists_encodeName_eq_cons {s : String} (hs : IsName s) :
    ∃ b rest, encodeName s = b :: rest ∧ b ≠ Opcode.stop := by
  rw [encodeName]
  cases he : Utf8.encode s with
  | nil => exact absurd he hs.1
  | cons b bs => exact ⟨b, bs ++ [Opcode.stop], rfl, fun hb => hs.2 (he ▸ hb ▸ List.mem_cons_self)⟩

theorem encodeName_ne_stop_cons {s : String} (hs : IsName s) (x y : Bytes) :
    encodeName s ++ x ≠ Opcode.stop :: y := by
  obtain ⟨b, rest, hb, hne⟩ := exists_encodeName_eq_cons hs
  rw [hb]
  exact fun h => hne (List.cons.inj h).1

theorem encodePath_inj : ∀ {ss ss' : List String} {x y : Bytes},
    (∀ s ∈ ss, IsName s) → (∀ s ∈ ss', IsName s) →
      encodePath ss ++ x = encodePath ss' ++ y → ss = ss' ∧ x = y
  | [], [], _, _, _, _, h => ⟨rfl, (List.cons.inj h).2⟩
  | [], s' :: ss', x, y, _, hs', h => by
      rw [encodePath_cons_append] at h
      exact absurd h.symm (encodeName_ne_stop_cons (hs' _ List.mem_cons_self) _ _)
  | s :: ss, [], x, y, hs, _, h => by
      rw [encodePath_cons_append] at h
      exact absurd h (encodeName_ne_stop_cons (hs _ List.mem_cons_self) _ _)
  | s :: ss, s' :: ss', x, y, hs, hs', h => by
      rw [encodePath_cons_append, encodePath_cons_append] at h
      obtain ⟨rfl, htail⟩ :=
        encodeName_inj (hs _ List.mem_cons_self).2 (hs' _ List.mem_cons_self).2 h
      obtain ⟨rfl, rfl⟩ := encodePath_inj (fun s h => hs s (List.mem_cons_of_mem _ h))
        (fun s h => hs' s (List.mem_cons_of_mem _ h)) htail
      exact ⟨rfl, rfl⟩

namespace Expr

theorem encode_inj {e e' : Expr} {x y : Bytes} (he : e.WellFormed) (he' : e'.WellFormed)
    (h : e.encode ++ x = e'.encode ++ y) : e = e' ∧ x = y := by
  cases e with
  | path ss =>
      cases e' with
      | path ss' =>
          obtain ⟨rfl, rfl⟩ := encodePath_inj he.2 he'.2 (List.cons.inj h).2
          exact ⟨rfl, rfl⟩
      | always => exact absurd (List.cons.inj h).1 (by decide)
  | always =>
      cases e' with
      | path ss' => exact absurd (List.cons.inj h).1 (by decide)
      | always => exact ⟨rfl, (List.cons.inj h).2⟩

end Expr

/-- A length field and what it announces are told apart from what follows. -/
theorem IsField.inj {n n' : Nat} {f f' x y : Bytes} (hf : IsField n f) (hf' : IsField n' f')
    (h : f ++ x = f' ++ y) : n = n' ∧ x = y := by
  obtain ⟨rfl, rfl⟩ := List.append_inj h (hf.1.trans hf'.1.symm)
  exact ⟨hf.2.symm.trans hf'.2, rfl⟩

theorem Spells.ne_nil {b : Block} {bs : Bytes} (h : Spells b bs) : bs ≠ [] := by
  cases h <;> simp

/-- Where the code of one block and the code of another begin the same bytes, they are
the same block and the same code. -/
theorem Spells.unique {b : Block} {bs : Bytes} (h : Spells b bs) :
    ∀ {b' : Block} {bs' x y : Bytes}, Spells b' bs' → bs ++ x = bs' ++ y → b = b' ∧ x = y := by
  induction h with
  | done =>
      intro b' bs' x y h' hx
      cases h' with
      | done => exact ⟨rfl, (List.cons.inj hx).2⟩
      | raw | print | branch | branchElse | loop =>
          exact absurd (List.cons.inj hx).1 (by decide)
  | raw hf _ _ ih =>
      intro b' bs' x y h' hx
      cases h' with
      | raw hf' _ h' =>
          simp only [List.append_assoc, List.cons_append] at hx
          obtain ⟨hlen, hx₁⟩ := hf.inj hf' (List.cons.inj hx).2
          obtain ⟨rfl, hx₂⟩ := List.append_inj hx₁ hlen
          obtain ⟨rfl, rfl⟩ := ih h' hx₂
          exact ⟨rfl, rfl⟩
      | done | print | branch | branchElse | loop =>
          exact absurd (List.cons.inj hx).1 (by decide)
  | print he _ ih =>
      intro b' bs' x y h' hx
      cases h' with
      | print he' h' =>
          simp only [List.append_assoc, List.cons_append] at hx
          obtain ⟨rfl, hx₁⟩ := Expr.encode_inj he he' (List.cons.inj (List.cons.inj hx).2).2
          obtain ⟨rfl, rfl⟩ := ih h' hx₁
          exact ⟨rfl, rfl⟩
      | done | raw => exact absurd (List.cons.inj hx).1 (by decide)
      | branch | branchElse | loop =>
          exact absurd (List.cons.inj (List.cons.inj hx).2).1 (by decide)
  | branch he hf hz _ _ ihY ih =>
      intro b' bs' x y h' hx
      cases h' with
      | branch he' hf' hz' hY' h' =>
          simp only [List.append_assoc, List.cons_append] at hx
          obtain ⟨rfl, hx₁⟩ := Expr.encode_inj he he' (List.cons.inj (List.cons.inj hx).2).2
          obtain ⟨-, hx₂⟩ := hf.inj hf' hx₁
          obtain ⟨-, hx₃⟩ := hz.inj hz' hx₂
          obtain ⟨rfl, hx₄⟩ := ihY hY' hx₃
          obtain ⟨rfl, rfl⟩ := ih h' hx₄
          exact ⟨rfl, rfl⟩
      | branchElse he' hf' hg' _ hN' _ =>
          simp only [List.append_assoc, List.cons_append] at hx
          obtain ⟨rfl, hx₁⟩ := Expr.encode_inj he he' (List.cons.inj (List.cons.inj hx).2).2
          obtain ⟨-, hx₂⟩ := hf.inj hf' hx₁
          obtain ⟨hlen, -⟩ := hz.inj hg' hx₂
          exact absurd (List.length_eq_zero_iff.1 hlen.symm) hN'.ne_nil
      | done | raw => exact absurd (List.cons.inj hx).1 (by decide)
      | print | loop => exact absurd (List.cons.inj (List.cons.inj hx).2).1 (by decide)
  | branchElse he hf hg _ hN _ ihY ihN ih =>
      intro b' bs' x y h' hx
      cases h' with
      | branchElse he' hf' hg' hY' hN' h' =>
          simp only [List.append_assoc, List.cons_append] at hx
          obtain ⟨rfl, hx₁⟩ := Expr.encode_inj he he' (List.cons.inj (List.cons.inj hx).2).2
          obtain ⟨-, hx₂⟩ := hf.inj hf' hx₁
          obtain ⟨-, hx₃⟩ := hg.inj hg' hx₂
          obtain ⟨rfl, hx₄⟩ := ihY hY' hx₃
          obtain ⟨rfl, hx₅⟩ := ihN hN' hx₄
          obtain ⟨rfl, rfl⟩ := ih h' hx₅
          exact ⟨rfl, rfl⟩
      | branch he' hf' hz' _ _ =>
          simp only [List.append_assoc, List.cons_append] at hx
          obtain ⟨rfl, hx₁⟩ := Expr.encode_inj he he' (List.cons.inj (List.cons.inj hx).2).2
          obtain ⟨-, hx₂⟩ := hf.inj hf' hx₁
          obtain ⟨hlen, -⟩ := hg.inj hz' hx₂
          exact absurd (List.length_eq_zero_iff.1 hlen) hN.ne_nil
      | done | raw => exact absurd (List.cons.inj hx).1 (by decide)
      | print | loop => exact absurd (List.cons.inj (List.cons.inj hx).2).1 (by decide)
  | loop hn he hf _ _ ihB ih =>
      intro b' bs' x y h' hx
      cases h' with
      | loop hn' he' hf' hB' h' =>
          simp only [List.append_assoc, List.cons_append] at hx
          obtain ⟨rfl, hx₁⟩ := encodeName_inj hn.2 hn'.2 (List.cons.inj (List.cons.inj hx).2).2
          obtain ⟨rfl, hx₂⟩ := Expr.encode_inj he he' hx₁
          obtain ⟨-, hx₃⟩ := hf.inj hf' hx₂
          obtain ⟨rfl, hx₄⟩ := ihB hB' hx₃
          obtain ⟨rfl, rfl⟩ := ih h' (List.cons.inj hx₄).2
          exact ⟨rfl, rfl⟩
      | done | raw => exact absurd (List.cons.inj hx).1 (by decide)
      | print | branch | branchElse =>
          exact absurd (List.cons.inj (List.cons.inj hx).2).1 (by decide)

end Stencil
