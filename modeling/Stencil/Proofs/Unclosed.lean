/-
# `Stencil.Proofs.Unclosed` — parentheses in which a source ends

A source that breaks off is reported as such by the first pass.  This module says when a tag is
reported that is not closed.  The place is described by the text of the whole source:

    Reaches      what lies behind its tags, one after the other
    InChain      what lies between the clauses of a chain of conditions
    Opens        what lies behind a parenthesis that opens a tag or a clause
    stillOpen    no parenthesis closes in what is left of this

In a source that can be read this leaves out no tag, and no clause of a chain (`Reaches.opens`,
`InChain.opens`).

What the source comes to, its first part comes to as well, as far as it goes (`Reaches.cut`,
`InChain.cut`); for a tag reads the same bytes where less text follows it.  So the first part is
read up to the same parenthesis, and there the reader of the arguments comes to the end.

**Proved here**, for every compiler and every state of a compilation:

    a first part of a source that can be scanned is scanned, or reported as one
      that breaks off; and as a tag that is not closed, if it ends within the
      parentheses of a tag or of a clause            (`Compiler.scanSource_of_cut`)
-/
import Stencil.Proofs.Concatenation
import Stencil.Proofs.Interruption
import Stencil.Proofs.Selection

namespace Stencil

namespace Reading

open SourceReader

variable {tags : TagTable} {scope : Option Bytes}

/-! ## Within parentheses -/

/-- Reading a source comes to this text outside its tags: it is the whole source, or what lies
behind a tag, which literal text may stand in front of. -/
inductive Reaches (tags : TagTable) (scope : Option Bytes) (source : Bytes) : Bytes → Prop where
  | start : Reaches tags scope source source
  | tag {text taken after : Bytes} {piece : Piece}
      (h : Reaches tags scope source (text ++ Sign.pound :: (taken ++ after)))
      (htext : ∀ b ∈ text, b ≠ Sign.pound ∧ b ≠ Opcode.stop)
      (htag : Gives (readTag tags scope) taken after piece) : Reaches tags scope source after

/-- Reading a chain of conditions, of which this lies behind the first parenthesis, comes to the
text `after` between its clauses. -/
inductive InChain (scope : Option Bytes) (chain : Bytes) : Bytes → Prop where
  | first {taken after : Bytes} {branch : List String × Bytes} (hchain : chain = taken ++ after)
      (h : Gives (readGuarded scope) taken after branch) : InChain scope chain after
  | next {blanks taken after : Bytes} {condition : List String} {body : Bytes}
      (h : InChain scope chain (blanks ++ clauseSign ++ (taken ++ after)))
      (hblanks : ∀ b ∈ blanks, Bytes.isBlank b = true)
      (hclause : Gives (readClause scope) taken after (.elseIf condition body)) :
      InChain scope chain after

/-- The text lies behind the parenthesis that opens a tag of the source. -/
inductive OpensTag (tags : TagTable) (scope : Option Bytes) (source : Bytes) (tag : Tag)
    (inside : Bytes) : Prop where
  | intro {text name : Bytes}
      (h : Reaches tags scope source (text ++ Sign.pound :: (name ++ Sign.parenOpen :: inside)))
      (htext : ∀ b ∈ text, b ≠ Sign.pound ∧ b ≠ Opcode.stop)
      (hname : ∀ b ∈ name, Bytes.isBlank b = false ∧ b ≠ Sign.parenOpen)
      (htag : tags.find? name = some tag)

/-- Can a tag have strings in its parentheses? -/
def hasStrings : Tag → Bool
  | .print => false
  | _ => true

/-- The text lies behind a parenthesis that opens a tag of the source, or a clause of the chain
that a tag begins; and there may be strings within the parentheses, or not. -/
inductive Opens (tags : TagTable) (scope : Option Bytes) (source : Bytes) :
    Bool → Bytes → Prop where
  | tag {tag : Tag} {inside : Bytes} (h : OpensTag tags scope source tag inside) :
      Opens tags scope source (hasStrings tag) inside
  | clause {chain blanks name inside : Bytes} (h : OpensTag tags scope source .branch chain)
      (hchain : InChain scope chain
        (blanks ++ clauseSign ++ (name ++ Sign.parenOpen :: inside)))
      (hblanks : ∀ b ∈ blanks, Bytes.isBlank b = true)
      (hname : name = Utf8.encode "if" ∨ name = Utf8.encode "else") :
      Opens tags scope source true inside

/-- No parenthesis closes in the text.  Where there are strings, one within quotes closes
nothing; `quoted` says whether the text begins there. -/
def stillOpen (strings quoted : Bool) : Bytes → Bool
  | [] => true
  | b :: bs =>
    if b = Sign.quote && strings then stillOpen strings (!quoted) bs
    else if b = Sign.parenClose && !quoted then false
    else stillOpen strings quoted bs

/-- The first part of the source ends within parentheses that open a tag of the source, or a clause
of the chain that a tag begins. -/
def EndsInside (tags : TagTable) (scope : Option Bytes) (source cut : Bytes) : Prop :=
  ∃ strings inside more, source = cut ++ more ∧ Opens tags scope source strings (inside ++ more) ∧
    stillOpen strings false inside = true

/-! ### Parentheses that do not close -/

theorem stillOpen_cons (strings quoted : Bool) (b : UInt8) (bs : Bytes) :
    stillOpen strings quoted (b :: bs) =
      if b = Sign.quote && strings then stillOpen strings (!quoted) bs
      else if b = Sign.parenClose && !quoted then false
      else stillOpen strings quoted bs := rfl

/-- A string, whatever is in it, closes nothing. -/
theorem stillOpen_string {text : Bytes} (h : Sign.quote ∉ text) (after : Bytes) :
    stillOpen true false (Sign.quote :: (text ++ Sign.quote :: after)) =
      stillOpen true false after := by
  have hquoted : ∀ text : Bytes, Sign.quote ∉ text →
      stillOpen true true (text ++ Sign.quote :: after) = stillOpen true false after := by
    intro text h
    induction text with
    | nil => rfl
    | cons b text ih =>
        obtain ⟨hb, htext⟩ := not_or.1 (mt List.mem_cons.2 h)
        rw [List.cons_append, stillOpen_cons]
        simp [Ne.symm hb, ih htext]
  exact hquoted text h

example : stillOpen true false (Utf8.encode "xs, \"a) b\"") = true := by decide +kernel

/-- Arguments that are read are closed. -/
theorem stillOpen_of_readArguments {found raw : Bytes} {c c' : Cursor}
    (h : readArgumentsFrom found c = .ok raw c') : stillOpen true false c.rest = false := by
  fun_induction readArgumentsFrom found c with
  | case1 => cases h
  | case2 found c bs hc =>
      rw [hc]
      rfl
  | case3 => cases h
  | case4 found c bs s c₁ hread hc hclose ih =>
      obtain ⟨hrest, hquote⟩ := readTagString_eq_ok hread
      rw [hrest, stillOpen_string hquote]
      exact ih h
  | case5 found c b bs hc hclose hquote ih =>
      rw [hc, stillOpen_cons]
      simp only [hclose, hquote, decide_false, Bool.false_and, Bool.false_eq_true, if_false]
      exact ih h

theorem stillOpen_of_readPrinted {start : Nat} {path : Bytes} {c c' : Cursor}
    (h : readPrinted start c = .ok path c') : stillOpen false false c.rest = false := by
  obtain ⟨b, hrest, hb, hpath⟩ := readUntil_eq_ok (readPrinted_eq_ok.1 h)
  obtain rfl : b = Sign.parenClose := eq_of_beq hb
  rw [hrest]
  clear h hrest
  induction path with
  | nil => rfl
  | cons x path ih =>
      have hx := beq_eq_false_iff_ne.1 (hpath x List.mem_cons_self)
      rw [List.cons_append, stillOpen_cons]
      simp only [hx, decide_false, Bool.and_false, Bool.false_and, Bool.false_eq_true, if_false]
      exact ih fun y hy => hpath y (List.mem_cons_of_mem _ hy)

theorem stillOpen_of_readStringArgument {name : String} {c c' : Cursor}
    (h : readStringArgument c = .ok name c') : stillOpen true false c.rest = false := by
  obtain ⟨text, c₁, h₁, h₂⟩ := Reader.bind_eq_ok h
  obtain ⟨_, c₂, h₃, -⟩ := Reader.bind_eq_ok h₂
  obtain ⟨hrest, hquote⟩ := readTagString_eq_ok h₁
  rw [hrest, stillOpen_string hquote]
  unfold closeTag at h₃
  split at h₃
  · cases h₃
  · rw [expectByte_eq_ok h₃]
    rfl

/-- The reader reports a tag that is not closed. -/
def NotClosedAt {α : Type} (r : SourceReader α) (c : Cursor) : Prop :=
  ∃ position c', r c = .error (.tagNotClosed position) c'

namespace NotClosedAt

variable {α β : Type} {r : SourceReader α} {c : Cursor}

/-- A reader that goes on to a parenthesis that closes, and only fails if there is none. -/
theorem of_stillOpen {strings : Bool}
    (hok : ∀ a c', r c = .ok a c' → stillOpen strings false c.rest = false)
    (herr : ∀ e c', r c = .error e c' → e.IsNotClosed)
    (h : stillOpen strings false c.rest = true) : NotClosedAt r c := by
  cases hread : r c with
  | ok a c' =>
      rw [hok a c' hread] at h
      cases h
  | error e c' =>
      obtain ⟨position, rfl⟩ := herr e c' hread
      exact ⟨position, c', hread⟩

theorem bind {f : α → SourceReader β} (h : NotClosedAt r c) : NotClosedAt (r >>= f) c := by
  obtain ⟨position, c', he⟩ := h
  exact ⟨position, c', Reader.bind_of_error he⟩

theorem of_ok {f : α → SourceReader β} {a : α} {c' : Cursor} (h : r c = .ok a c')
    (hf : NotClosedAt (f a) c') : NotClosedAt (r >>= f) c := by
  obtain ⟨position, d, he⟩ := hf
  exact ⟨position, d, (Reader.bind_of_ok h).trans he⟩

end NotClosedAt

theorem readArguments_of_stillOpen {c : Cursor} (h : stillOpen true false c.rest = true) :
    NotClosedAt readArguments c :=
  .of_stillOpen (fun _ _ => stillOpen_of_readArguments) (fun _ _ => readArguments_eq_error) h

theorem readPrint_of_stillOpen {c : Cursor} (h : stillOpen false false c.rest = true) :
    NotClosedAt (readPrint scope) c := by
  have hprinted : NotClosedAt (readPrinted c.position) c :=
    .of_stillOpen (fun _ _ => stillOpen_of_readPrinted) (fun _ _ => readPrinted_eq_error) h
  exact hprinted.bind (f := readPrintEnd scope)

theorem readStringArgument_of_stillOpen {name : String} {c c' d : Cursor} {more : Bytes}
    (hcut : c.rest = d.rest ++ more) (hok : readStringArgument c = .ok name c')
    (h : stillOpen true false d.rest = true) : NotClosedAt readStringArgument d :=
  .of_stillOpen (fun _ _ => stillOpen_of_readStringArgument)
    (fun _ _ => breaks_readStringArgument.error hcut hok) h

/-- Where the parentheses of a tag that can be read do not close, this is what is reported. -/
theorem readTagRest_of_stillOpen {tag : Tag} {c c' d : Cursor} {more : Bytes} {piece : Piece}
    (hcut : c.rest = d.rest ++ more) (hok : readTagRest scope tag c = .ok piece c')
    (h : stillOpen (hasStrings tag) false d.rest = true) :
    NotClosedAt (readTagRest scope tag) d := by
  have hnamed : ∀ f : String → Piece, (f <$> readStringArgument) c = .ok piece c' →
      stillOpen true false d.rest = true → NotClosedAt (f <$> readStringArgument) d := by
    intro f hf hopen
    cases hname : readStringArgument c with
    | error e c₁ => cases (Reader.map_of_error hname).symm.trans hf
    | ok name c₁ =>
        obtain ⟨position, d', he⟩ := readStringArgument_of_stillOpen hcut hname hopen
        exact ⟨position, d', Reader.map_of_error he⟩
  cases tag with
  | print => exact readPrint_of_stillOpen h
  | loop => exact (readArguments_of_stillOpen h).bind.bind
  | branch => exact (readArguments_of_stillOpen h).bind.bind.bind
  | raw => exact (readArguments_of_stillOpen h).bind
  | exportBody =>
      obtain ⟨name, c₁, hname, -⟩ := Reader.bind_eq_ok hok
      exact (readStringArgument_of_stillOpen hcut hname h).bind
  | embedFile | importBody | extendFile => exact hnamed _ hok h

/-- So it is with a clause of a chain. -/
theorem readClause_of_stillOpen (scope : Option Bytes) {name inside : Bytes} {c : Cursor}
    (hname : name = Utf8.encode "if" ∨ name = Utf8.encode "else")
    (hc : c.rest = name ++ Sign.parenOpen :: inside) (h : stillOpen true false inside = true) :
    NotClosedAt (readClause scope) c := by
  obtain ⟨c₁, hok, rfl⟩ := gives_readTagName (Chain.readTagName_plain hname) inside c (by
    rw [hc, List.append_assoc]
    rfl)
  have harguments : NotClosedAt readArguments c₁ := readArguments_of_stillOpen h
  refine .of_ok hok ?_
  split_ifs with hif helse
  · exact harguments.bind.bind.bind
  · exact harguments.bind.bind
  · exact absurd hname (not_or.2 ⟨hif, helse⟩)

/-! ### The place where a source ends -/

/-- The first part of a source comes to the first part of what the source comes to. -/
theorem Reaches.cut {source after cut more : Bytes} (h : Reaches tags scope source after)
    (hafter : after = cut ++ more) :
    ∃ source', source = source' ++ more ∧ Reaches tags scope source' cut := by
  induction h generalizing cut with
  | start => exact ⟨cut, hafter, .start⟩
  | @tag text taken after piece _ htext htag ih =>
      subst hafter
      have hsplit : text ++ Sign.pound :: (taken ++ (cut ++ more)) =
          text ++ Sign.pound :: (taken ++ cut) ++ more := by simp
      obtain ⟨source', hsource, h'⟩ := ih hsplit
      have htag' := htag.behind (takes_readTag tags scope) (apart_shorter cut more)
      exact ⟨source', hsource, .tag h' htext htag'⟩

theorem InChain.cut {chain after cut more : Bytes} (h : InChain scope chain after)
    (hafter : after = cut ++ more) :
    ∃ chain', chain = chain' ++ more ∧ InChain scope chain' cut := by
  induction h generalizing cut with
  | @first taken after branch hchain hguarded =>
      subst hafter
      have hguarded' : Gives (readGuarded scope) taken cut branch :=
        hguarded.behind (takes_readGuarded scope) trivial
      exact ⟨taken ++ cut, by rw [hchain, List.append_assoc], .first rfl hguarded'⟩
  | @next blanks taken after condition body _ hblanks hclause ih =>
      subst hafter
      have hsplit : blanks ++ clauseSign ++ (taken ++ (cut ++ more)) =
          blanks ++ clauseSign ++ (taken ++ cut) ++ more := by simp
      obtain ⟨chain', hchain, h'⟩ := ih hsplit
      exact ⟨chain', hchain, .next h' hblanks (hclause.behind (takes_readClause scope) trivial)⟩

/-- Reading goes on at the text that it comes to. -/
theorem Reaches.ofBytes_eq {source after : Bytes} (h : Reaches tags scope source after) :
    ∃ found c, (Cursor.ofBytes source).Ahead c ∧ c.rest = after ∧
      ofBytes tags scope source = ofCursor tags scope found c := by
  induction h with
  | start => exact ⟨[], .ofBytes source, .refl _, rfl, rfl⟩
  | tag _ htext htag ih =>
      obtain ⟨found, c, hmoved, hc, hread⟩ := ih
      obtain ⟨c', hmoved', hc', hread'⟩ := ofCursor_pound tags scope found htext hc
      obtain ⟨d, hok, hd⟩ := htag c' hc'
      rw [hok] at hread'
      have hbehind := (hmoved.trans hmoved').trans ((advances_readTag tags scope).ok hok)
      exact ⟨_, d, hbehind, hd, hread.trans hread'⟩

/-- A tag that cannot be read is the fault of the source. -/
theorem Reaches.fault_of_error {source text rest : Bytes}
    (h : Reaches tags scope source (text ++ Sign.pound :: rest))
    (htext : ∀ b ∈ text, b ≠ Sign.pound ∧ b ≠ Opcode.stop) :
    ∃ c, (Cursor.ofBytes source).Ahead c ∧ c.rest = rest ∧
      ∀ e c', readTag tags scope c = .error e c' → (ofBytes tags scope source).fault = some e := by
  obtain ⟨found, c, hmoved, hc, hread⟩ := h.ofBytes_eq
  obtain ⟨c', hmoved', hc', hread'⟩ := ofCursor_pound tags scope found htext hc
  refine ⟨c', hmoved.trans hmoved', hc', fun e d he => ?_⟩
  rw [hread, hread', he]

theorem OpensTag.cut {source inside more : Bytes} {tag : Tag}
    (h : OpensTag tags scope source tag (inside ++ more)) :
    ∃ source', source = source' ++ more ∧ OpensTag tags scope source' tag inside := by
  obtain @⟨text, name, hreaches, htext, hname, htag⟩ := h
  have hsplit : text ++ Sign.pound :: (name ++ Sign.parenOpen :: (inside ++ more)) =
      text ++ Sign.pound :: (name ++ Sign.parenOpen :: inside) ++ more := by simp
  obtain ⟨source', hsource, hreaches'⟩ := hreaches.cut hsplit
  exact ⟨source', hsource, .intro hreaches' htext hname htag⟩

/-- A tag that fails behind its parenthesis is the fault of the source. -/
theorem OpensTag.fault_of_error {source inside : Bytes} {tag : Tag}
    (h : OpensTag tags scope source tag inside) :
    ∃ c, (Cursor.ofBytes source).Ahead c ∧ c.rest = inside ∧
      ∀ e c', readTagRest scope tag c = .error e c' →
        (ofBytes tags scope source).fault = some e := by
  obtain ⟨hreaches, htext, hname, htag⟩ := h
  obtain ⟨c, hmoved, hc, hfault⟩ := hreaches.fault_of_error htext
  obtain ⟨c₁, hok, hrest⟩ := gives_readTagName hname inside c (by rw [hc, List.append_assoc]; rfl)
  have hmoved' := hmoved.trans (advances_readTagName.ok hok)
  refine ⟨c₁, hmoved', hrest, fun e c' he => hfault e c' ?_⟩
  rw [readTag, Reader.bind_of_ok hok, htag]
  exact he

/-- What is read behind a chain of conditions depends on what lies ahead between two clauses. -/
theorem InChain.readBranch_eq {chain after : Bytes} (h : InChain scope chain after) {c : Cursor}
    (hc : c.rest = chain) :
    ∃ branches c', c'.rest = after ∧ readBranch scope c = readClauses scope branches c' := by
  induction h with
  | @first taken after branch hchain hguarded =>
      obtain ⟨c', hok, hrest⟩ := hguarded c (hc.trans hchain)
      exact ⟨[branch], c', hrest, Reader.bind_of_ok hok⟩
  | @next blanks taken after condition body _ hblanks hclause ih =>
      obtain ⟨branches, c₁, hc₁, heq⟩ := ih
      obtain ⟨hahead, hrest⟩ := clauseAhead_of_rest hblanks hc₁
      obtain ⟨c₂, hok, hc₂⟩ := hclause _ hrest
      refine ⟨(condition, body) :: branches, c₂, hc₂, ?_⟩
      rw [heq, readClauses_of_ahead hahead, Reader.bind_of_ok hok]
      rfl

/-- Where parentheses of a chain are opened and do not close, this is what is reported. -/
theorem InChain.readBranch_of_stillOpen {chain blanks name inside : Bytes} {c : Cursor}
    (h : InChain scope chain (blanks ++ clauseSign ++ (name ++ Sign.parenOpen :: inside)))
    (hblanks : ∀ b ∈ blanks, Bytes.isBlank b = true)
    (hname : name = Utf8.encode "if" ∨ name = Utf8.encode "else") (hc : c.rest = chain)
    (hopen : stillOpen true false inside = true) : NotClosedAt (readBranch scope) c := by
  obtain ⟨branches, c₁, hc₁, heq⟩ := h.readBranch_eq hc
  obtain ⟨hahead, hrest⟩ := clauseAhead_of_rest hblanks hc₁
  rw [NotClosedAt, heq, readClauses_of_ahead hahead]
  exact (readClause_of_stillOpen scope hname hrest hopen).bind

/-- In a source that can be read, every pound sign that reading comes to opens a tag, and reading
comes to what lies behind the tag. -/
theorem Reaches.opens {source text rest : Bytes} (hsound : (ofBytes tags scope source).fault = none)
    (h : Reaches tags scope source (text ++ Sign.pound :: rest))
    (htext : ∀ b ∈ text, b ≠ Sign.pound ∧ b ≠ Opcode.stop) :
    (∃ tag inside, inside <:+ rest ∧ OpensTag tags scope source tag inside) ∧
      ∃ after, after <:+ rest ∧ Reaches tags scope source after := by
  obtain ⟨c, -, rfl, hfault⟩ := h.fault_of_error htext
  cases hread : readTag tags scope c with
  | error e c' =>
      rw [hfault e c' hread] at hsound
      cases hsound
  | ok piece c' =>
      obtain ⟨taken, htaken, -, hgives⟩ := (takes_readTag tags scope).ok hread
      obtain ⟨name, c₁, hname, htag⟩ := Reader.bind_eq_ok hread
      obtain ⟨hrest, hplain⟩ := readTagName_eq_ok hname
      refine ⟨?_, c'.rest, ⟨taken, htaken.symm⟩, .tag (htaken ▸ h) htext (hgives _ ⟨id, id⟩)⟩
      cases hfind : tags.find? name with
      | none =>
          rw [hfind] at htag
          cases htag
      | some tag =>
          have hopens : Reaches tags scope source
              (text ++ Sign.pound :: (name ++ Sign.parenOpen :: c₁.rest)) := by
            rwa [hrest, List.append_assoc] at h
          exact ⟨tag, c₁.rest, ⟨_, hrest.symm⟩, .intro hopens htext hplain hfind⟩

/-- So it is with the sign of a clause, between the clauses of a chain. -/
theorem InChain.opens {source chain blanks rest : Bytes}
    (hsound : (ofBytes tags scope source).fault = none)
    (hopens : OpensTag tags scope source .branch chain)
    (h : InChain scope chain (blanks ++ clauseSign ++ rest))
    (hblanks : ∀ b ∈ blanks, Bytes.isBlank b = true) :
    ∃ inside, inside <:+ rest ∧ Opens tags scope source true inside := by
  obtain ⟨c, -, hc, hfault⟩ := hopens.fault_of_error
  obtain ⟨branches, c₁, hc₁, heq⟩ := h.readBranch_eq hc
  obtain ⟨hahead, hrest⟩ := clauseAhead_of_rest hblanks hc₁
  cases hread : readClause scope (c₁.skipBlanks.forward clauseSign.length) with
  | error e c₂ =>
      have hbranch : readTagRest scope .branch c = .error e c₂ := by
        show readBranch scope c = _
        rw [heq, readClauses_of_ahead hahead, Reader.bind_of_error hread]
      rw [hfault e c₂ hbranch] at hsound
      cases hsound
  | ok clause c₂ =>
      obtain ⟨name, c₃, hname, hclause⟩ := Reader.bind_eq_ok hread
      have hsplit := (readTagName_eq_ok hname).1
      rw [hrest] at hsplit
      have hkind : name = Utf8.encode "if" ∨ name = Utf8.encode "else" := by
        by_contra hother
        obtain ⟨hif, helse⟩ := not_or.1 hother
        rw [if_neg hif, if_neg helse] at hclause
        cases hclause
      refine ⟨c₃.rest, ⟨_, hsplit.symm⟩, .clause hopens ?_ hblanks hkind⟩
      rwa [hsplit, List.append_assoc name] at h

/-- A source that breaks off within parentheses is read up to a tag that is not closed. -/
theorem fault_of_endsInside {source cut : Bytes}
    (hsound : (ofBytes tags scope source).fault = none) (h : EndsInside tags scope source cut) :
    ∃ position, (ofBytes tags scope cut).fault = some (.tagNotClosed position) := by
  obtain ⟨strings, inside, more, rfl, hopens, hopen⟩ := h
  generalize hwhole : inside ++ more = whole at hopens
  cases hopens with
  | @tag tag _ hopens =>
      subst hwhole
      obtain ⟨c, -, hc, hfault⟩ := hopens.fault_of_error
      obtain ⟨source', hcut, hopens'⟩ := hopens.cut
      obtain rfl := List.append_cancel_right hcut
      obtain ⟨d, -, hd, hfault'⟩ := hopens'.fault_of_error
      cases hok : readTagRest scope tag c with
      | error e c' =>
          rw [hfault e c' hok] at hsound
          cases hsound
      | ok piece c' =>
          subst hd
          obtain ⟨position, d', he⟩ := readTagRest_of_stillOpen hc hok hopen
          exact ⟨position, hfault' _ d' he⟩
  | @clause chain blanks name _ hopens hchain hblanks hname =>
      subst hwhole
      have hsplit : blanks ++ clauseSign ++ (name ++ Sign.parenOpen :: (inside ++ more)) =
          blanks ++ clauseSign ++ (name ++ Sign.parenOpen :: inside) ++ more := by simp
      obtain ⟨chain', rfl, hchain'⟩ := hchain.cut hsplit
      obtain ⟨source', hcut, hopens'⟩ := hopens.cut
      obtain rfl := List.append_cancel_right hcut
      obtain ⟨d, -, hd, hfault⟩ := hopens'.fault_of_error
      obtain ⟨position, d', he⟩ := hchain'.readBranch_of_stillOpen hblanks hname hd hopen
      exact ⟨position, hfault _ d' he⟩

end Reading

/-! ## The first pass -/

namespace Compiler

open Reading

variable {compiler : Compiler} {source cut : Bytes} {path : String} {actions : List Action}
  {s s' : CompileState}

/-- The first pass over a part of a source goes through what is read of it, and then ends, or
reports the fault. -/
theorem scanSource_of_cutFrom (h : compiler.scanSource source path s = .ok actions s')
    (hcut : (ofBytes compiler.tags s.scope cut).CutFrom (ofBytes compiler.tags s.scope source)) :
    ∃ actions' s'', compiler.scanSource cut path s =
      match (ofBytes compiler.tags s.scope cut).fault with
      | none => .ok actions' s''
      | some e => .error e s'' := by
  rw [scanSource_of_reading (reading_of_scanSource h)] at h
  obtain ⟨front, back, hpieces, ⟨others, hothers⟩, hback⟩ := hcut.pieces
  rw [← hothers] at h
  obtain ⟨first, _, s₁, hfront, -, -⟩ := mapM_append_eq_ok.1 h
  obtain ⟨all, s₂, hall⟩ : ∃ all s₂, (front ++ back).mapM (Action.ofPiece
      (compiler.nestedWith compiler.blockOf) compiler.extension path) s = .ok all s₂ :=
    ⟨_, _, mapM_append_eq_ok.2 ⟨first, _, s₁, hfront, Action.mapM_ofPiece hback, rfl⟩⟩
  refine ⟨all, s₂, ?_⟩
  rw [scanSource_eq_scan, Action.scan_eq rfl, hpieces]
  simp only [Bind.bind, EStateM.bind, hall]
  cases (ofBytes compiler.tags s.scope cut).fault with
  | none => rfl
  | some e => rfl

/-- **A source that breaks off is reported as such.**  If the first pass over a source ends well,
so does the first pass over any first part of it, or it reports a tag that is not opened or not
closed, or that the source ends where a body has to begin.  It reports a tag that is not closed
wherever the part ends within the parentheses of a tag, or of a clause of its chain. -/
theorem scanSource_of_cut (hcut : cut <+: source)
    (h : compiler.scanSource source path s = .ok actions s') :
    ((∃ actions' s'', compiler.scanSource cut path s = .ok actions' s'') ∨
      ∃ e s'', compiler.scanSource cut path s = .error e s'' ∧ e.IsInterruption) ∧
    (EndsInside compiler.tags s.scope source cut →
      ∃ position s'', compiler.scanSource cut path s = .error (.tagNotClosed position) s'') := by
  obtain ⟨more, rfl⟩ := hcut
  have hsound : (ofBytes compiler.tags s.scope (cut ++ more)).fault = none :=
    congrArg Reading.fault (reading_of_scanSource h)
  have hfrom := cutFrom_ofBytes hsound
  obtain ⟨actions', s'', hscan⟩ := scanSource_of_cutFrom h hfrom
  constructor
  · cases hfault : (ofBytes compiler.tags s.scope cut).fault with
    | none => exact .inl ⟨actions', s'', by rw [hscan, hfault]⟩
    | some e => exact .inr ⟨e, s'', by rw [hscan, hfault], hfrom.fault e hfault⟩
  · intro hinside
    obtain ⟨position, hfault⟩ := fault_of_endsInside hsound hinside
    exact ⟨position, s'', by rw [hscan, hfault]⟩

/-- The chain `ladder` up to the middle of its second clause. -/
def brokenLadder : Bytes := Utf8.encode "#if(self) \x7ba\x7d ##if(x"

theorem endsInside_brokenLadder :
    EndsInside plain.tags (some Chain.underU.path) Chain.ladder.text brokenLadder := by
  let behind : Bytes := [0x20] ++ SourceReader.clauseSign ++ (Utf8.encode "if" ++
    Sign.parenOpen :: (Utf8.encode "x" ++ Utf8.encode ")\x7bb\x7d\n##else() \x7bc\x7d"))
  let chain : Bytes :=
    Utf8.encode "self" ++ [Sign.parenClose] ++ Chain.ladder.first.body.text ++ behind
  have hsource : Chain.ladder.text =
      [] ++ Sign.pound :: (Utf8.encode "if" ++ Sign.parenOpen :: chain) := by decide +kernel
  have hreaches : Reaches plain.tags (some Chain.underU.path) Chain.ladder.text
      ([] ++ Sign.pound :: (Utf8.encode "if" ++ Sign.parenOpen :: chain)) := by
    rw [← hsource]
    exact .start
  have hopens : OpensTag plain.tags (some Chain.underU.path) Chain.ladder.text .branch chain :=
    .intro hreaches (List.forall_mem_nil _) (Chain.readTagName_plain (.inl rfl)) (by decide +kernel)
  have hchain : InChain (some Chain.underU.path) chain behind :=
    .first rfl (Chain.ladder.first.gives_readGuarded (some Chain.underU) behind)
  have hopen : stillOpen true false (Utf8.encode "x") = true := by decide +kernel
  exact ⟨true, _, _, by decide +kernel,
    .clause hopens hchain (List.all_eq_true.1 rfl) (.inl rfl), hopen⟩

theorem scanSource_of_cut_brokenLadder :
    brokenLadder <+: Chain.ladder.text ∧
      ∃ actions s', plain.scanSource Chain.ladder.text "" ⟨[], some Chain.underU.path, [], []⟩ =
          .ok actions s' ∧
        EndsInside plain.tags (some Chain.underU.path) Chain.ladder.text brokenLadder ∧
        ∃ position s'', plain.scanSource brokenLadder "" ⟨[], some Chain.underU.path, [], []⟩ =
          .error (.tagNotClosed position) s'' := by
  have hcut : brokenLadder <+: Chain.ladder.text := by decide +kernel
  have hscan : plain.scanSource Chain.ladder.text "" ⟨[], some Chain.underU.path, [], []⟩ =
      .ok [Chain.ladder.action "" (some Chain.underU)] ⟨[], some Chain.underU.path, [], []⟩ := by
    decide +kernel
  exact ⟨hcut, _, _, hscan, endsInside_brokenLadder,
    (scanSource_of_cut hcut hscan).2 endsInside_brokenLadder⟩

end Compiler

end Stencil
