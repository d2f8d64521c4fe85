/-
# `Stencil.Proofs.Spanning` — a source is the spans of its actions

The first pass over a source drops nothing and repeats nothing.  Each action has a span of
the source, and the spans, one behind the other, are the source:

| span | its bytes | its action |
| :-- | :-- | :-- |
| text | some, none of them a pound sign or a zero byte | gives out the bytes as they stand |
| tag | a pound sign first, `)` or `}` last | what the tag asks for |

No text stands next to other text.  The span of a tag is what its reader takes: the reader
starts behind the pound sign, and stops where the next span begins.

For the last byte of a tag there is one lemma for each reader.  Most end with a byte that
closes (`Closes`), be it of their arguments or of a body.  A reader of further clauses may
take nothing, and then the byte in front of it counts (`Settles`).

**Proved here**, for every store, extension, directory and state, with the usual tags:

    a source that the first pass goes through is the spans of its actions
                                                        (`Compiler.scanSource_spans`)
-/
import Mathlib.Data.List.Chain
import Stencil.Proofs.Advancing
import Stencil.Proofs.Concatenation

namespace Stencil

open EStateM (Result)

/-! ## The last byte of a tag -/

/-- The bytes that close a tag: its arguments, or its body. -/
def Sign.Closing (b : UInt8) : Prop := b = Sign.parenClose ∨ b = Sign.braceClose

namespace Cursor

/-- The last byte between the cursors is one that closes a tag. -/
def Closed (c c' : Cursor) : Prop :=
  ∃ front b, c.rest = front ++ b :: c'.rest ∧ Sign.Closing b

theorem Ahead.rest_eq {c c' : Cursor} (h : c.Ahead c') : ∃ taken, c.rest = taken ++ c'.rest := by
  obtain ⟨count, -, rfl⟩ := h
  exact ⟨c.rest.take count, (List.take_append_drop count c.rest).symm⟩

theorem Ahead.closed {c d e : Cursor} (hcd : c.Ahead d) (hde : d.Closed e) : c.Closed e := by
  obtain ⟨taken, htaken⟩ := hcd.rest_eq
  obtain ⟨front, b, hrest, hb⟩ := hde
  exact ⟨taken ++ front, b, by rw [htaken, hrest, List.append_assoc], hb⟩

/-- Nothing more may be taken behind such a byte, or another one has to come. -/
theorem Closed.trans {c d e : Cursor} (hcd : c.Closed d) (hde : e = d ∨ d.Closed e) :
    c.Closed e := by
  rcases hde with rfl | ⟨more, b, hrest, hb⟩
  · exact hcd
  · obtain ⟨front, a, hfront, -⟩ := hcd
    exact ⟨front ++ a :: more, b, by rw [hfront, hrest]; simp, hb⟩

end Cursor

namespace SourceReader

section Rules

variable {α β : Type} {r : SourceReader α} {f : α → SourceReader β}

/-- What the reader takes ends with a byte that closes a tag. -/
def Closes (r : SourceReader α) : Prop := ∀ c a c', r c = .ok a c' → c.Closed c'

/-- What the reader takes ends with a byte that closes a tag, or is nothing. -/
def Settles (r : SourceReader α) : Prop := ∀ c a c', r c = .ok a c' → c' = c ∨ c.Closed c'

theorem Closes.settles (h : Closes r) : Settles r := fun c a c' hok => .inr (h c a c' hok)

theorem closes_throw (e : CompileError) : Closes (throw e : SourceReader α) := nofun

theorem settles_pure (a : α) : Settles (Pure.pure a : SourceReader α) := by
  rintro c _ _ ⟨⟩
  exact .inl rfl

theorem settles_checked (x : Except CompileError α) : Settles (checked x) := by
  cases x with
  | ok a => exact settles_pure a
  | error e => exact (closes_throw e).settles

/-- What comes second may take nothing. -/
theorem Closes.bind (hr : Closes r) (hf : ∀ a, Settles (f a)) : Closes (r >>= f) := by
  intro c b c' hok
  obtain ⟨a, c₁, h₁, h₂⟩ := Reader.bind_eq_ok hok
  exact (hr _ _ _ h₁).trans (hf a _ _ _ h₂)

/-- What comes first may take anything. -/
theorem Closes.after (hr : Reader.Advances r) (hf : ∀ a, Closes (f a)) : Closes (r >>= f) := by
  intro c b c' hok
  obtain ⟨a, c₁, h₁, h₂⟩ := Reader.bind_eq_ok hok
  exact (hr.ok h₁).closed (hf a _ _ _ h₂)

theorem Settles.bind (hr : Settles r) (hf : ∀ a, Settles (f a)) : Settles (r >>= f) := by
  intro c b c' hok
  obtain ⟨a, c₁, h₁, h₂⟩ := Reader.bind_eq_ok hok
  rcases hr _ _ _ h₁ with rfl | hclosed
  · exact hf a _ _ _ h₂
  · exact .inr (hclosed.trans (hf a _ _ _ h₂))

theorem Closes.map (hr : Closes r) (g : α → β) : Closes (g <$> r) := by
  intro c b c' hok
  simp only [Functor.map, EStateM.map] at hok
  split at hok <;> cases hok
  exact hr _ _ _ (by assumption)

end Rules

/-! ### The readers -/

theorem closes_closeTag : Closes closeTag := by
  intro c a c' hok
  obtain ⟨_, hrest, rfl, -⟩ := takes_closeTag.ok hok
  exact ⟨[], Sign.parenClose, hrest, .inl rfl⟩

theorem closes_readArguments : Closes readArguments := by
  intro c raw c' hok
  obtain ⟨_, hrest, rfl, -⟩ := takes_readArguments.ok hok
  exact ⟨raw, Sign.parenClose, by rw [hrest]; simp, .inl rfl⟩

theorem closes_readBody (counting : Bool) : Closes (readBody counting) := by
  intro c body c' hok
  obtain ⟨blanks, -, hrest, -⟩ := readBody_eq_ok hok
  exact ⟨blanks ++ Sign.braceOpen :: body, Sign.braceClose, by rw [hrest]; simp, .inr rfl⟩

theorem closes_readStringArgument : Closes readStringArgument :=
  .after advances_readTagString fun _ => closes_closeTag.bind fun _ => settles_checked _

theorem closes_readGuarded (scope : Option Bytes) : Closes (readGuarded scope) :=
  .after (advances_readArgumentsOf _ _) fun _ => .after (advances_checked _) fun _ =>
    (closes_readBody true).bind fun _ => settles_pure _

theorem closes_readClause (scope : Option Bytes) : Closes (readClause scope) := by
  refine .after advances_readTagName fun name => ?_
  split
  · exact (closes_readGuarded scope).bind fun _ => settles_pure _
  split
  · exact .after (advances_readArgumentsOf _ _) fun _ =>
      (closes_readBody true).bind fun _ => settles_pure _
  · exact closes_throw _

/-- The blanks in front of a clause are taken with it, and no others. -/
theorem settles_readClauses (scope : Option Bytes) (branches : List (List String × Bytes)) :
    Settles (readClauses scope branches) := by
  intro c piece c' hok
  fun_induction readClauses scope branches c with
  | case1 => cases hok
  | case2 branches c hclause _ _ _ hread ih =>
      have hclosed := (ahead_clause hclause).closed (closes_readClause scope _ _ _ hread)
      exact .inr (hclosed.trans (ih hok))
  | case3 branches c hclause _ _ hread =>
      cases hok
      exact .inr ((ahead_clause hclause).closed (closes_readClause scope _ _ _ hread))
  | case4 =>
      cases hok
      exact .inl rfl

theorem closes_readPrinted (start : Nat) : Closes (readPrinted start) := by
  intro c path c' hok
  obtain ⟨b, hrest, hb, -⟩ := readUntil_eq_ok (readPrinted_eq_ok.1 hok)
  exact ⟨path, b, hrest, .inl (eq_of_beq hb)⟩

theorem settles_readBodyAhead {α : Type} (withBody : Bytes → α) (without : α) :
    Settles (readBodyAhead withBody without) := by
  intro c a c' hok
  change (if _ then _ else _ : SourceReader α) c = _ at hok
  split at hok
  · exact ((closes_readBody true).bind fun _ => settles_pure _).settles _ _ _ hok
  · exact settles_pure _ _ _ _ hok

theorem closes_readPrint (scope : Option Bytes) : Closes (readPrint scope) := by
  intro c piece c' hok
  refine (closes_readPrinted c.position).bind (fun path => ?_) _ _ _ hok
  split
  · exact settles_pure _
  · exact (settles_checked _).bind fun _ => settles_readBodyAhead _ _

theorem closes_readLoop (scope : Option Bytes) : Closes (readLoop scope) := by
  refine .after (advances_readArgumentsOf _ _) fun values => ?_
  dsimp only
  split
  · exact (closes_readBody true).bind fun _ => (settles_checked _).bind fun _ =>
      (settles_checked _).bind fun _ => settles_pure _
  · exact closes_throw _

theorem closes_readRawBody (start : Nat) : Closes (readRawBody start) := by
  refine (closes_readBody false).bind fun body => ?_
  split
  · exact (closes_throw _).settles
  · exact settles_pure _

theorem closes_readRaw (scope : Option Bytes) : Closes (readRaw scope) := by
  refine closes_readArguments.bind fun _ => (settles_checked _).bind fun _ => ?_
  split
  · exact Closes.settles fun c => closes_readRawBody c.position c
  · exact (settles_checked _).bind fun _ => (settles_checked _).bind fun _ => settles_pure _

theorem closes_readTagRest (scope : Option Bytes) (tag : Tag) : Closes (readTagRest scope tag) := by
  cases tag with
  | print => exact closes_readPrint scope
  | loop => exact closes_readLoop scope
  | branch => exact (closes_readGuarded scope).bind fun _ => settles_readClauses scope _
  | raw => exact closes_readRaw scope
  | exportBody =>
      exact .after advances_readStringArgument fun _ =>
        (closes_readBody true).bind fun _ => settles_pure _
  | embedFile | importBody | extendFile => exact closes_readStringArgument.map _

/-- A tag ends with the parenthesis behind its arguments, or with the brace behind a body. -/
theorem closes_readTag (tags : TagTable) (scope : Option Bytes) : Closes (readTag tags scope) := by
  refine .after advances_readTagName fun name => ?_
  split
  · exact closes_readTagRest scope _
  · exact closes_throw _

end SourceReader

/-! ## Spans -/

/-- Bytes of a source, and the piece that is read from them. -/
structure Span where
  bytes : Bytes
  piece : Piece

namespace Span

/-- Some literal text. -/
structure IsText (span : Span) : Prop where
  nonempty : span.bytes ≠ []
  plain : ∀ b ∈ span.bytes, b ≠ Sign.pound ∧ b ≠ Opcode.stop
  piece_eq : span.piece = .emit (.raw span.bytes .done)

/-- A tag that begins at the cursor, and what its reader takes. -/
structure IsTag (tags : TagTable) (scope : Option Bytes) (c : Cursor) (span : Span) : Prop where
  head : span.bytes.head? = some Sign.pound
  last : ∃ b ∈ span.bytes.getLast?, Sign.Closing b
  taken : SourceReader.readTag tags scope (c.forward 1) =
    .ok span.piece (c.forward span.bytes.length)

/-- The spans lie ahead of the cursor, one behind the other up to the end, and no text is next
to other text. -/
inductive Cover (tags : TagTable) (scope : Option Bytes) : Cursor → List Span → Prop where
  | nil {c : Cursor} (atEnd : c.rest = []) : Cover tags scope c []
  | cons {c : Cursor} {span : Span} {spans : List Span}
      (ahead : c.rest = span.bytes ++ (c.forward span.bytes.length).rest)
      (kind : span.IsText ∨ span.IsTag tags scope c)
      (apart : span.IsText → ∀ next ∈ spans.head?, ¬ next.IsText)
      (behind : Cover tags scope (c.forward span.bytes.length) spans) :
      Cover tags scope c (span :: spans)

variable {tags : TagTable} {scope : Option Bytes} {c : Cursor} {spans : List Span}

/-- A tag is not text. -/
theorem IsTag.not_isText {span : Span} (h : span.IsTag tags scope c) : ¬ span.IsText := by
  intro htext
  exact (htext.plain _ (List.mem_of_mem_head? h.head)).1 rfl

section Position

variable {span : Span} {source back : Bytes} {start : Nat}

theorem IsTag.head?_eq (h : span.IsTag tags scope (.ofPosition source start))
    (hsource : span.bytes ++ back = source.drop start) :
    (source.drop start).head? = some Sign.pound := by
  rw [← hsource, List.head?_append, h.head]
  rfl

/-- The bytes of a tag are known from where its reader stops. -/
theorem IsTag.bytes_eq {stop : Nat} {piece : Piece}
    (h : span.IsTag tags scope (.ofPosition source start))
    (hsource : span.bytes ++ back = source.drop start)
    (hread : SourceReader.readTag tags scope (.ofPosition source (start + 1)) =
      .ok piece (.ofPosition source stop)) :
    span.bytes = (source.drop start).take (stop - start) := by
  have htaken := h.taken
  rw [Cursor.forward_ofPosition, hread] at htaken
  injection htaken with _ hstop
  have hlength : stop = start + span.bytes.length := congrArg Cursor.position hstop
  rw [hlength, Nat.add_sub_cancel_left, ← hsource, List.take_left]

end Position

namespace Cover

theorem flatten_eq (h : Cover tags scope c spans) : (spans.map Span.bytes).flatten = c.rest := by
  induction h with
  | nil atEnd => exact atEnd.symm
  | cons ahead _ _ _ ih =>
      rw [List.map_cons, List.flatten_cons, ih]
      exact ahead.symm

theorem isChain (h : Cover tags scope c spans) :
    spans.IsChain fun span next => ¬ (span.IsText ∧ next.IsText) := by
  induction h with
  | nil => exact .nil
  | cons _ _ apart _ ih =>
      refine List.isChain_cons.2 ⟨?_, ih⟩
      rintro next hnext ⟨htext, htext'⟩
      exact apart htext next hnext htext'

/-- Each span is text, or the tag that begins where the spans in front of it end. -/
theorem kind_of_append (h : Cover tags scope c spans) {front back : List Span} {span : Span}
    (hspans : spans = front ++ span :: back) :
    span.IsText ∨
      span.IsTag tags scope (c.forward (front.map Span.bytes).flatten.length) := by
  induction h generalizing front with
  | nil => simp at hspans
  | @cons c first spans _ kind _ _ ih =>
      cases front with
      | nil =>
          obtain ⟨rfl, -⟩ := List.cons.inj hspans
          show _ ∨ first.IsTag tags scope (c.forward 0)
          rw [c.forward_zero]
          exact kind
      | cons _ front =>
          obtain ⟨rfl, hrest⟩ := List.cons.inj hspans
          have hkind := ih hrest
          rw [c.forward_forward, ← List.length_append] at hkind
          exact hkind

end Cover

/-- The span of a literal text: none if it is empty. -/
def ofText (text : Bytes) : List Span :=
  (Reading.literalPieces text).map fun piece => ⟨text, piece⟩

theorem map_piece_ofText (text : Bytes) :
    (ofText text).map Span.piece = Reading.literalPieces text := by
  simp [ofText, Function.comp_def]

/-- Text covers what it is, in front of a tag or at the end. -/
theorem Cover.behindText {text : Bytes} (hahead : c.rest = text ++ (c.forward text.length).rest)
    (hplain : ∀ b ∈ text, b ≠ Sign.pound ∧ b ≠ Opcode.stop)
    (hnext : ∀ next ∈ spans.head?, ¬ next.IsText)
    (h : Cover tags scope (c.forward text.length) spans) :
    Cover tags scope c (ofText text ++ spans) := by
  unfold ofText Reading.literalPieces
  cases text with
  | nil =>
      rw [List.length_nil, c.forward_zero] at h
      exact h
  | cons b bs =>
      exact .cons hahead (.inl ⟨List.cons_ne_nil _ _, hplain, rfl⟩) (fun _ => hnext) h

/-- A source that is read without a fault is covered by the spans of its pieces. -/
theorem exists_cover {found : List Piece}
    (hsound : (Reading.ofCursor tags scope found c).fault = none) :
    ∃ spans, (Reading.ofCursor tags scope found c).pieces =
      found.reverse ++ spans.map Span.piece ∧ Cover tags scope c spans := by
  fun_induction Reading.ofCursor tags scope found c with
  | case1 => cases hsound
  | case2 found c text hplain _ hend =>
      have hahead := Reading.rest_eq_append c
      refine ⟨ofText text ++ [], ?_, ?_⟩
      · rw [List.append_nil, map_piece_ofText, List.reverse_append, Reading.reverse_literalPieces]
      · refine .behindText hahead (Reading.mem_takeWhile_ne_pound hplain) ?_ (.nil hend)
        rintro _ ⟨⟩
  | case3 => cases hsound
  | case4 found c text hplain _ b bs hnext piece c' hread ih =>
      obtain ⟨spans, hpieces, hcover⟩ := ih hsound
      obtain ⟨front, last, htaken, hlast⟩ := SourceReader.closes_readTag _ _ _ _ _ hread
      obtain rfl : bs = front ++ last :: c'.rest := htaken
      obtain rfl : b = Sign.pound := Reading.head?_rest_forward c b (by rw [hnext]; rfl)
      have hahead := Reading.rest_eq_append c
      have hmoved := (SourceReader.advances_readTag tags scope).ok hread
      let span : Span := ⟨Sign.pound :: (front ++ [last]), piece⟩
      -- The reader starts behind the pound sign, and stops behind the byte that closes.
      have htaken : ((c.forward text.length).past hnext).rest = front ++ [last] ++ c'.rest := by
        simp [Cursor.past]
      have hstop : c' = (c.forward text.length).forward span.bytes.length := by
        rw [hmoved.eq_forward htaken, Cursor.past_eq_forward, Cursor.forward_forward, Nat.add_comm]
        rfl
      have htag : span.IsTag tags scope (c.forward text.length) := by
        refine ⟨rfl, ⟨last, ?_, hlast⟩, ?_⟩
        · exact List.getLast?_concat (l := Sign.pound :: front)
        · rw [← hstop, ← Cursor.past_eq_forward _ hnext]
          exact hread
      refine ⟨ofText text ++ span :: spans, ?_, ?_⟩
      · have hfound : (Reading.literalPieces text ++ found).reverse =
            found.reverse ++ Reading.literalPieces text := by
          rw [List.reverse_append, Reading.reverse_literalPieces]
        rw [hpieces, List.reverse_cons, hfound, List.map_append, map_piece_ofText]
        simp only [List.append_assoc, List.singleton_append, List.map_cons, span]
      · refine .behindText hahead (Reading.mem_takeWhile_ne_pound hplain) ?_ ?_
        · rintro _ ⟨⟩
          exact htag.not_isText
        · refine .cons ?_ (.inr htag) (fun htext => absurd htext htag.not_isText) (hstop ▸ hcover)
          rw [hnext, ← hstop]
          simp [span]

end Span

/-! ## The first pass -/

namespace Compiler

variable {store : Store} {extension path : String} {source : Bytes} {actions : List Action}
  {s s' : CompileState}

/-- Text is given out as it stands. -/
theorem action_of_text {spans : List Span} {compiler : Compiler}
    (h : compiler.firstPass path (spans.map Span.piece) s = .ok actions s') :
    List.Forall₂ (fun span action => span.IsText → action = .emit (.raw span.bytes .done))
      spans actions := by
  induction spans generalizing s actions with
  | nil =>
      cases h
      exact .nil
  | cons span spans ih =>
      obtain ⟨action, more, s₁, hspan, hmore, rfl⟩ := mapM_cons_eq_ok.1 h
      refine .cons (fun htext => ?_) (ih hmore)
      rw [htext.piece_eq] at hspan
      cases hspan
      rfl

/-- The first pass neither drops bytes of its source nor repeats them.  A source that it goes
through is cut into spans, one for each action: text without pound signs and zero bytes, which
is given out as it stands and is never next to other text, and tags, from their pound sign to
the byte that closes them, each of which is exactly what its reader takes. -/
theorem scanSource_spans
    (h : (usual store extension).scanSource source path s = .ok actions s') :
    ∃ spans : List Span,
      (spans.map Span.bytes).flatten = source ∧
      (usual store extension).firstPass path (spans.map Span.piece) s = .ok actions s' ∧
      List.Forall₂ (fun span action => span.IsText → action = .emit (.raw span.bytes .done))
        spans actions ∧
      (spans.IsChain fun span next => ¬ (span.IsText ∧ next.IsText)) ∧
      ∀ front span back, spans = front ++ span :: back → span.IsText ∨
        span.IsTag builtinTags s.scope
          (.ofPosition source (front.map Span.bytes).flatten.length) := by
  have hreading := reading_of_scanSource h
  obtain ⟨spans, hpieces, hcover⟩ := Span.exists_cover (congrArg Reading.fault hreading)
  have hpass : (usual store extension).firstPass path (spans.map Span.piece) s =
      .ok actions s' := by
    rw [← List.nil_append (spans.map Span.piece)]
    rw [scanSource_of_reading hreading] at h
    exact hpieces ▸ h
  refine ⟨spans, hcover.flatten_eq, hpass, action_of_text hpass, hcover.isChain, ?_⟩
  intro front span back hspans
  have hkind := hcover.kind_of_append hspans
  rw [show Cursor.ofBytes source = .ofPosition source 0 from rfl, Cursor.forward_ofPosition,
    Nat.zero_add] at hkind
  exact hkind

/-- Text and tags, one of them with blanks before its body. -/
def mixedSource : Bytes := Utf8.encode "a #(x)#() b#if(y)  \x7bz\x7d c"

/-- What the first pass makes of it. -/
def mixedActions : List Action := [
  .emit (.raw (Utf8.encode "a ") .done),
  .emit (.print (.path ["x"]) .done),
  .emit (.raw (Utf8.encode "#") .done),
  .emit (.raw (Utf8.encode " b") .done),
  .defer "" none (.conditional [(["y"], Utf8.encode "z")] none),
  .emit (.raw (Utf8.encode " c") .done)]

theorem scanSource_mixedSource :
    plain.scanSource mixedSource "" .fresh = .ok mixedActions .fresh := by
  decide +kernel

theorem bytes_eq_of_emit {data : Bytes} {span : Span}
    (haction : span.IsText → (.emit (.raw data .done) : Action) = .emit (.raw span.bytes .done))
    (htext : span.IsText) : data = span.bytes := by
  injection haction htext with hcode
  injection hcode

/-- The spans are found from the left: by its action a span is no text, or by its first byte
it is no tag, and then its bytes are known, and where the next one begins. -/
theorem scanSource_spans_mixedSource :
    plain.scanSource mixedSource "" .fresh = .ok mixedActions .fresh ∧
      ∃ a x pound b y c : Span,
        [a, x, pound, b, y, c].map Span.bytes =
          ["a ", "#(x)", "#()", " b", "#if(y)  \x7bz\x7d", " c"].map Utf8.encode ∧
        (a.IsText ∧ b.IsText ∧ c.IsText) ∧
        x.IsTag builtinTags none (.ofPosition mixedSource 2) ∧
        pound.IsTag builtinTags none (.ofPosition mixedSource 6) ∧
        y.IsTag builtinTags none (.ofPosition mixedSource 11) := by
  have hprint : SourceReader.readTag builtinTags none (.ofPosition mixedSource 3) =
      .ok (.emit (.print (.path ["x"]) .done)) (.ofPosition mixedSource 6) := by
    decide +kernel
  have hpound : SourceReader.readTag builtinTags none (.ofPosition mixedSource 7) =
      .ok (.emit (.raw (Utf8.encode "#") .done)) (.ofPosition mixedSource 9) := by
    decide +kernel
  have hbranch : SourceReader.readTag builtinTags none (.ofPosition mixedSource 12) =
      .ok (.conditional [(["y"], Utf8.encode "z")] none) (.ofPosition mixedSource 22) := by
    decide +kernel
  obtain ⟨spans, hflatten, -, hactions, -, hkinds⟩ := scanSource_spans scanSource_mixedSource
  refine ⟨scanSource_mixedSource, ?_⟩
  unfold mixedActions at hactions
  match spans, hactions with
  | [⟨a, pa⟩, ⟨x, px⟩, ⟨pound, pp⟩, ⟨b, pb⟩, ⟨y, py⟩, ⟨c, pc⟩],
      .cons ha (.cons hx (.cons hp (.cons hb (.cons hy (.cons hc .nil))))) =>
    have hfrom : a ++ (x ++ (pound ++ (b ++ (y ++ (c ++ []))))) = mixedSource.drop 0 := hflatten
    have ha' : Span.IsText ⟨a, pa⟩ := (hkinds [] _ _ rfl).resolve_right
      fun (h : Span.IsTag _ _ (.ofPosition mixedSource 0) ⟨a, pa⟩) =>
        absurd (h.head?_eq hfrom) (by decide)
    obtain rfl : Utf8.encode "a " = a := bytes_eq_of_emit ha ha'
    have hfrom : x ++ (pound ++ (b ++ (y ++ (c ++ [])))) = mixedSource.drop 2 :=
      List.append_cancel_left hfrom
    have hx' : Span.IsTag _ none (.ofPosition mixedSource 2) ⟨x, px⟩ :=
      (hkinds [_] _ _ rfl).resolve_left fun h => nomatch hx h
    obtain rfl : Utf8.encode "#(x)" = x := (hx'.bytes_eq hfrom hprint).symm
    have hfrom : pound ++ (b ++ (y ++ (c ++ []))) = mixedSource.drop 6 :=
      List.append_cancel_left hfrom
    have hp' : Span.IsTag _ none (.ofPosition mixedSource 6) ⟨pound, pp⟩ :=
      (hkinds [_, _] _ _ rfl).resolve_left fun h => by
        -- Text that is given out as a pound sign would have one.
        obtain rfl : Utf8.encode "#" = pound := bytes_eq_of_emit hp h
        exact (h.plain Sign.pound (show _ ∈ Utf8.encode "#" by decide)).1 rfl
    obtain rfl : Utf8.encode "#()" = pound := (hp'.bytes_eq hfrom hpound).symm
    have hfrom : b ++ (y ++ (c ++ [])) = mixedSource.drop 9 := List.append_cancel_left hfrom
    have hb' : Span.IsText ⟨b, pb⟩ := (hkinds [_, _, _] _ _ rfl).resolve_right
      fun (h : Span.IsTag _ _ (.ofPosition mixedSource 9) ⟨b, pb⟩) =>
        absurd (h.head?_eq hfrom) (by decide)
    obtain rfl : Utf8.encode " b" = b := bytes_eq_of_emit hb hb'
    have hfrom : y ++ (c ++ []) = mixedSource.drop 11 := List.append_cancel_left hfrom
    have hy' : Span.IsTag _ none (.ofPosition mixedSource 11) ⟨y, py⟩ :=
      (hkinds [_, _, _, _] _ _ rfl).resolve_left fun h => nomatch hy h
    obtain rfl : Utf8.encode "#if(y)  \x7bz\x7d" = y := (hy'.bytes_eq hfrom hbranch).symm
    have hfrom : c ++ [] = mixedSource.drop 22 := List.append_cancel_left hfrom
    have hc' : Span.IsText ⟨c, pc⟩ := (hkinds [_, _, _, _, _] _ _ rfl).resolve_right
      fun (h : Span.IsTag _ _ (.ofPosition mixedSource 22) ⟨c, pc⟩) =>
        absurd (h.head?_eq hfrom) (by decide)
    obtain rfl : Utf8.encode " c" = c := bytes_eq_of_emit hc hc'
    exact ⟨_, _, _, _, _, _, rfl, ⟨ha', hb', hc'⟩, hx', hp', hy'⟩

end Compiler

end Stencil
