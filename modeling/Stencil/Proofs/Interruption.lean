/-
# `Stencil.Proofs.Interruption` — a source that breaks off

If a whole source is read without a fault, then any first part of it is read as the whole source is,
up to the tag in which it breaks off.  What happens there depends on the place:

    in the name of a tag or of a clause       `tagNotOpened`
    within parentheses, or in a body          `tagNotClosed`
    in front of a body that has to begin      `missingByte none` for a brace
    elsewhere                                 no fault

A tag that prints may have a body, and a condition may have one more clause, so these two look
ahead.  A source that breaks off in front of the body or the clause is read without it.  The last
tag is then not that of the whole source, and what is left ahead of it are blanks, and perhaps the
first pound sign of the clause (`SourceReader.readTag_of_cut`).

It is known already that a reader takes the same bytes where other text follows (`Takes`), so a
reader that succeeds at a part of some text succeeds at all of it alike (`Takes.cut`).  What is left
to prove of each reader is by which errors it fails at a part of what it can read (`Breaks`), and
that is again closed under sequencing.

**Proved here**, by induction on the tags of the whole source:

    of a first part are read pieces of the whole source, then some that
      embed no file; and the only fault is that it breaks off   (`Reading.cutFrom_ofBytes`)
-/
import Stencil.Proofs.Advancing
import Stencil.Proofs.Seam

namespace Stencil

/-! ## What is reported -/

/-- A tag is not closed. -/
def CompileError.IsNotClosed (e : CompileError) : Prop := ∃ position, e = .tagNotClosed position

/-- The errors of a source that breaks off: a tag is not opened, a tag or its body is not closed,
or the source ends where a body has to begin. -/
inductive CompileError.IsInterruption : CompileError → Prop where
  | notOpened (position : Nat) : IsInterruption (.tagNotOpened position)
  | notClosed (position : Nat) : IsInterruption (.tagNotClosed position)
  | noBody : IsInterruption (.missingByte none (.ofByte Sign.braceOpen))

theorem CompileError.IsNotClosed.isInterruption {e : CompileError} (h : e.IsNotClosed) :
    e.IsInterruption := by
  obtain ⟨position, rfl⟩ := h
  exact .notClosed position

namespace Reader

variable {ε α β : Type} {r : Reader ε α} {f : α → Reader ε β} {c c₁ : Cursor}

theorem bind_of_ok {a : α} (h : r c = .ok a c₁) : (r >>= f) c = f a c₁ := by
  simp only [Bind.bind, EStateM.bind, h]

theorem bind_of_error {e : ε} (h : r c = .error e c₁) : (r >>= f) c = .error e c₁ := by
  simp only [Bind.bind, EStateM.bind, h]

theorem bind_eq_error {e : ε} {c' : Cursor} (h : (r >>= f) c = .error e c') :
    r c = .error e c' ∨ ∃ a c₁, r c = .ok a c₁ ∧ f a c₁ = .error e c' := by
  simp only [Bind.bind, EStateM.bind] at h
  split at h
  · exact .inr ⟨_, _, by assumption, h⟩
  · cases h
    exact .inl (by assumption)

theorem map_of_error {g : α → β} {e : ε} (h : r c = .error e c₁) : (g <$> r) c = .error e c₁ := by
  simp only [Functor.map, EStateM.map, h]

end Reader

namespace SourceReader

/-! ## Readers on a part of what they read -/

/-- A reader that does not fail at some text fails at a part of it by these errors only. -/
structure Breaks {α : Type} (r : SourceReader α) (errors : CompileError → Prop) : Prop where
  error : ∀ {c d : Cursor} {more : Bytes} {a : α} {e : CompileError} {c' d' : Cursor},
    c.rest = d.rest ++ more → r c = .ok a c' → r d = .error e d' → errors e

section Cut

variable {α β : Type} {r : SourceReader α} {P : Bytes → α → Prop} {ahead : Bytes → Bytes → Prop}
  {errors : CompileError → Prop}

/-- What is read at a part of some text is read at all of it too. -/
theorem Takes.cut {c d d' : Cursor} {more : Bytes} {a : α} (hr : Takes r P ahead)
    (hcut : c.rest = d.rest ++ more) (hok : r d = .ok a d')
    (hahead : ahead d'.rest (d'.rest ++ more)) :
    ∃ c', r c = .ok a c' ∧ c'.rest = d'.rest ++ more := by
  obtain ⟨taken, htaken, -, hgives⟩ := hr.ok hok
  refine hgives _ hahead c ?_
  rw [hcut, htaken, List.append_assoc]

/-- What is read in front of some text is read in front of other text too. -/
theorem Gives.behind {taken after after' : Bytes} {a : α} (hr : Takes r P ahead)
    (h : Gives r taken after a) (hahead : ahead after after') : Gives r taken after' a := by
  obtain ⟨c', hok, hrest⟩ := h (.ofBytes (taken ++ after)) rfl
  obtain ⟨taken', htaken, -, hgives⟩ := hr.ok hok
  rw [hrest] at htaken hgives
  obtain rfl : taken = taken' := List.append_cancel_right htaken
  exact hgives after' hahead

namespace Breaks

theorem imp {others : CompileError → Prop} (h : Breaks r errors)
    (himp : ∀ e, errors e → others e) : Breaks r others where
  error hcut hok herr := himp _ (h.error hcut hok herr)

theorem isInterruption (h : Breaks r CompileError.IsNotClosed) :
    Breaks r CompileError.IsInterruption :=
  h.imp fun _ he => he.isInterruption

/-- A reader that fails by these errors only. -/
theorem always (h : ∀ {c e c'}, r c = .error e c' → errors e) : Breaks r errors where
  error _ _ herr := h herr

theorem pure (a : α) : Breaks (Pure.pure a) errors where
  error _ _ herr := nomatch herr

theorem throw (e : CompileError) : Breaks (throw e : SourceReader α) errors where
  error _ hok _ := nomatch hok

/-- A check does not depend on the text ahead. -/
theorem checked (x : Except CompileError α) : Breaks (SourceReader.checked x) errors := by
  cases x with
  | ok a => exact pure a
  | error e => exact throw e

/-- What comes first reads the same at a part of the text, or fails there. -/
theorem bind {f : α → SourceReader β} (htakes : Takes r P Anywhere) (hr : Breaks r errors)
    (hf : ∀ a, Breaks (f a) errors) : Breaks (r >>= f) errors where
  error := by
    intro c d more b e c' d' hcut hok herr
    obtain ⟨a, c₁, hc, hc'⟩ := Reader.bind_eq_ok hok
    simp only [Bind.bind, EStateM.bind] at herr
    split at herr
    next a' d₁ hd =>
      obtain ⟨c₂, hc₂, hrest⟩ := htakes.cut hcut hd trivial
      cases hc.symm.trans hc₂
      exact (hf a).error hrest hc' herr
    next hd =>
      cases herr
      exact hr.error hcut hc hd

theorem map {f : α → β} (hr : Breaks r errors) : Breaks (f <$> r) errors where
  error := by
    intro c d more b e c' d' hcut hok herr
    simp only [Functor.map, EStateM.map] at hok herr
    split at hok <;> cases hok
    split at herr <;> cases herr
    exact hr.error hcut (by assumption) (by assumption)

/-- A reader that reports the position where it began. -/
theorem positioned {f : Nat → SourceReader α} (hf : ∀ start, Breaks (f start) errors)
    (hsame : ∀ {start start' c a c'}, f start c = .ok a c' → f start' c = .ok a c') :
    Breaks (do f (← get).position) errors where
  error hcut hok herr := (hf _).error hcut (hsame hok) herr

end Breaks

end Cut

/-! ### The parts of a tag -/

/-- The first byte of a part of some text is the first byte of the text. -/
theorem head?_of_cut {text cut more : Bytes} {b : UInt8} {bs : Bytes} (hcut : text = cut ++ more)
    (htext : text = b :: bs) : ∀ b' ∈ cut.head?, b' = b := by
  intro b' hb'
  cases cut with
  | nil => cases hb'
  | cons x xs =>
      cases hb'
      exact (List.cons.inj (hcut.symm.trans htext)).1

/-- A byte is there, unless the text ends. -/
theorem exists_expectByte {b : UInt8} {c : Cursor} (hb : ∀ b' ∈ c.rest.head?, b' = b)
    (hne : c.rest ≠ []) : ∃ c', expectByte b c = .ok () c' := by
  obtain ⟨b', bs, hrest⟩ := List.exists_cons_of_ne_nil hne
  obtain rfl : b' = b := hb b' (by rw [hrest]; rfl)
  obtain ⟨c', hok, -⟩ := gives_expectByte b' bs c hrest
  exact ⟨c', hok⟩

theorem expectByte_nil (b : UInt8) {c : Cursor} (h : c.rest = []) :
    expectByte b c = .error (.missingByte none (.ofByte b)) c := by
  have hpeek : c.peek 0 = none := by
    rw [Cursor.peek, h]
    rfl
  rw [expectByte, hpeek, if_neg (Option.some_ne_none b).symm]

theorem breaks_expectByte (b : UInt8) :
    Breaks (expectByte b) (· = .missingByte none (.ofByte b)) := by
  constructor
  intro c d more _ e c' d' hcut hok herr
  have hnil : d.rest = [] := by
    by_contra hne
    obtain ⟨_, hd⟩ := exists_expectByte (head?_of_cut hcut (expectByte_eq_ok hok)) hne
    cases hd.symm.trans herr
  cases (expectByte_nil b hnil).symm.trans herr
  rfl

theorem ne_nil_of_not_atEnd {c : Cursor} (h : ¬ c.atEnd = true) : c.rest ≠ [] := by
  intro hnil
  rw [Cursor.atEnd, hnil] at h
  exact h rfl

/-- Where a string begins, the only fault is that it does not end. -/
theorem readTagString_eq_error {c c' : Cursor} {e : CompileError}
    (hquote : ∀ b ∈ c.rest.head?, b = Sign.quote) (h : readTagString c = .error e c') :
    e.IsNotClosed := by
  unfold readTagString at h
  split at h
  · cases h
    exact ⟨_, rfl⟩
  next hend =>
    split at h
    · cases h
      exact ⟨_, rfl⟩
    next hother =>
      obtain ⟨c₁, hopen⟩ := exists_expectByte hquote (ne_nil_of_not_atEnd hend)
      have hstring : readString c = readUntil (· == Sign.quote) true c₁ := Reader.bind_of_ok hopen
      obtain ⟨position, rfl⟩ := readUntil_eq_error (hstring.symm.trans h)
      exact absurd h (hother position c')

theorem breaks_readTagString : Breaks readTagString CompileError.IsNotClosed where
  error hcut hok := readTagString_eq_error (head?_of_cut hcut (readTagString_eq_ok hok).1)

theorem breaks_closeTag : Breaks closeTag CompileError.IsNotClosed := by
  constructor
  intro c d more _ e c' d' hcut hok herr
  unfold closeTag at hok herr
  split at hok
  · cases hok
  split at herr
  · cases herr
    exact ⟨_, rfl⟩
  next hend =>
    obtain ⟨_, hd⟩ :=
      exists_expectByte (head?_of_cut hcut (expectByte_eq_ok hok)) (ne_nil_of_not_atEnd hend)
    cases hd.symm.trans herr

theorem breaks_readTagName : Breaks readTagName CompileError.IsInterruption := by
  constructor
  intro c d more name e c' d' hcut hok herr
  simp only [readTagName] at herr
  split at herr
  · cases herr
    exact .notOpened _
  next b bs hdrop =>
    split at herr
    · cases herr
    next hb =>
      -- The blank at which it fails stands in the whole text too.
      obtain ⟨hrest, hdelimits, hname⟩ := eq_append_of_drop hdrop
      rw [hrest, List.append_assoc, List.cons_append] at hcut
      simp only [readTagName] at hok
      rw [hcut, takeWhile_append_delimiter hname hdelimits, List.drop_left] at hok
      simp only [if_neg hb] at hok
      cases hok

/-- Arguments only fail in that they are not closed. -/
theorem readArguments_eq_error {found : Bytes} {c c' : Cursor} {e : CompileError}
    (h : readArgumentsFrom found c = .error e c') : e.IsNotClosed := by
  fun_induction readArgumentsFrom found c with
  | case1 => cases h; exact ⟨_, rfl⟩
  | case2 => cases h
  | case3 found c bs _ c₁ hread hc =>
      cases h
      refine readTagString_eq_error ?_ hread
      rw [hc]
      rintro _ ⟨⟩
      rfl
  | case4 _ _ _ _ _ _ _ _ ih => exact ih h
  | case5 _ _ _ _ _ _ _ ih => exact ih h

theorem breaks_readArguments : Breaks readArguments CompileError.IsNotClosed :=
  .always readArguments_eq_error

theorem readBodyEnd_eq_error {counting : Bool} {c c' : Cursor} {e : CompileError}
    (h : readBodyEnd counting c = .error e c') : e.IsNotClosed := by
  unfold readBodyEnd at h
  split at h <;> cases h
  exact ⟨_, rfl⟩

/-- Where the blanks ahead are followed by something, a part of a text has the blanks of all of
it. -/
theorem rest_skipBlanks_of_cut {c d : Cursor} {more : Bytes} (hcut : c.rest = d.rest ++ more)
    (hne : d.skipBlanks.rest ≠ []) : c.skipBlanks.rest = d.skipBlanks.rest ++ more := by
  rw [rest_skipBlanks] at hne
  rw [rest_skipBlanks, rest_skipBlanks, hcut, List.dropWhile_append]
  rw [if_neg (by rwa [List.isEmpty_iff])]

theorem breaks_readBody (counting : Bool) :
    Breaks (readBody counting) CompileError.IsInterruption := by
  have hopened : Breaks (do expectByte Sign.braceOpen; readBodyEnd counting)
      CompileError.IsInterruption := by
    refine .bind (takes_expectByte _) ?_ fun _ => ?_
    · exact (breaks_expectByte _).imp fun e he => he ▸ .noBody
    · exact .always fun h => (readBodyEnd_eq_error h).isInterruption
  constructor
  intro c d more body e c' d' hcut hok herr
  change (do expectByte Sign.braceOpen; readBodyEnd counting : SourceReader Bytes) c.skipBlanks =
    _ at hok
  change (do expectByte Sign.braceOpen; readBodyEnd counting : SourceReader Bytes) d.skipBlanks =
    _ at herr
  by_cases hne : d.skipBlanks.rest = []
  · cases (Reader.bind_of_error (expectByte_nil _ hne)).symm.trans herr
    exact .noBody
  · exact hopened.error (rest_skipBlanks_of_cut hcut hne) hok herr

/-! ### Tags -/

theorem breaks_readArgumentsOf (tag : String) (kinds : List ArgumentKind) :
    Breaks (readArgumentsOf tag kinds) CompileError.IsInterruption := by
  refine .bind takes_readArguments breaks_readArguments.isInterruption fun raw => ?_
  refine .bind (takes_parseArguments tag raw) (.checked _) fun arguments => ?_
  exact .bind (takes_expectArguments tag kinds arguments) (.checked _) fun _ => .pure _

theorem breaks_readStringArgument : Breaks readStringArgument CompileError.IsNotClosed := by
  refine .bind takes_readTagString breaks_readTagString fun data => ?_
  exact .bind takes_closeTag breaks_closeTag fun _ => .checked _

theorem breaks_readGuarded (scope : Option Bytes) :
    Breaks (readGuarded scope) CompileError.IsInterruption := by
  refine .bind (takes_readArgumentsOf _ _) (breaks_readArgumentsOf _ _) fun values => ?_
  refine .bind (takes_parseScoped scope _) (.checked _) fun condition => ?_
  exact .bind (takes_readBody true) (breaks_readBody true) fun body => .pure _

theorem breaks_readClause (scope : Option Bytes) :
    Breaks (readClause scope) CompileError.IsInterruption := by
  refine .bind takes_readTagName breaks_readTagName fun name => ?_
  split
  · exact .bind (takes_readGuarded scope) (breaks_readGuarded scope) fun _ => .pure _
  split
  · refine .bind (takes_readArgumentsOf _ _) (breaks_readArgumentsOf _ _) fun _ => ?_
    exact .bind (takes_readBody true) (breaks_readBody true) fun _ => .pure _
  · exact .throw _

/-- A clause that is ahead in a part of some text is ahead in all of it. -/
theorem clauseAhead_of_cut {c d : Cursor} {more : Bytes} (hcut : c.rest = d.rest ++ more)
    (hahead : d.skipBlanks.startsWith clauseSign = true) :
    c.skipBlanks.startsWith clauseSign = true ∧ (c.skipBlanks.forward clauseSign.length).rest =
      (d.skipBlanks.forward clauseSign.length).rest ++ more := by
  have hrest := rest_of_clauseAhead hahead
  rw [hrest, List.append_assoc] at hcut
  exact clauseAhead_of_rest (List.all_eq_true.1 List.all_takeWhile) hcut

theorem breaks_readClauses (scope : Option Bytes) (branches : List (List String × Bytes)) :
    Breaks (readClauses scope branches) CompileError.IsInterruption := by
  constructor
  intro c d more piece e c' d' hcut hok herr
  fun_induction readClauses scope branches d generalizing c with
  | case1 branches d hahead _ _ hread =>
      cases herr
      obtain ⟨hahead', hcut'⟩ := clauseAhead_of_cut hcut hahead
      rw [readClauses_of_ahead hahead'] at hok
      obtain ⟨clause, c₁, hclause, -⟩ := Reader.bind_eq_ok hok
      exact (breaks_readClause scope).error hcut' hclause hread
  | case2 branches d hahead condition body d₁ hread ih =>
      obtain ⟨hahead', hcut'⟩ := clauseAhead_of_cut hcut hahead
      obtain ⟨c₁, hclause, hrest⟩ := (takes_readClause scope).cut hcut' hread trivial
      rw [readClauses_of_ahead hahead', Reader.bind_of_ok hclause] at hok
      exact ih hrest hok herr
  | case3 => cases herr
  | case4 => cases herr

theorem breaks_readBranch (scope : Option Bytes) :
    Breaks (readBranch scope) CompileError.IsInterruption :=
  .bind (takes_readGuarded scope) (breaks_readGuarded scope) fun first =>
    breaks_readClauses scope [first]

theorem readPrinted_eq_error {start : Nat} {c c' : Cursor} {e : CompileError}
    (h : readPrinted start c = .error e c') : e.IsNotClosed := by
  unfold readPrinted at h
  split at h
  · cases h
    exact ⟨_, rfl⟩
  next hother => exact absurd h (hother _ _)

theorem breaks_readBodyAhead {α : Type} (withBody : Bytes → α) (without : α) :
    Breaks (readBodyAhead withBody without) CompileError.IsInterruption := by
  have hbody : Breaks (withBody <$> readBody true) CompileError.IsInterruption :=
    (breaks_readBody true).map
  constructor
  intro c d more a e c' d' hcut hok herr
  change (if d.nextSignificant = some Sign.braceOpen then withBody <$> readBody true
    else pure without : SourceReader α) d = _ at herr
  change (if c.nextSignificant = some Sign.braceOpen then withBody <$> readBody true
    else pure without : SourceReader α) c = _ at hok
  split at herr
  next hd =>
    have hc : c.nextSignificant = some Sign.braceOpen := by
      rw [nextSignificant_eq, ← rest_skipBlanks] at hd ⊢
      have hne : d.skipBlanks.rest ≠ [] := by
        intro hnil
        rw [hnil] at hd
        cases hd
      rw [rest_skipBlanks_of_cut hcut hne, List.head?_append, hd]
      rfl
    rw [if_pos hc] at hok
    exact hbody.error hcut hok herr
  next => cases herr

theorem breaks_readPrintEnd (scope : Option Bytes) (path : Bytes) :
    Breaks (readPrintEnd scope path) CompileError.IsInterruption := by
  unfold readPrintEnd
  split
  · exact .pure _
  · refine .bind (takes_parseScoped scope path) (.checked _) fun segments => ?_
    exact breaks_readBodyAhead _ _

theorem breaks_readPrint (scope : Option Bytes) :
    Breaks (readPrint scope) CompileError.IsInterruption := by
  refine .positioned (f := fun start => readPrinted start >>= readPrintEnd scope) ?_
    readPrint_of_start
  intro start
  refine .bind (takes_readPrinted start) (.always ?_) (breaks_readPrintEnd scope)
  exact fun h => (readPrinted_eq_error h).isInterruption

theorem breaks_readLoop (scope : Option Bytes) :
    Breaks (readLoop scope) CompileError.IsInterruption := by
  refine .bind (takes_readArgumentsOf _ _) (breaks_readArgumentsOf _ _) fun values => ?_
  dsimp only
  split
  · refine .bind (takes_readBody true) (breaks_readBody true) fun body => ?_
    refine .bind (takes_parseScoped scope _) (.checked _) fun iterable => ?_
    exact .bind (takes_decodeText _) (.checked _) fun name => .pure _
  · exact .throw _

theorem breaks_readRawBody (start : Nat) :
    Breaks (readRawBody start) CompileError.IsInterruption := by
  refine .bind (takes_readBody false) (breaks_readBody false) fun body => ?_
  split
  · exact .throw _
  · exact .pure _

theorem breaks_readRaw (scope : Option Bytes) :
    Breaks (readRaw scope) CompileError.IsInterruption := by
  refine .bind takes_readArguments breaks_readArguments.isInterruption fun raw => ?_
  refine .bind (takes_parseArguments _ raw) (.checked _) fun arguments => ?_
  split
  · exact .positioned breaks_readRawBody readRawBody_of_start
  · refine .bind (takes_expectArguments _ _ _) (.checked _) fun arguments => ?_
    exact .bind (takes_parseScoped scope _) (.checked _) fun _ => .pure _

theorem breaks_readExport : Breaks readExport CompileError.IsInterruption := by
  refine .bind takes_readStringArgument breaks_readStringArgument.isInterruption fun name => ?_
  exact .bind (takes_readBody true) (breaks_readBody true) fun body => .pure _

theorem breaks_readTagRest (scope : Option Bytes) (tag : Tag) :
    Breaks (readTagRest scope tag) CompileError.IsInterruption := by
  cases tag with
  | print => exact breaks_readPrint scope
  | loop => exact breaks_readLoop scope
  | branch => exact breaks_readBranch scope
  | raw => exact breaks_readRaw scope
  | exportBody => exact breaks_readExport
  | embedFile | importBody | extendFile => exact breaks_readStringArgument.isInterruption.map

/-- A tag that can be read breaks off where a part of it lies ahead. -/
theorem breaks_readTag (tags : TagTable) (scope : Option Bytes) :
    Breaks (readTag tags scope) CompileError.IsInterruption := by
  refine .bind takes_readTagName breaks_readTagName fun name => ?_
  split
  · exact breaks_readTagRest scope _
  · exact .throw _

/-! ### What lies ahead when a tag ends early -/

/-- Less text behind makes no body and no clause begin. -/
theorem apart_shorter (after more : Bytes) : Apart (after ++ more) after := by
  unfold Apart
  rw [List.dropWhile_append]
  split
  next hnil =>
    rw [List.isEmpty_iff] at hnil
    rw [hnil]
    exact ⟨nofun, fun hclause => nomatch List.prefix_nil.1 hclause⟩
  next =>
    refine ⟨fun hbody => ?_, fun hclause => hclause.trans (List.prefix_append _ more)⟩
    rw [List.head?_append, hbody]
    rfl

theorem readPrint_ne_embed {scope : Option Bytes} {c c' : Cursor} {piece : Piece}
    (h : readPrint scope c = .ok piece c') : ∀ name, piece ≠ .embedFile name := by
  obtain ⟨_, _, -, h⟩ := Reader.bind_eq_ok h
  obtain ⟨path, _, -, h⟩ := Reader.bind_eq_ok h
  split at h
  · cases h
    simp
  · obtain ⟨segments, _, -, h⟩ := Reader.bind_eq_ok h
    obtain ⟨_, _, -, h⟩ := Reader.bind_eq_ok h
    split at h
    · obtain ⟨body, _, -, h⟩ := Reader.bind_eq_ok h
      cases h
      simp
    · cases h
      simp

theorem readClauses_ne_embed {scope : Option Bytes} {branches : List (List String × Bytes)}
    {c c' : Cursor} {piece : Piece} (h : readClauses scope branches c = .ok piece c') :
    ∀ name, piece ≠ .embedFile name := by
  fun_induction readClauses scope branches c with
  | case1 => cases h
  | case2 _ _ _ _ _ _ _ ih => exact ih h
  | case3 => cases h; simp
  | case4 => cases h; simp

/-- Where a part of some text lies ahead, a tag that is read is the tag of the whole text, or it
ends early: it embeds no file, and what lies ahead of it are blanks, and perhaps a pound sign. -/
theorem readTag_of_cut {tags : TagTable} {scope : Option Bytes} {c d d' : Cursor} {more : Bytes}
    {piece : Piece} (hcut : c.rest = d.rest ++ more) (h : readTag tags scope d = .ok piece d') :
    (∃ c', readTag tags scope c = .ok piece c' ∧ c'.rest = d'.rest ++ more) ∨
      (∀ name, piece ≠ .embedFile name) ∧ d'.rest.dropWhile Bytes.isBlank <+: [Sign.pound] := by
  obtain ⟨name, d₁, hname, hrest⟩ := Reader.bind_eq_ok h
  obtain ⟨c₁, hname', hcut'⟩ := takes_readTagName.cut hcut hname trivial
  rw [readTag, Reader.bind_of_ok hname']
  cases htag : tags.find? name with
  | none => rw [htag] at hrest; cases hrest
  | some tag =>
      rw [htag] at hrest
      have hwhole : Apart d'.rest (d'.rest ++ more) →
          ∃ c', readTagRest scope tag c₁ = .ok piece c' ∧ c'.rest = d'.rest ++ more :=
        (takes_readTagRest scope tag).cut hcut' hrest
      cases tag with
      | print =>
          exact (Reading.apart_append d'.rest more).imp hwhole
            fun hblanks => ⟨readPrint_ne_embed hrest, hblanks⟩
      | branch =>
          obtain ⟨_, _, -, hclauses⟩ := Reader.bind_eq_ok hrest
          exact (Reading.apart_append d'.rest more).imp hwhole
            fun hblanks => ⟨readClauses_ne_embed hclauses, hblanks⟩
      | loop => exact .inl ((takes_readLoop scope).cut hcut' hrest trivial)
      | raw => exact .inl ((takes_readRaw scope).cut hcut' hrest trivial)
      | exportBody => exact .inl (takes_readExport.cut hcut' hrest trivial)
      | embedFile =>
          exact .inl ((takes_readStringArgument.map fun _ _ => Piece.within_embedFile).cut hcut'
            hrest trivial)
      | importBody =>
          exact .inl ((takes_readStringArgument.map fun _ _ => Piece.within_importBody).cut hcut'
            hrest trivial)
      | extendFile =>
          exact .inl ((takes_readStringArgument.map fun _ _ => Piece.within_extendFile).cut hcut'
            hrest trivial)

end SourceReader

/-! ## Sources -/

namespace Reading

open SourceReader

variable {tags : TagTable} {scope : Option Bytes}

/-- What is read of a source that breaks off: first pieces of the whole source, then some that
embed no file; and the only fault is that it breaks off. -/
structure CutFrom (cut whole : Reading) : Prop where
  pieces : ∃ front back, cut.pieces = front ++ back ∧ front <+: whole.pieces ∧
    ∀ name, .embedFile name ∉ back
  fault : ∀ e ∈ cut.fault, e.IsInterruption

theorem not_embed_literalPieces (text : Bytes) (name : String) :
    .embedFile name ∉ literalPieces text := by
  unfold literalPieces
  split <;> simp

/-- The pieces found before stay in front. -/
theorem found_in_front (found : List Piece) (c : Cursor) :
    found.reverse <+: (ofCursor tags scope found c).pieces := by
  rw [ofCursor_found]
  exact List.prefix_append _ _

/-- A source that ends in literal text ends in a piece of it. -/
theorem cutFrom_literal {found : List Piece} {c : Cursor} {whole : Reading}
    (htext : ∀ b ∈ c.rest, b ≠ Sign.pound ∧ b ≠ Opcode.stop)
    (hfound : found.reverse <+: whole.pieces) : (ofCursor tags scope found c).CutFrom whole := by
  have hread : ofCursor tags scope found c = ⟨found.reverse ++ literalPieces c.rest, none⟩ :=
    (Through.literal htext (by simp)).ofCursor_eq found rfl
  rw [hread]
  exact ⟨⟨_, _, rfl, hfound, not_embed_literalPieces c.rest⟩, nofun⟩

/-- A pound sign behind literal text is the beginning of a tag. -/
theorem ofCursor_pound (tags : TagTable) (scope : Option Bytes) (found : List Piece) {c : Cursor}
    {text rest : Bytes}
    (htext : ∀ b ∈ text, b ≠ Sign.pound ∧ b ≠ Opcode.stop)
    (hc : c.rest = text ++ Sign.pound :: rest) : ∃ c', c.Ahead c' ∧ c'.rest = rest ∧
      ofCursor tags scope found c =
        match readTag tags scope c' with
        | .error e _ => ⟨(literalPieces text ++ found).reverse, some e⟩
        | .ok piece d => ofCursor tags scope (piece :: (literalPieces text ++ found)) d := by
  have htake : c.rest.takeWhile (· != Sign.pound) = text := by
    rw [hc]
    exact takeWhile_ne_pound (fun b hb => (htext b hb).1) (by simp)
  have hplain : text.findIdx? (· == Opcode.stop) = none := by
    rw [List.findIdx?_eq_none_iff]
    exact fun b hb => beq_eq_false_iff_ne.2 (htext b hb).2
  have hnext : (c.forward text.length).rest = Sign.pound :: rest :=
    Cursor.rest_forward_of_append hc
  have htext : text.length ≤ c.rest.length := by
    rw [hc, List.length_append]
    exact Nat.le_add_right _ _
  refine ⟨(c.forward text.length).past hnext, ?_, rfl, ?_⟩
  · exact (Cursor.ahead_forward htext).trans (Cursor.ahead_past _ hnext)
  cases hread : readTag tags scope ((c.forward text.length).past hnext) with
  | error e d => exact Scope.ofCursor_error htake hplain hnext hread
  | ok piece d => exact Scope.ofCursor_tag htake hplain hnext hread

theorem readTag_nil (tags : TagTable) (scope : Option Bytes) {c : Cursor} (h : c.rest = []) :
    ∃ position c', readTag tags scope c = .error (.tagNotOpened position) c' := by
  have hname : readTagName c = .error (.tagNotOpened (c.forward 0).position) (c.forward 0) := by
    simp only [readTagName, h, List.takeWhile_nil, List.length_nil, List.drop_nil]
  exact ⟨_, _, Reader.bind_of_error hname⟩

theorem plain_of_blank {b : UInt8} (h : Bytes.isBlank b = true) :
    b ≠ Sign.pound ∧ b ≠ Opcode.stop := by
  constructor <;> rintro rfl <;> cases h

/-- Behind a piece that embeds no file, a source ends in blanks, or in blanks and a pound sign. -/
theorem cutFrom_blanks {found : List Piece} {last : Piece} {c : Cursor} {whole : Reading}
    (hlast : ∀ name, last ≠ .embedFile name)
    (hc : c.rest.dropWhile Bytes.isBlank <+: [Sign.pound])
    (hfound : found.reverse <+: whole.pieces) :
    (ofCursor tags scope (last :: found) c).CutFrom whole := by
  have hsplit := List.takeWhile_append_dropWhile (p := Bytes.isBlank) (l := c.rest)
  have hplain : ∀ b ∈ c.rest.takeWhile Bytes.isBlank, b ≠ Sign.pound ∧ b ≠ Opcode.stop :=
    fun b hb => plain_of_blank (List.all_eq_true.1 List.all_takeWhile b hb)
  have hback : ∀ name,
      .embedFile name ∉ last :: literalPieces (c.rest.takeWhile Bytes.isBlank) := by
    intro name hmem
    rcases List.mem_cons.1 hmem with rfl | hmem
    · exact hlast name rfl
    · exact not_embed_literalPieces _ name hmem
  rcases List.prefix_cons_iff.1 hc with hnil | ⟨_, hpound, hnil⟩
  · rw [hnil, List.append_nil] at hsplit
    rw [(Through.literal hplain (by simp)).ofCursor_eq (last :: found) hsplit.symm]
    refine ⟨⟨found.reverse, _, ?_, hfound, hback⟩, nofun⟩
    rw [List.reverse_cons, List.append_assoc, List.singleton_append]
  · obtain rfl := List.prefix_nil.1 hnil
    rw [hpound] at hsplit
    obtain ⟨c', -, hend, hread⟩ := ofCursor_pound tags scope (last :: found) hplain hsplit.symm
    obtain ⟨position, d, herror⟩ := readTag_nil tags scope hend
    rw [hread, herror]
    refine ⟨⟨found.reverse, _, ?_, hfound, hback⟩, ?_⟩
    · rw [List.reverse_append, reverse_literalPieces, List.reverse_cons, List.append_assoc,
        List.singleton_append]
    · rintro _ ⟨⟩
      exact .notOpened position

/-- Where a part of a tag lies ahead, and of what follows it, the tag is read and reading goes on,
or the source ends here. -/
theorem cutFrom_tag {found : List Piece} {c c' d : Cursor} {more : Bytes} {piece : Piece}
    {whole : Reading} (hread : readTag tags scope c = .ok piece c') (hcut : c.rest = d.rest ++ more)
    (hfound : found.reverse <+: whole.pieces) (hnext : ∀ d' : Cursor, c'.rest = d'.rest ++ more →
      (ofCursor tags scope (piece :: found) d').CutFrom whole) :
    CutFrom (match readTag tags scope d with
      | .error e _ => ⟨found.reverse, some e⟩
      | .ok piece d' => ofCursor tags scope (piece :: found) d') whole := by
  cases htag : readTag tags scope d with
  | error e d' =>
      refine ⟨⟨_, [], (List.append_nil _).symm, hfound, nofun⟩, ?_⟩
      rintro _ ⟨⟩
      exact (breaks_readTag tags scope).error hcut hread htag
  | ok piece' d' =>
      rcases readTag_of_cut hcut htag with ⟨c₁, hread₁, hrest₁⟩ | ⟨hlast, hblanks⟩
      · cases hread.symm.trans hread₁
        exact hnext d' hrest₁
      · exact cutFrom_blanks hlast hblanks hfound

/-- What is read of a part of a source, if the whole source is read without a fault. -/
theorem cutFrom_ofCursor {found : List Piece} {c : Cursor} {more : Bytes}
    (hsound : (ofCursor tags scope found c).fault = none) : ∀ d : Cursor,
      c.rest = d.rest ++ more →
        (ofCursor tags scope found d).CutFrom (ofCursor tags scope found c) := by
  fun_induction ofCursor tags scope found c with
  | case1 => cases hsound
  | case2 found c text hplain _ hend =>
      intro d hcut
      have hrest := rest_eq_append c
      rw [hend, List.append_nil] at hrest
      refine cutFrom_literal (fun b hb => mem_takeWhile_ne_pound hplain b ?_) ?_
      · rw [← hrest, hcut]
        exact List.mem_append_left more hb
      · show found.reverse <+: (literalPieces text ++ found).reverse
        rw [List.reverse_append]
        exact List.prefix_append _ _
  | case3 => cases hsound
  | case4 found c text hplain _ b bs hnext piece c' hread ih =>
      intro d hcut
      have hpieces : (literalPieces text ++ found).reverse <+:
          (ofCursor tags scope (piece :: (literalPieces text ++ found)) c').pieces := by
        refine List.IsPrefix.trans ?_ (found_in_front _ c')
        rw [List.reverse_cons]
        exact List.prefix_append _ _
      have hliteral : d.rest <+: text → (ofCursor tags scope found d).CutFrom
          (ofCursor tags scope (piece :: (literalPieces text ++ found)) c') := by
        intro hd
        refine cutFrom_literal (fun b hb => mem_takeWhile_ne_pound hplain b (hd.subset hb)) ?_
        refine List.IsPrefix.trans ?_ hpieces
        rw [List.reverse_append]
        exact List.prefix_append _ _
      have hpound : b = Sign.pound := head?_rest_forward c b (by rw [hnext]; rfl)
      have hrest : d.rest ++ more = text ++ Sign.pound :: bs := by
        rw [← hcut, ← hpound, ← hnext]
        exact rest_eq_append c
      rcases List.append_eq_append_iff.1 hrest with ⟨left, htext, -⟩ | ⟨right, hd, hmore⟩
      · exact hliteral ⟨left, htext.symm⟩
      · cases right with
        | nil =>
            rw [List.append_nil] at hd
            exact hliteral (hd ▸ List.prefix_rfl)
        | cons b' right =>
            -- The pound sign of the tag is there, and `right` is what is left of the tag.
            obtain ⟨rfl, hright⟩ := List.cons.inj hmore
            obtain ⟨d', -, hd', hread'⟩ :=
              ofCursor_pound tags scope found (mem_takeWhile_ne_pound hplain) hd
            rw [hread']
            exact cutFrom_tag hread (hd' ▸ hright) hpieces (ih hsound)

theorem cutFrom_ofBytes {cut more : Bytes}
    (hsound : (ofBytes tags scope (cut ++ more)).fault = none) :
    (ofBytes tags scope cut).CutFrom (ofBytes tags scope (cut ++ more)) :=
  cutFrom_ofCursor hsound (.ofBytes cut) rfl

end Reading

end Stencil
