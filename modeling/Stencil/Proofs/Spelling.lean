/-
# `Stencil.Proofs.Spelling` — how the arguments of a tag are spelled

Between the parentheses of a tag stand arguments, with blanks around each of them and commas
between them, or blanks alone:

    W                              no arguments
    W a₁ W , W a₂ W , … , W aₖ W   the arguments a₁, a₂, …, aₖ

`Spelled` says so about characters, without a reader.  The reader of lexemes agrees with it,
and the argument list it gives is the one that is spelled; so there is only one.

| the reader stands | what may be left of the text |
| :-- | :-- |
| at the start | what spells arguments, be it none |
| behind a comma | what spells one argument or more |
| behind an argument | blanks, and then a comma with one argument or more behind it, or nothing |

The induction on the reader keeps to this table (`Argument.Remains`), and its converse is one
on the arguments.

Where the parentheses end is decided before the characters are looked at, on the bytes and by
the quotes alone (`SourceReader.readArguments`).  It is decided alike: what spells arguments
holds no parenthesis outside its strings, and every string in it ends.

**Proved here**, for every tag and every byte string:

    it is read as arguments exactly if it spells them, and else it is no text
      or the fault is one of arguments, and where it spells them and a
      parenthesis follows, that is where they end     (`SourceReader.parseArguments_spelled`)
-/
import Stencil.Proofs.Advancing
import Stencil.Proofs.Chain

namespace Stencil

namespace Argument

/-! ## The grammar -/

/-- A run of blanks, be it empty. -/
def BlankRun (cs : List Char) : Prop := ∀ c ∈ cs, isBlank c = true

/-- How an argument is written: a string in its quotes, a path as it is. -/
inductive Written : Argument → List Char → Prop where
  | string {cs : List Char} (h : '"' ∉ cs) :
      Written ⟨.string, Utf8.encode (String.ofList cs)⟩ ('"' :: cs ++ ['"'])
  | path {cs : List Char} (hne : cs ≠ []) (h : ∀ c ∈ cs, isPathChar c = true) :
      Written ⟨.path, Utf8.encode (String.ofList cs)⟩ cs

/-- An argument with blanks around it. -/
inductive Padded : Argument → List Char → Prop where
  | intro {a : Argument} {before cs after : List Char} (hbefore : BlankRun before)
      (hwritten : Written a cs) (hafter : BlankRun after) : Padded a (before ++ cs ++ after)

/-- One argument or more, with commas between them. -/
inductive Separated : List Argument → List Char → Prop where
  | last {a : Argument} {cs : List Char} (h : Padded a cs) : Separated [a] cs
  | cons {a : Argument} {arguments : List Argument} {cs rest : List Char} (h : Padded a cs)
      (hrest : Separated arguments rest) : Separated (a :: arguments) (cs ++ ',' :: rest)

/-- The text of any number of arguments. -/
inductive Spelled : List Argument → List Char → Prop where
  | none {cs : List Char} (h : BlankRun cs) : Spelled [] cs
  | some {arguments : List Argument} {cs : List Char} (h : Separated arguments cs) :
      Spelled arguments cs

theorem BlankRun.nil : BlankRun [] := List.forall_mem_nil _

theorem BlankRun.cons {c : Char} {cs : List Char} (hc : isBlank c = true) (h : BlankRun cs) :
    BlankRun (c :: cs) :=
  List.forall_mem_cons.2 ⟨hc, h⟩

theorem Padded.of_written {a : Argument} {cs after : List Char} (h : Written a cs)
    (hafter : BlankRun after) : Padded a (cs ++ after) :=
  @Padded.intro a [] cs after .nil h hafter

/-- More blanks may stand in front. -/
theorem Padded.blank {a : Argument} {c : Char} {cs : List Char} (hc : isBlank c = true)
    (h : Padded a cs) : Padded a (c :: cs) := by
  obtain ⟨hbefore, hwritten, hafter⟩ := h
  exact .intro (hbefore.cons hc) hwritten hafter

theorem Separated.blank {arguments : List Argument} {c : Char} {cs : List Char}
    (hc : isBlank c = true) (h : Separated arguments cs) : Separated arguments (c :: cs) := by
  cases h with
  | last h => exact .last (h.blank hc)
  | cons h hrest => exact .cons (h.blank hc) hrest

theorem Spelled.blankRun {cs : List Char} (h : Spelled [] cs) : BlankRun cs := by
  cases h with
  | none h => exact h
  | some h => cases h

/-- Where a path is the first argument, it stands behind the blanks in front. -/
theorem Spelled.exists_path {path : Bytes} {more : List Argument} {cs : List Char}
    (h : Spelled (⟨.path, path⟩ :: more) cs) :
    ∃ blanks name after, cs = blanks ++ name ++ after ∧ BlankRun blanks ∧
      path = Utf8.encode (String.ofList name) := by
  have hpadded : ∀ {cs}, Padded ⟨.path, path⟩ cs → ∃ blanks name after,
      cs = blanks ++ name ++ after ∧ BlankRun blanks ∧ path = Utf8.encode (String.ofList name) := by
    rintro _ ⟨hbefore, hwritten, -⟩
    cases hwritten with
    | path => exact ⟨_, _, _, rfl, hbefore, rfl⟩
  cases h with
  | some h =>
      cases h with
      | last h => exact hpadded h
      | @cons _ _ cs rest h _ =>
          obtain ⟨blanks, name, after, rfl, hblank, hpath⟩ := hpadded h
          exact ⟨blanks, name, after ++ ',' :: rest, by simp, hblank, hpath⟩

/-! ## What spells arguments is read -/

section Completeness

variable {found : List Argument} {progress : Progress} {place : Place} {a : Argument}
  {cs rest : List Char}

theorem not_isPathChar_of_isBlank {c : Char} (h : isBlank c = true) : isPathChar c = false := by
  rw [Bool.eq_false_iff]
  intro hpath
  rw [isBlank_of_isPathChar hpath] at h
  cases h

theorem readFrom_blankRun (h : BlankRun cs) :
    readFrom found progress place (cs ++ rest) =
      readFrom found progress (place.advance cs) rest := by
  induction cs generalizing place with
  | nil => rfl
  | cons c cs ih =>
      obtain ⟨hc, hcs⟩ := List.forall_mem_cons.1 h
      rw [List.cons_append, readFrom_blank hc, ih hcs]
      rfl

/-- The first lexeme of a text that begins with an argument is the argument: a string ends with
its quote, and a path where no character of a path follows. -/
theorem Written.readLexeme (h : Written a cs) (hrest : ∀ c ∈ rest.head?, isPathChar c = false) :
    ∃ c cs' lexeme, cs = c :: cs' ∧ isBlank c = false ∧
      readLexeme c (cs' ++ rest) = some (lexeme, rest) ∧ lexeme.text = cs ∧
      ofLexeme? lexeme = some a := by
  cases h with
  | @string cs h =>
      refine ⟨'"', cs ++ ['"'], ⟨.string, '"' :: cs ++ ['"']⟩, rfl, by decide, ?_, rfl, ?_⟩
      · rw [List.append_assoc]
        exact readLexeme_string h rest
      · simp [ofLexeme?]
  | @path cs hne h =>
      obtain ⟨c, cs', rfl⟩ := List.exists_cons_of_ne_nil hne
      have hblank := isBlank_of_isPathChar (h c List.mem_cons_self)
      exact ⟨c, cs', ⟨.path, c :: cs'⟩, rfl, hblank, readLexeme_path h hrest, rfl, rfl⟩

theorem readFrom_written (h : Written a cs) (hprogress : progress ≠ .afterArgument)
    (hrest : ∀ c ∈ rest.head?, isPathChar c = false) :
    readFrom found progress place (cs ++ rest) =
      readFrom (a :: found) .afterArgument (place.advance cs) rest := by
  obtain ⟨c, cs', lexeme, rfl, hblank, hread, htext, hlexeme⟩ := h.readLexeme hrest
  have htake : take? found progress lexeme place = some (a :: found, .afterArgument) := by
    cases progress with
    | afterArgument => exact absurd rfl hprogress
    | _ => simp only [take?, hlexeme]
  rw [List.cons_append, readFrom_lexeme hblank hread htake, htext]

/-- An argument is read with the blanks around it, if behind them no path goes on. -/
theorem readFrom_padded (h : Padded a cs) (hprogress : progress ≠ .afterArgument)
    (hrest : ∀ c ∈ rest.head?, isPathChar c = false) :
    readFrom found progress place (cs ++ rest) =
      readFrom (a :: found) .afterArgument (place.advance cs) rest := by
  cases h with
  | @intro before cs after hbefore hwritten hafter =>
      have hhead : ∀ c ∈ (after ++ rest).head?, isPathChar c = false := by
        cases after with
        | nil => exact hrest
        | cons c after =>
            rintro _ ⟨⟩
            exact not_isPathChar_of_isBlank (hafter c List.mem_cons_self)
      rw [List.append_assoc, List.append_assoc, readFrom_blankRun hbefore,
        readFrom_written hwritten hprogress hhead, readFrom_blankRun hafter]
      simp only [Place.advance, List.foldl_append]

theorem readFrom_comma :
    readFrom found .afterArgument place (',' :: rest) =
      readFrom found (.afterComma place) (place.advance [',']) rest :=
  readFrom_lexeme (by decide : isBlank ',' = false) rfl rfl

theorem readFrom_separated {arguments : List Argument} (h : Separated arguments cs)
    (hprogress : progress ≠ .afterArgument) :
    readFrom found progress place cs = .ok (found.reverse ++ arguments) := by
  induction h generalizing found progress place with
  | @last a cs h =>
      have hread : readFrom found progress place (cs ++ []) = _ := readFrom_padded h hprogress nofun
      rwa [List.append_nil, readFrom_nil, List.reverse_cons] at hread
  | @cons a arguments cs rest h _ ih =>
      have hcomma : ∀ c ∈ (',' :: rest).head?, isPathChar c = false := by
        rintro _ ⟨⟩
        decide
      have hbehind : Progress.afterComma (place.advance cs) ≠ .afterArgument := nofun
      rw [readFrom_padded h hprogress hcomma, readFrom_comma, ih hbehind, List.reverse_cons,
        List.append_assoc]
      rfl

theorem readAll_of_spelled {text : String} {arguments : List Argument}
    (h : Spelled arguments text.toList) : readAll text = .ok arguments := by
  cases h with
  | none h =>
      have hread : readFrom [] .atStart .start (text.toList ++ []) = _ := readFrom_blankRun h
      rw [List.append_nil] at hread
      rw [readAll, hread, readFrom]
      · rfl
      · rintro place ⟨⟩
  | some h =>
      have hstart : Progress.atStart ≠ .afterArgument := by
        rintro ⟨⟩
      exact readFrom_separated h hstart

end Completeness

/-! ## What is read spells arguments -/

/-- What may be left of a text, and the arguments that it spells, by how far a list of
arguments has been read. -/
def Remains : Progress → List Argument → List Char → Prop
  | .atStart, more, cs => Spelled more cs
  | .afterComma _, more, cs => Separated more cs
  | .afterArgument, more, cs => (more = [] ∧ BlankRun cs) ∨
      ∃ blanks rest, cs = blanks ++ ',' :: rest ∧ BlankRun blanks ∧ Separated more rest

section Soundness

variable {progress : Progress} {more : List Argument} {c : Char} {cs rest : List Char}

theorem Remains.blank (hc : isBlank c = true) (h : Remains progress more cs) :
    Remains progress more (c :: cs) := by
  cases progress with
  | atStart =>
      cases h with
      | none h => exact .none (h.cons hc)
      | some h => exact .some (h.blank hc)
  | afterComma place => exact Separated.blank hc h
  | afterArgument =>
      rcases h with ⟨hnone, h⟩ | ⟨blanks, rest, rfl, hblanks, hrest⟩
      · exact .inl ⟨hnone, h.cons hc⟩
      · exact .inr ⟨c :: blanks, rest, rfl, hblanks.cons hc, hrest⟩

/-- In front of what may be left behind an argument stands the argument. -/
theorem Written.separated {a : Argument} (h : Written a cs)
    (hmore : Remains .afterArgument more rest) : Separated (a :: more) (cs ++ rest) := by
  rcases hmore with ⟨rfl, hblanks⟩ | ⟨blanks, rest, rfl, hblanks, hrest⟩
  · exact .last (.of_written h hblanks)
  · rw [← List.append_assoc]
    exact .cons (.of_written h hblanks) hrest

/-- A lexeme stands at the front of the text that it is read from. -/
theorem readLexeme_eq_some {lexeme : Lexeme} (h : readLexeme c cs = some (lexeme, rest)) :
    c :: cs = lexeme.text ++ rest := by
  unfold readLexeme at h
  split at h
  · split at h
    · cases h
    · next hd =>
      cases h
      have hsplit := List.takeWhile_append_dropWhile (p := (· != '"')) (l := cs)
      rw [hd] at hsplit
      simp [hsplit]
  split at h
  · cases h
    rfl
  split at h
  · cases h
    simp [List.takeWhile_append_dropWhile]
  · cases h

theorem written_of_readLexeme {lexeme : Lexeme} {a : Argument}
    (hread : readLexeme c cs = some (lexeme, rest)) (ha : ofLexeme? lexeme = some a) :
    Written a lexeme.text := by
  unfold readLexeme at hread
  split at hread
  · next hquote =>
    subst hquote
    split at hread <;> cases hread
    next quote hdrop =>
    have hend : quote = '"' := by
      have hhead := List.head?_dropWhile_not (· != '"') cs
      rw [hdrop] at hhead
      simpa using hhead
    have hplain : '"' ∉ cs.takeWhile (· != '"') := by
      intro hmem
      simpa using List.all_eq_true.1 List.all_takeWhile _ hmem
    subst hend
    obtain rfl : a = ⟨.string, Utf8.encode (String.ofList (cs.takeWhile (· != '"')))⟩ := by
      simpa [ofLexeme?] using ha.symm
    exact .string hplain
  split at hread
  · cases hread
    cases ha
  split at hread <;> cases hread
  next hpath =>
  cases ha
  refine .path (List.cons_ne_nil _ _) (List.forall_mem_cons.2 ⟨hpath, ?_⟩)
  exact List.all_eq_true.1 List.all_takeWhile

/-- A lexeme that is no argument is a comma. -/
theorem text_of_ofLexeme?_none {lexeme : Lexeme} (hread : readLexeme c cs = some (lexeme, rest))
    (hnone : ofLexeme? lexeme = none) : lexeme.text = [','] := by
  unfold readLexeme at hread
  split at hread
  · split at hread <;> cases hread
    cases hnone
  split at hread
  · next hcomma =>
    cases hread
    rw [hcomma]
  split at hread <;> cases hread
  cases hnone

/-- A lexeme is taken where the table allows it, and what is left behind it is as the table
says. -/
theorem Remains.lexeme {found found' : List Argument} {progress' : Progress} {lexeme : Lexeme}
    {place : Place} (hread : readLexeme c cs = some (lexeme, rest))
    (htake : take? found progress lexeme place = some (found', progress'))
    (h : Remains progress' more rest) :
    ∃ more', found'.reverse ++ more = found.reverse ++ more' ∧
      Remains progress more' (c :: cs) := by
  rw [readLexeme_eq_some hread]
  cases hlexeme : ofLexeme? lexeme with
  | none =>
      cases progress <;> simp only [take?, hlexeme] at htake <;> cases htake
      rw [text_of_ofLexeme?_none hread hlexeme]
      exact ⟨more, rfl, .inr ⟨[], rest, rfl, .nil, h⟩⟩
  | some a =>
      have hwritten := written_of_readLexeme hread hlexeme
      cases progress <;> simp only [take?, hlexeme] at htake <;> cases htake
      · exact ⟨a :: more, by simp, .some (hwritten.separated h)⟩
      · exact ⟨a :: more, by simp, hwritten.separated h⟩

theorem remains_of_readFrom {found arguments : List Argument} {place : Place}
    (h : readFrom found progress place cs = .ok arguments) :
    ∃ more, arguments = found.reverse ++ more ∧ Remains progress more cs := by
  fun_induction readFrom found progress place cs with
  | case1 => cases h
  | case2 found progress place hprogress =>
      cases h
      refine ⟨[], (List.append_nil _).symm, ?_⟩
      cases progress with
      | atStart => exact .none .nil
      | afterArgument => exact .inl ⟨rfl, .nil⟩
      | afterComma place => exact absurd rfl (hprogress place)
  | case3 found progress place c cs hblank ih =>
      obtain ⟨more, hmore, hremains⟩ := ih h
      exact ⟨more, hmore, hremains.blank hblank⟩
  | case4 => cases h
  | case5 => cases h
  | case6 found progress place c cs _ lexeme rest hread found' progress' htake ih =>
      obtain ⟨more, rfl, hremains⟩ := ih h
      exact hremains.lexeme hread htake

end Soundness

/-- A text is read as arguments exactly if it spells them. -/
theorem readAll_eq_ok {text : String} {arguments : List Argument} :
    readAll text = .ok arguments ↔ Spelled arguments text.toList := by
  constructor
  · intro h
    obtain ⟨more, rfl, hremains⟩ := remains_of_readFrom h
    exact hremains
  · exact readAll_of_spelled

end Argument

/-! ## Where the parentheses end -/

namespace SourceReader

open Argument

/-- The bytes are read on over, whatever has been read before, and whatever follows. -/
def Passes (passed : Bytes) : Prop :=
  ∀ found more after raw : Bytes,
    Gives (readArgumentsFrom (passed.reverse ++ found)) more after raw →
      Gives (readArgumentsFrom found) (passed ++ more) after raw

theorem Passes.append {first second : Bytes} (hfirst : Passes first) (hsecond : Passes second) :
    Passes (first ++ second) := by
  intro found more after raw hmore
  rw [List.reverse_append, List.append_assoc] at hmore
  rw [List.append_assoc]
  exact hfirst _ _ _ _ (hsecond _ _ _ _ hmore)

theorem passes_plain {plain : Bytes} (h : ∀ b ∈ plain, b ≠ Sign.parenClose ∧ b ≠ Sign.quote) :
    Passes plain :=
  fun _ _ _ _ hmore => gives_readArgumentsFrom_plain h hmore

theorem passes_string {text : Bytes} (h : Sign.quote ∉ text) :
    Passes (Sign.quote :: text ++ [Sign.quote]) := by
  intro found more after raw hmore
  refine gives_readArgumentsFrom_string h ?_
  simpa [List.reverseAux_eq] using hmore

/-- Characters as bytes. -/
def bytesOf (cs : List Char) : Bytes := Utf8.encode (String.ofList cs)

theorem bytesOf_append (cs ds : List Char) : bytesOf (cs ++ ds) = bytesOf cs ++ bytesOf ds := by
  rw [bytesOf, String.ofList_append, Utf8.encode_append]
  rfl

theorem ofNat_mem_of_mem_bytesOf {cs : List Char} {b : UInt8} (h : b ∈ bytesOf cs)
    (hb : b < 0x80) : Char.ofNat b.toNat ∈ cs := by
  have hchar := Utf8.ofNat_mem_of_mem_encode h hb
  rwa [String.toList_ofList] at hchar

theorem passes_bytesOf {cs : List Char} (h : ∀ c ∈ cs, c ≠ ')' ∧ c ≠ '"') : Passes (bytesOf cs) := by
  refine passes_plain fun b hb => ⟨?_, ?_⟩ <;> rintro rfl
  · exact (h ')' (ofNat_mem_of_mem_bytesOf hb (by decide))).1 rfl
  · exact (h '"' (ofNat_mem_of_mem_bytesOf hb (by decide))).2 rfl

theorem passes_blankRun {cs : List Char} (h : BlankRun cs) : Passes (bytesOf cs) := by
  refine passes_bytesOf fun c hc => ⟨?_, ?_⟩ <;> rintro rfl <;> exact absurd (h _ hc) (by decide)

theorem passes_written {a : Argument} {cs : List Char} (h : Written a cs) : Passes (bytesOf cs) := by
  cases h with
  | @string cs h =>
      have hbytes : bytesOf ('"' :: cs ++ ['"']) = Sign.quote :: bytesOf cs ++ [Sign.quote] := by
        rw [bytesOf_append, ← List.singleton_append, bytesOf_append]
        rfl
      rw [hbytes]
      exact passes_string fun hmem => h (ofNat_mem_of_mem_bytesOf hmem (by decide))
  | path _ h =>
      refine passes_bytesOf fun c hc => ⟨?_, ?_⟩ <;> rintro rfl <;>
        exact absurd (h _ hc) (by decide)

theorem passes_padded {a : Argument} {cs : List Char} (h : Padded a cs) : Passes (bytesOf cs) := by
  obtain ⟨hbefore, hwritten, hafter⟩ := h
  rw [bytesOf_append, bytesOf_append]
  exact ((passes_blankRun hbefore).append (passes_written hwritten)).append (passes_blankRun hafter)

theorem passes_separated {arguments : List Argument} {cs : List Char}
    (h : Separated arguments cs) : Passes (bytesOf cs) := by
  induction h with
  | last h => exact passes_padded h
  | @cons a arguments cs rest h _ ih =>
      have hcomma : Passes (bytesOf [',']) :=
        passes_bytesOf (List.forall_mem_singleton.2 ⟨by decide, by decide⟩)
      rw [← List.singleton_append, bytesOf_append, bytesOf_append]
      exact (passes_padded h).append (hcomma.append ih)

/-- What spells arguments ends at the parenthesis behind it. -/
theorem gives_readArguments_spelled {arguments : List Argument} {cs : List Char}
    (h : Spelled arguments cs) (after : Bytes) :
    Gives readArguments (bytesOf cs ++ [Sign.parenClose]) after (bytesOf cs) := by
  have hpasses : Passes (bytesOf cs) := by
    cases h with
    | none h => exact passes_blankRun h
    | some h => exact passes_separated h
  refine hpasses [] _ _ _ ?_
  have hclose := gives_readArgumentsFrom_close ((bytesOf cs).reverse ++ []) after
  simpa using hclose

/-! ## The bytes between parentheses -/

theorem parseArguments_of_text {raw : Bytes} {text : String} (h : Utf8.encode text = raw)
    (tag : String) : parseArguments tag raw = (readAll text).mapError (.badArguments tag) := by
  subst h
  rw [parseArguments, decodeText_encode]
  rfl

/-- **The arguments of a tag are read by exactly their grammar.**  Bytes are read as arguments
if they are a text that spells these, and only then.  Otherwise they are no text, or the fault
is one of arguments.  Where a parenthesis closes them, they are what stands before it. -/
theorem parseArguments_spelled (tag : String) (raw : Bytes) :
    (∀ arguments, parseArguments tag raw = .ok arguments ↔
      ∃ text, Utf8.decode? raw = some text ∧ Spelled arguments text.toList) ∧
    (∀ e, parseArguments tag raw = .error e →
      (Utf8.decode? raw = none ∧ e = .malformedText raw) ∨
      ((∃ text, Utf8.decode? raw = some text) ∧ ∃ fault, e = .badArguments tag fault)) ∧
    (∀ arguments, parseArguments tag raw = .ok arguments → ∀ (rest : Bytes) (c : Cursor),
      c.rest = raw ++ Sign.parenClose :: rest →
        readArguments c = .ok raw (c.forward (raw.length + 1))) := by
  cases htext : Utf8.decode? raw with
  | none =>
      have hmalformed : parseArguments tag raw = .error (.malformedText raw) := by
        rw [parseArguments, decodeText, htext]
        rfl
      rw [hmalformed]
      refine ⟨fun arguments => ⟨?_, ?_⟩, ?_, ?_⟩
      · rintro ⟨⟩
      · rintro ⟨_, ⟨⟩, -⟩
      · rintro _ ⟨⟩
        exact .inl ⟨rfl, rfl⟩
      · rintro _ ⟨⟩
  | some text =>
      have hraw : Utf8.encode text = raw := Utf8.decode?_eq_some_iff.1 htext
      rw [parseArguments_of_text hraw]
      have hok : ∀ arguments, (readAll text).mapError (CompileError.badArguments tag) = .ok arguments ↔
          Spelled arguments text.toList := by
        intro arguments
        rw [mapError_eq_ok, readAll_eq_ok]
      refine ⟨fun arguments => ?_, fun e he => ?_, fun arguments h rest c hc => ?_⟩
      · rw [hok]
        exact ⟨fun h => ⟨text, rfl, h⟩, by rintro ⟨_, ⟨⟩, h⟩; exact h⟩
      · obtain ⟨fault, -, rfl⟩ := mapError_eq_error.1 he
        exact .inr ⟨⟨text, rfl⟩, fault, rfl⟩
      · have hgives := gives_readArguments_spelled ((hok arguments).1 h) rest
        have hbytes : bytesOf text.toList = raw := by rw [bytesOf, String.ofList_toList, hraw]
        rw [hbytes] at hgives
        have hexact := hgives.exact advances_readArguments (c := c) (by rw [hc]; simp)
        rwa [List.length_append] at hexact

/-- A string may hold what ends a path, and the parentheses. -/
example : parseArguments "loop" (Utf8.encode " xs ,\"a),b\" ") =
    .ok [⟨.path, Utf8.encode "xs"⟩, ⟨.string, Utf8.encode "a),b"⟩] := by
  decide +kernel

end SourceReader

end Stencil
