/-
# `Stencil.Proofs.Chain` — the text of a chain of conditions

A chain of conditions is written as clauses, one behind the other, with blanks between them
and in front of each body:

    #if(path) {body}  ##if(path) {body}  …  ##else() {body}

`Chain` holds such a text by its parts, and the parts carry what makes them readable: a path
is one argument of a tag and has segments, the braces of a body are balanced, blanks are
blank.  So every chain is read, under every scope, as the conditions and bodies that it was
written from; the blanks behind its last clause are not part of it.

    c at chain.text ++ after   ⟹   its tag is read as its branches,
                                     and the cursor stands at `after`         (`Chain.readTag_text`)

The reader looks ahead for one more clause each time, and has to stand where it stood if
there is none.  So the induction on the clauses carries the branches that have been read, and
only its end looks at the text behind the chain.
-/
import Mathlib.Data.List.TakeWhile
import Stencil.Proofs.Advancing
import Stencil.Proofs.Exporting

namespace Stencil

/-! ## Paths as arguments -/

namespace Argument

theorem isBlank_of_isPathChar {c : Char} (h : isPathChar c = true) : isBlank c = false := by
  rw [Bool.eq_false_iff]
  intro hblank
  have hspace : CharClass.isSpace c = true := by
    simp only [isBlank, Bool.or_eq_true, beq_iff_eq] at hblank
    rcases hblank with (((rfl | rfl) | rfl) | rfl) | rfl <;> decide
  simp [isPathChar, hspace] at h

/-- A path goes on until a character that cannot stand in one. -/
theorem readLexeme_path {c : Char} {cs rest : List Char}
    (h : ∀ d ∈ c :: cs, isPathChar d = true) (hrest : ∀ d ∈ rest.head?, isPathChar d = false) :
    readLexeme c (cs ++ rest) = some (⟨.path, c :: cs⟩, rest) := by
  have hc : isPathChar c = true := h c List.mem_cons_self
  have hcs : ∀ d ∈ cs, isPathChar d = true := fun d hd => h d (List.mem_cons_of_mem _ hd)
  have hquote : c ≠ '"' := by rintro rfl; exact absurd hc (by decide)
  have hcomma : c ≠ ',' := by rintro rfl; exact absurd hc (by decide)
  have htake : (cs ++ rest).takeWhile isPathChar = cs := by
    rw [List.takeWhile_append_of_pos hcs]
    cases rest with
    | nil => rw [List.takeWhile_nil, List.append_nil]
    | cons d ds => rw [List.takeWhile_cons, hrest d rfl, if_neg Bool.false_ne_true, List.append_nil]
  have hdrop : (cs ++ rest).dropWhile isPathChar = rest := by
    rw [List.dropWhile_append_of_pos hcs]
    cases rest with
    | nil => rfl
    | cons d ds => rw [List.dropWhile_cons, hrest d rfl, if_neg Bool.false_ne_true]
  rw [readLexeme, if_neg hquote, if_neg hcomma, if_pos hc, htake, hdrop]

/-- A string goes on until the next quote. -/
theorem readLexeme_string {cs : List Char} (h : '"' ∉ cs) (rest : List Char) :
    readLexeme '"' (cs ++ '"' :: rest) = some (⟨.string, '"' :: cs ++ ['"']⟩, rest) := by
  have hplain : ∀ c ∈ cs, (c != '"') = true := by
    intro c hc
    exact bne_iff_ne.2 fun heq => h (heq ▸ hc)
  rw [readLexeme, if_pos rfl, List.dropWhile_append_of_pos hplain,
    List.takeWhile_append_of_pos hplain]
  simp

section ReadFrom

variable {found found' : List Argument} {progress progress' : Progress} {place : Place} {c : Char}
  {cs rest : List Char} {lexeme : Lexeme}

theorem readFrom_blank (h : isBlank c = true) :
    readFrom found progress place (c :: cs) = readFrom found progress (place.advance [c]) cs := by
  rw [readFrom, if_pos h]

/-- A lexeme that may stand there is taken. -/
theorem readFrom_lexeme (hblank : isBlank c = false)
    (hread : readLexeme c cs = some (lexeme, rest))
    (htake : take? found progress lexeme place = some (found', progress')) :
    readFrom found progress place (c :: cs) =
      readFrom found' progress' (place.advance lexeme.text) rest := by
  rw [readFrom, if_neg (hblank ▸ Bool.false_ne_true)]
  split
  next hnone => cases hnone.symm.trans hread
  next hsome =>
    cases hsome.symm.trans hread
    simp only [htake]

/-- An argument may be the last lexeme. -/
theorem readFrom_nil (found : List Argument) (place : Place) :
    readFrom found .afterArgument place [] = .ok found.reverse := by
  rw [readFrom]
  rintro _ ⟨⟩

end ReadFrom

section ReadAll

variable {path : String}

/-- A path at the front of a text is the first argument. -/
theorem readAll_path_append (hne : path.toList ≠ [])
    (h : ∀ c ∈ path.toList, isPathChar c = true) {rest : String}
    (hrest : ∀ c ∈ rest.toList.head?, isPathChar c = false) :
    readAll (path ++ rest) = readFrom [⟨.path, Utf8.encode path⟩] .afterArgument
      (Place.start.advance path.toList) rest.toList := by
  obtain ⟨c, cs, hpath⟩ := List.exists_cons_of_ne_nil hne
  have hwhole : String.ofList (c :: cs) = path := by rw [← hpath, String.ofList_toList]
  have hblank := isBlank_of_isPathChar (h c (hpath ▸ List.mem_cons_self))
  rw [readAll, String.toList_append, hpath, List.cons_append,
    readFrom_lexeme hblank (readLexeme_path (hpath ▸ h) hrest) rfl, hwhole]

/-- A path is read as one argument. -/
theorem readAll_path (hne : path.toList ≠ []) (h : ∀ c ∈ path.toList, isPathChar c = true) :
    readAll path = .ok [⟨.path, Utf8.encode path⟩] := by
  have hend : ∀ c ∈ "".toList.head?, isPathChar c = false := nofun
  have hread := readAll_path_append hne h hend
  rwa [String.append_empty, show "".toList = [] from rfl, readFrom_nil] at hread

/-- A path, a comma and a string are read as two arguments. -/
theorem readAll_path_string (hne : path.toList ≠ [])
    (h : ∀ c ∈ path.toList, isPathChar c = true) {name : String} (hname : '"' ∉ name.toList) :
    readAll (path ++ (", \"" ++ name ++ "\"")) =
      .ok [⟨.path, Utf8.encode path⟩, ⟨.string, Utf8.encode name⟩] := by
  have hrest : (", \"" ++ name ++ "\"").toList = ',' :: ' ' :: '"' :: (name.toList ++ ['"']) := by
    simp
  have hvalue : String.ofList (('"' :: name.toList ++ ['"']).drop 1).dropLast = name := by
    simp
  rw [readAll_path_append hne h (by rw [hrest]; rintro _ ⟨⟩; decide), hrest,
    readFrom_lexeme (by decide) rfl rfl, readFrom_blank (by decide),
    readFrom_lexeme (by decide) (readLexeme_string hname []) rfl, readFrom_nil, hvalue]
  rfl

end ReadAll

end Argument

/-! ## The parts of a chain -/

open SourceReader

/-- Blanks between the parts of a tag. -/
structure Blanks where
  bytes : Bytes
  blank : ∀ b ∈ bytes, Bytes.isBlank b = true

/-- A body in its braces, with blanks in front of them. -/
structure BracedBody where
  blanks : Blanks
  source : Bytes
  balanced : Balanced source

/-- A path that can stand between parentheses as it is, and its segments. -/
structure PlainPath where
  text : String
  plain : ∀ c ∈ text.toList, Argument.isPathChar c = true
  segments : List String
  parsed : Path.parse (Utf8.encode text) = .ok segments

/-- A condition and the body that it decides about. -/
structure Guard where
  path : String
  plain : ∀ c ∈ path.toList, Argument.isPathChar c = true
  segments : List String
  parsed : Path.parse (Utf8.encode path) = .ok segments
  body : BracedBody

/-- A chain of conditions: the first clause, more of them with the blanks in front of each,
and the body of an `else` if there is one. -/
structure Chain where
  first : Guard
  more : List (Blanks × Guard)
  otherwise : Option (Blanks × BracedBody)

namespace PlainPath

/-- The path as a scope. -/
def scope (p : PlainPath) : Scope := ⟨Utf8.encode p.text, p.segments, p.parsed⟩

/-- The path as it is seen within a scope. -/
def within (scope : Option Scope) (p : PlainPath) : List String :=
  match scope with
  | none => p.segments
  | some outer => outer.bind p.segments

theorem parseScoped_text (scope : Option Scope) (p : PlainPath) :
    parseScoped (scope.map Scope.path) (Utf8.encode p.text) = .ok (p.within scope) := by
  cases scope with
  | none => exact p.parsed
  | some outer => exact (parse_scopedPath outer.parsed _).2 ⟨p.segments, p.parsed, rfl⟩

theorem encode_ne_nil (p : PlainPath) : Utf8.encode p.text ≠ [] := by
  intro hnil
  have hparsed := p.parsed
  rw [hnil] at hparsed
  cases hparsed

theorem toList_ne_nil (p : PlainPath) : p.text.toList ≠ [] := by
  intro hnil
  refine p.encode_ne_nil ?_
  rw [Utf8.encode, hnil]
  rfl

theorem parseArguments_text (tag : String) (p : PlainPath) :
    parseArguments tag (Utf8.encode p.text) = .ok [⟨.path, Utf8.encode p.text⟩] := by
  rw [parseArguments, decodeText_encode]
  show (Argument.readAll p.text).mapError (CompileError.badArguments tag) = _
  rw [Argument.readAll_path p.toList_ne_nil p.plain]
  rfl

/-- A byte that is no character of a path does not stand in one. -/
theorem not_mem (p : PlainPath) {b : UInt8} (hb : b < 0x80)
    (hchar : Argument.isPathChar (Char.ofNat b.toNat) = false) : b ∉ Utf8.encode p.text := by
  intro hmem
  have hplain := p.plain _ (Utf8.ofNat_mem_of_mem_encode hmem hb)
  exact Bool.false_ne_true (hchar.symm.trans hplain)

/-- What closes the arguments, or stands around a string, is no character of a path. -/
theorem delimiters_not_mem (p : PlainPath) :
    ∀ b ∈ Utf8.encode p.text, b ≠ Sign.parenClose ∧ b ≠ Sign.quote := by
  intro b hb
  constructor <;> rintro rfl <;> exact p.not_mem (by decide) (by decide) hb

end PlainPath

namespace BracedBody

/-- `{source}`. -/
def text (body : BracedBody) : Bytes :=
  body.blanks.bytes ++ Sign.braceOpen :: (body.source ++ [Sign.braceClose])

/-- `else() {source}`. -/
def elseText (body : BracedBody) : Bytes :=
  Utf8.encode "else" ++ [Sign.parenOpen] ++ ([Sign.parenClose] ++ body.text)

theorem gives_readBody (body : BracedBody) (after : Bytes) :
    Gives (readBody true) body.text after body.source :=
  SourceReader.gives_readBody body.blanks.blank after (body.balanced.closingIndex? after)

end BracedBody

namespace Guard

/-- `if(path) {source}`. -/
def text (guard : Guard) : Bytes :=
  Utf8.encode "if" ++ [Sign.parenOpen] ++
    (Utf8.encode guard.path ++ [Sign.parenClose] ++ guard.body.text)

/-- The condition as it is seen within a scope. -/
def condition (scope : Option Scope) (guard : Guard) : List String :=
  match scope with
  | none => guard.segments
  | some p => p.bind guard.segments

/-- The condition within a scope, and the source of the body. -/
def branch (scope : Option Scope) (guard : Guard) : List String × Bytes :=
  (guard.condition scope, guard.body.source)

/-- The path of the condition. -/
def plainPath (guard : Guard) : PlainPath :=
  ⟨guard.path, guard.plain, guard.segments, guard.parsed⟩

theorem parseScoped_path (scope : Option Scope) (guard : Guard) :
    parseScoped (scope.map Scope.path) (Utf8.encode guard.path) = .ok (guard.condition scope) :=
  guard.plainPath.parseScoped_text scope

theorem gives_readGuarded (scope : Option Scope) (guard : Guard) (after : Bytes) :
    Gives (readGuarded (scope.map Scope.path))
      (Utf8.encode guard.path ++ [Sign.parenClose] ++ guard.body.text) after
      (guard.branch scope) := by
  refine (gives_readArgumentsOf (gives_readArguments guard.plainPath.delimiters_not_mem _)
    (guard.plainPath.parseArguments_text "if")).bind ?_
  show Gives (checked (parseScoped _ (Utf8.encode guard.path)) >>= _) _ after _
  rw [checked_bind (guard.parseScoped_path scope)]
  exact (guard.body.gives_readBody after).bind_nil .pure

end Guard

namespace Chain

/-- Blanks, and then a further clause. -/
def clauseText (clause : Blanks × Guard) : Bytes :=
  clause.1.bytes ++ clauseSign ++ clause.2.text

/-- Blanks, and then `##else() {source}`. -/
def elseText (clause : Blanks × BracedBody) : Bytes :=
  clause.1.bytes ++ clauseSign ++ clause.2.elseText

/-- What is written behind the first clause. -/
def moreText (more : List (Blanks × Guard)) (otherwise : Option (Blanks × BracedBody)) : Bytes :=
  more.flatMap clauseText ++ otherwise.elim [] elseText

/-- `#if(path) {source} ##if(path) {source} … ##else() {source}`. -/
def text (chain : Chain) : Bytes :=
  Sign.pound :: (chain.first.text ++ moreText chain.more chain.otherwise)

/-- The conditions within a scope, and the sources of their bodies. -/
def branches (scope : Option Scope) (chain : Chain) : List (List String × Bytes) :=
  chain.first.branch scope :: chain.more.map fun clause => clause.2.branch scope

theorem exists_guard {scope : Option Scope} {chain : Chain} {branch : List String × Bytes}
    (h : branch ∈ chain.branches scope) : ∃ guard : Guard, branch = guard.branch scope := by
  rcases List.mem_cons.1 h with rfl | hmore
  · exact ⟨chain.first, rfl⟩
  · obtain ⟨clause, -, rfl⟩ := List.mem_map.1 hmore
    exact ⟨clause.2, rfl⟩

/-- The source of the `else`. -/
def elseSource (chain : Chain) : Option Bytes :=
  chain.otherwise.map fun clause => clause.2.source

/-- What a chain is read as. -/
def piece (scope : Option Scope) (chain : Chain) : Piece :=
  .conditional (chain.branches scope) chain.elseSource

/-! ## Reading it -/

theorem readTagName_plain {name : Bytes} (h : name = Utf8.encode "if" ∨ name = Utf8.encode "else") :
    ∀ b ∈ name, Bytes.isBlank b = false ∧ b ≠ Sign.parenOpen := by
  rcases h with rfl | rfl <;> decide +kernel

theorem gives_readClause (scope : Option Scope) (guard : Guard) (after : Bytes) :
    Gives (readClause (scope.map Scope.path)) guard.text after
      (.elseIf (guard.branch scope).1 (guard.branch scope).2) := by
  refine (gives_readTagName (readTagName_plain (.inl rfl)) _).bind ?_
  rw [if_pos rfl]
  exact (guard.gives_readGuarded scope after).bind_nil .pure

theorem gives_readClause_else (scope : Option Bytes) (body : BracedBody) (after : Bytes) :
    Gives (readClause scope) body.elseText after (.otherwise body.source) := by
  have hname : Utf8.encode "else" ≠ Utf8.encode "if" := by decide +kernel
  have hraw : ∀ b ∈ ([] : Bytes), b ≠ Sign.parenClose ∧ b ≠ Sign.quote := nofun
  have harguments : parseArguments "else" [] = .ok [] := by decide +kernel
  refine (gives_readTagName (readTagName_plain (.inr rfl)) _).bind ?_
  rw [if_neg hname, if_pos rfl]
  refine (gives_readArgumentsOf (gives_readArguments hraw _) harguments).bind ?_
  exact (body.gives_readBody after).bind_nil .pure

variable {after : Bytes}

/-- Behind the branches found, further clauses are read as branches, to the `else` or to text
that begins no clause. -/
theorem gives_readClauses (hafter : ¬ clauseSign <+: after.dropWhile Bytes.isBlank)
    (scope : Option Scope) (otherwise : Option (Blanks × BracedBody))
    (found : List (List String × Bytes)) (more : List (Blanks × Guard)) :
    Gives (readClauses (scope.map Scope.path) found) (moreText more otherwise) after
      (.conditional (found.reverse ++ more.map fun clause => clause.2.branch scope)
        (otherwise.map fun clause => clause.2.source)) := by
  induction more generalizing found with
  | nil =>
      rw [List.map_nil, List.append_nil]
      cases otherwise with
      | none => exact gives_readClauses_none hafter
      | some clause =>
          have hclause : Gives (readClause (scope.map Scope.path)) clause.2.elseText after
              (.otherwise clause.2.source) := gives_readClause_else _ clause.2 after
          show Gives _ (elseText clause) after _
          rw [← List.append_nil (elseText clause)]
          exact gives_readClauses_clause clause.1.blank hclause .pure
  | cons clause more ih =>
      have htext : moreText (clause :: more) otherwise =
          clauseText clause ++ moreText more otherwise := by
        rw [moreText, List.flatMap_cons, List.append_assoc]
        rfl
      have hmore := ih (clause.2.branch scope :: found)
      rw [List.reverse_cons, List.append_assoc, List.singleton_append] at hmore
      rw [htext, List.map_cons]
      exact gives_readClauses_clause clause.1.blank (gives_readClause scope clause.2 _) hmore

/-- A chain is read as its branches, up to the text behind it. -/
theorem gives_readTag_text (hafter : ¬ clauseSign <+: after.dropWhile Bytes.isBlank)
    {tags : TagTable} (htag : tags.find? (Utf8.encode "if") = some .branch) (scope : Option Scope)
    (chain : Chain) :
    Gives (readTag tags (scope.map Scope.path))
      (chain.first.text ++ moreText chain.more chain.otherwise) after (chain.piece scope) := by
  have hbranch : Gives (readTagRest (scope.map Scope.path) .branch)
      (Utf8.encode chain.first.path ++ [Sign.parenClose] ++ chain.first.body.text ++
        moreText chain.more chain.otherwise) after (chain.piece scope) :=
    (chain.first.gives_readGuarded scope _).bind
      (gives_readClauses hafter scope chain.otherwise [chain.first.branch scope] chain.more)
  have hread := gives_readTag .branch (readTagName_plain (.inl rfl)) htag hbranch
  intro c hc
  exact hread c (by rw [hc]; simp [Guard.text])

/-- So the cursor that stands at it moves over its text. -/
theorem readTag_text (hafter : ¬ clauseSign <+: after.dropWhile Bytes.isBlank) {tags : TagTable}
    (htag : tags.find? (Utf8.encode "if") = some .branch) (scope : Option Scope) (chain : Chain)
    {c : Cursor} (hc : c.rest = chain.text ++ after) :
    readTag tags (scope.map Scope.path) (c.forward 1) =
      .ok (chain.piece scope) (c.forward chain.text.length) := by
  have hread := gives_readTag_text hafter htag scope chain
  have hpound : (c.forward 1).rest = c.rest.drop 1 := rfl
  have hexact := hread.exact (advances_readTag tags _) (c := c.forward 1) (by
    rw [hpound, hc]
    rfl)
  rw [hexact, c.forward_forward, text, List.length_cons, Nat.add_comm]

end Chain

end Stencil
