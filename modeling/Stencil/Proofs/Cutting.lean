/-
# `Stencil.Proofs.Cutting` — what the pieces of a source are cut from it as

The readers cut a source into bodies, arguments and literal text, without looking at
characters.  Each cut is made at a pound sign, a quote, a parenthesis, a brace or a blank.
So a property of texts that is kept by cutting at such bytes (`Cuttable`) is one of all
bodies and raw bytes in the pieces of a source that has it.  Whatever the source, names and
paths are checked where they are read, and zero bytes are found before they get into raw
bytes.

`Cuts T r P` says of a reader that what it leaves ahead has the property `T` if what it
begins with has it, and that its values have the property `P`.  There is one lemma for each
reader.  All that compilation does with the pieces is to carry their quality into blocks:

    blocks hold names, paths and raw bytes without a zero byte,
      and raw bytes are cut from the sources                     (`Compiler.carries_cut`)
-/
import Stencil.Proofs.Carrying
import Stencil.Proofs.Path
import Stencil.Proofs.Seam

namespace Stencil

open EStateM (Result)

/-- A property of texts that a text has before and behind each of its signs and blanks. -/
structure Cuttable (T : Bytes → Prop) : Prop where
  pound : T [Sign.pound]
  cut : ∀ {x y : Bytes} {b : UInt8}, T (x ++ b :: y) → b < 0x80 → T x ∧ T y

theorem Cuttable.any : Cuttable fun _ => True := ⟨trivial, fun _ _ => ⟨trivial, trivial⟩⟩

theorem Cuttable.behind {T : Bytes → Prop} (hT : Cuttable T) {b : UInt8} {y : Bytes}
    (h : T (b :: y)) (hb : b < 0x80) : T y :=
  (hT.cut (x := []) h hb).2

theorem Cuttable.dropWhile {T : Bytes → Prop} (hT : Cuttable T) {p : UInt8 → Bool}
    (hp : ∀ b, p b = true → b < 0x80) {bs : Bytes} (h : T bs) : T (bs.dropWhile p) := by
  induction bs with
  | nil => exact h
  | cons b bs ih =>
      cases hb : p b with
      | true =>
          rw [List.dropWhile_cons_of_pos hb]
          exact ih (hT.behind h (hp b hb))
      | false => rwa [List.dropWhile_cons_of_neg (by rw [hb]; exact Bool.false_ne_true)]

/-- What is cut from sources of the property, and what bytecode can hold. -/
def Quality.cut (T : Bytes → Prop) : Quality :=
  ⟨T, fun data => T data ∧ Opcode.stop ∉ data, IsName, Expr.WellFormed⟩

theorem stop_not_mem_of_findIdx? {data : Bytes} (h : data.findIdx? (· == Opcode.stop) = none) :
    Opcode.stop ∉ data := by
  intro hmem
  have := List.findIdx?_eq_none_iff.1 h _ hmem
  rw [beq_self_eq_true] at this
  cases this

/-! ## Readers -/

namespace SourceReader

/-- Where a text with the property lies ahead, the reader leaves one, and its values have a
property as well. -/
abbrev Cuts {α : Type} (T : Bytes → Prop) (r : SourceReader α) (P : α → Prop) : Prop :=
  Maintains (fun c : Cursor => T c.rest) r P

/-- The value does not matter. -/
abbrev Any {α : Type} (_a : α) : Prop := True

variable {α : Type} {T : Bytes → Prop} {P : α → Prop}

/-- A reader cuts texts as the bytes that it takes do. -/
theorem Takes.cuts {r : SourceReader α} {W : Bytes → α → Prop} {ahead : Bytes → Bytes → Prop}
    (hr : Takes r W ahead) (h : ∀ taken a after, W taken a → T (taken ++ after) → T after ∧ P a) :
    Cuts T r P := by
  intro c a c' hc hok
  obtain ⟨taken, hrest, hW, -⟩ := hr.ok hok
  exact h taken a c'.rest hW (hrest ▸ hc)

theorem cuts_get : Cuts T (get : SourceReader Cursor) Any := by
  rintro c _ c' hc ⟨⟩
  exact ⟨hc, trivial⟩

theorem cuts_checked {x : Except CompileError α} (h : ∀ a, x = .ok a → P a) :
    Cuts T (checked x) P := by
  cases x with
  | ok a => exact .pure (h a rfl)
  | error e => exact .throw e

/-- Where it does not matter what is given. -/
theorem cuts_given (x : Except CompileError α) : Cuts T (checked x) Any :=
  cuts_checked fun _ _ => trivial

theorem cuts_parseScoped (scope : Option Bytes) (path : Bytes) :
    Cuts T (checked (parseScoped scope path)) IsPath :=
  cuts_checked fun _ h => Path.isPath_of_parse h

/-- A name that a loop can bind is a name that bytecode can hold. -/
theorem isName_of_isUsableName {data : Bytes} {name : String} (h : isUsableName data = true)
    (hname : decodeText data = .ok name) : IsName name := by
  have hdata : Utf8.encode name = data := by
    unfold decodeText at hname
    split at hname
    next hd => cases hname; exact Utf8.decode?_eq_some_iff.1 hd
    next => cases hname
  subst hdata
  simp only [isUsableName, Bool.and_eq_true, Bool.not_eq_true', List.any_eq_false] at h
  obtain ⟨hne, hplain⟩ := h
  refine ⟨fun hnil => ?_, fun hstop => hplain _ hstop (by decide)⟩
  rw [hnil] at hne
  cases hne

theorem isBlank_lt {b : UInt8} (h : Bytes.isBlank b = true) : b < 0x80 := by
  simp only [Bytes.isBlank, Bool.or_eq_true, beq_iff_eq] at h
  rcases h with ((rfl | rfl) | rfl) | rfl <;> decide

section Cuttable

variable (hT : Cuttable T)
include hT

theorem cuts_skipBlanks : Cuts T skipBlanks Any := by
  rintro c _ c' hc ⟨⟩
  refine ⟨?_, trivial⟩
  show T c.skipBlanks.rest
  rw [rest_skipBlanks]
  exact hT.dropWhile (fun _ => isBlank_lt) hc

theorem cuts_expectByte {b : UInt8} (hb : b < 0x80) : Cuts T (expectByte b) Any := by
  refine (takes_expectByte b).cuts ?_
  rintro _ _ after rfl h
  exact ⟨hT.behind h hb, trivial⟩

theorem cuts_readTagString : Cuts T readTagString Any := by
  refine takes_readTagString.cuts ?_
  rintro _ text after rfl h
  rw [List.append_assoc] at h
  exact ⟨(hT.cut (b := Sign.quote) h (by decide)).2, trivial⟩

theorem cuts_closeTag : Cuts T closeTag Any := by
  refine takes_closeTag.cuts ?_
  rintro _ _ after rfl h
  exact ⟨hT.behind h (by decide), trivial⟩

theorem cuts_readTagName : Cuts T readTagName Any := by
  refine takes_readTagName.cuts ?_
  rintro _ name after rfl h
  rw [List.append_assoc] at h
  exact ⟨(hT.cut (b := Sign.parenOpen) h (by decide)).2, trivial⟩

theorem cuts_readArguments : Cuts T readArguments Any := by
  refine takes_readArguments.cuts ?_
  rintro _ raw after rfl h
  rw [List.append_assoc] at h
  exact ⟨(hT.cut (b := Sign.parenClose) h (by decide)).2, trivial⟩

/-- A body is what lies before the brace that closes it. -/
theorem cuts_readBodyEnd (counting : Bool) : Cuts T (readBodyEnd counting) T := by
  intro c body c' hc h
  unfold readBodyEnd at h
  split at h <;> cases h
  next n hn =>
    obtain ⟨body, rest, hbody, hlen, -⟩ := closingIndex?_eq_some hn
    obtain rfl : n = body.length := hlen.trans (Nat.zero_add _)
    rw [hbody] at hc
    obtain ⟨hfront, hrest⟩ := hT.cut hc (by decide)
    constructor
    · show T (c.forward (body.length + 1)).rest
      rw [Cursor.rest_forward_of_append_cons hbody]
      exact hrest
    · rw [hbody, List.take_left]
      exact hfront

theorem cuts_readBody (counting : Bool) : Cuts T (readBody counting) T := by
  refine .after (cuts_skipBlanks hT) fun _ => ?_
  exact .after (cuts_expectByte hT (by decide)) fun _ => cuts_readBodyEnd hT counting

theorem cuts_readStringArgument : Cuts T readStringArgument Any := by
  refine .after (cuts_readTagString hT) fun name => ?_
  exact .after (cuts_closeTag hT) fun _ => cuts_given _

theorem cuts_readArgumentsOf (tag : String) (kinds : List ArgumentKind) :
    Cuts T (readArgumentsOf tag kinds) Any := by
  refine .after (cuts_readArguments hT) fun raw => ?_
  refine .after (cuts_given _) fun arguments => ?_
  exact .after (cuts_given _) fun arguments => .pure trivial

/-! ### Tags -/

theorem cuts_readGuarded (scope : Option Bytes) :
    Cuts T (readGuarded scope) fun branch => IsPath branch.1 ∧ T branch.2 := by
  refine .after (cuts_readArgumentsOf hT _ _) fun values => ?_
  refine .bind (cuts_parseScoped scope _) ?_
  intro condition hcondition
  refine .bind (cuts_readBody hT true) ?_
  intro body hbody
  exact .pure ⟨hcondition, hbody⟩

/-- What a clause decides about, if it decides, and its body. -/
def Clause.Cut (T : Bytes → Prop) : Clause → Prop
  | .elseIf condition body => IsPath condition ∧ T body
  | .otherwise body => T body

theorem cuts_readClause (scope : Option Bytes) :
    Cuts T (readClause scope) (Clause.Cut T) := by
  refine .after (cuts_readTagName hT) fun name => ?_
  split
  · refine .bind (cuts_readGuarded hT scope) ?_
    intro branch hbranch
    exact .pure hbranch
  split
  · refine .after (cuts_readArgumentsOf hT _ _) fun _ => ?_
    refine .bind (cuts_readBody hT true) ?_
    intro body hbody
    exact .pure hbody
  · exact .throw _

/-- The sign of a clause is two bytes, and the text is cut behind both. -/
theorem cut_clauseAhead {c : Cursor} (h : T c.rest)
    (hahead : c.skipBlanks.startsWith clauseSign = true) :
    T (c.skipBlanks.forward clauseSign.length).rest := by
  rw [rest_of_clauseAhead hahead, List.append_assoc] at h
  obtain ⟨-, hsecond⟩ := hT.cut (b := Sign.pound) h (by decide)
  exact hT.behind (b := Sign.pound) hsecond (by decide)

theorem cuts_readClauses (scope : Option Bytes) {branches : List (List String × Bytes)}
    (h : ∀ branch ∈ branches, IsPath branch.1 ∧ T branch.2) :
    Cuts T (readClauses scope branches) (Quality.cut T).InPiece := by
  intro c piece c' hc hok
  have hbranches : ∀ {branches : List (List String × Bytes)},
      (∀ branch ∈ branches, IsPath branch.1 ∧ T branch.2) →
        ∀ branch ∈ branches.reverse, IsPath branch.1 ∧ T branch.2 :=
    fun h branch hb => h branch (List.mem_reverse.1 hb)
  fun_induction readClauses scope branches c with
  | case1 => cases hok
  | case2 branches c hahead condition body c₁ hread ih =>
      have hbehind := cut_clauseAhead hT hc hahead
      obtain ⟨hrest, hbranch⟩ := cuts_readClause hT scope _ _ _ hbehind hread
      exact ih (List.forall_mem_cons.2 ⟨hbranch, h⟩) hrest hok
  | case3 branches c hahead body c₁ hread =>
      cases hok
      have hbehind := cut_clauseAhead hT hc hahead
      obtain ⟨hrest, hbody⟩ := cuts_readClause hT scope _ _ _ hbehind hread
      refine ⟨hrest, hbranches h, ?_⟩
      rintro _ ⟨⟩
      exact hbody
  | case4 =>
      cases hok
      refine ⟨hc, hbranches h, ?_⟩
      intro body hbody
      cases hbody

/-- The path that is printed ends with a parenthesis. -/
theorem cuts_readPath (start : Nat) :
    Cuts T (fun c =>
      match readUntil (· == Sign.parenClose) true c with
      | .error _ c' => .error (.tagNotClosed start) c'
      | result => result) Any := by
  intro c path c' hc hok
  dsimp only at hok
  split at hok
  · cases hok
  · obtain ⟨b, hrest, hb, -⟩ := readUntil_eq_ok hok
    obtain rfl : b = Sign.parenClose := eq_of_beq hb
    rw [hrest] at hc
    exact ⟨(hT.cut hc (by decide)).2, trivial⟩

theorem cuts_readPrint (scope : Option Bytes) :
    Cuts T (readPrint scope) (Quality.cut T).InPiece := by
  refine .after cuts_get fun c => .after (cuts_readPath hT c.position) fun path => ?_
  split
  · exact .pure ⟨⟨hT.pound, by decide⟩, trivial⟩
  · refine .bind (cuts_parseScoped _ _) ?_
    intro segments hsegments
    refine .after cuts_get fun c => ?_
    split
    · refine .bind (cuts_readBody hT true) ?_
      intro body hbody
      exact .pure hbody
    · exact .pure ⟨hsegments, trivial⟩

theorem cuts_readLoop (scope : Option Bytes) :
    Cuts T (readLoop scope) (Quality.cut T).InPiece := by
  refine .after (cuts_readArgumentsOf hT _ _) fun values => ?_
  dsimp only
  split
  next husable =>
    refine .bind (cuts_readBody hT true) ?_
    intro body hbody
    refine .bind (cuts_parseScoped _ _) ?_
    intro iterable hiterable
    refine .bind (cuts_checked fun _ => isName_of_isUsableName husable) ?_
    intro name hname
    exact .pure ⟨hname, hiterable, hbody⟩
  next => exact .throw _

theorem cuts_readRaw (scope : Option Bytes) :
    Cuts T (readRaw scope) (Quality.cut T).InPiece := by
  refine .after (cuts_readArguments hT) fun raw => .after (cuts_given _) fun arguments => ?_
  split
  · refine .after cuts_get fun c => .bind (cuts_readBody hT false) ?_
    intro body hbody
    split
    · exact .throw _
    next hnone => exact .pure ⟨⟨hbody, stop_not_mem_of_findIdx? hnone⟩, trivial⟩
  · refine .after (cuts_given _) fun arguments => ?_
    refine .bind (cuts_parseScoped _ _) ?_
    intro segments hsegments
    exact .pure ⟨hsegments, trivial⟩

theorem cuts_readTagRest (scope : Option Bytes) (tag : Tag) :
    Cuts T (readTagRest scope tag) (Quality.cut T).InPiece := by
  cases tag with
  | print => exact cuts_readPrint hT scope
  | loop => exact cuts_readLoop hT scope
  | branch =>
      refine .bind (cuts_readGuarded hT scope) ?_
      intro first hfirst
      exact cuts_readClauses hT scope (List.forall_mem_singleton.2 hfirst)
  | raw => exact cuts_readRaw hT scope
  | exportBody =>
      refine .after (cuts_readStringArgument hT) fun name => .bind (cuts_readBody hT true) ?_
      intro body hbody
      exact .pure hbody
  | embedFile | importBody | extendFile =>
      exact .map ((cuts_readStringArgument hT).imp fun _ _ => trivial)

theorem cuts_readTag (tags : TagTable) (scope : Option Bytes) :
    Cuts T (readTag tags scope) (Quality.cut T).InPiece := by
  refine .after (cuts_readTagName hT) fun name => ?_
  split
  · exact cuts_readTagRest hT scope _
  · exact .throw _

end Cuttable

end SourceReader

/-! ## Sources -/

section Cuttable

variable {T : Bytes → Prop} (hT : Cuttable T)
include hT

namespace Reading

/-- A text is cut at its first pound sign. -/
theorem cut_beforePound {c : Cursor} (h : T c.rest) :
    T (c.rest.takeWhile (· != Sign.pound)) ∧
      ∀ b bs, (c.forward (c.rest.takeWhile (· != Sign.pound)).length).rest = b :: bs → T bs := by
  have hsplit := rest_eq_append c
  have hhead := head?_rest_forward c
  generalize c.rest.takeWhile (· != Sign.pound) = text at *
  cases hbehind : (c.forward text.length).rest with
  | nil =>
      rw [hbehind, List.append_nil] at hsplit
      exact ⟨hsplit ▸ h, nofun⟩
  | cons b bs =>
      obtain rfl : b = Sign.pound := hhead b (by rw [hbehind]; rfl)
      rw [hbehind] at hsplit
      rw [hsplit] at h
      obtain ⟨htext, hbs⟩ := hT.cut h (by decide)
      refine ⟨htext, ?_⟩
      rintro _ _ ⟨⟩
      exact hbs

/-- Every piece of a source is cut from it. -/
theorem cut_ofCursor (tags : TagTable) (scope : Option Bytes) {found : List Piece} {c : Cursor}
    (h : ∀ piece ∈ found, (Quality.cut T).InPiece piece) (hc : T c.rest) :
    ∀ piece ∈ (ofCursor tags scope found c).pieces, (Quality.cut T).InPiece piece := by
  have hliteral : ∀ {text : Bytes} {found : List Piece}, T text →
      text.findIdx? (· == Opcode.stop) = none → (∀ piece ∈ found, (Quality.cut T).InPiece piece) →
        ∀ piece ∈ literalPieces text ++ found, (Quality.cut T).InPiece piece := by
    intro text found htext hplain h
    refine List.forall_mem_append.2 ⟨?_, h⟩
    unfold literalPieces
    split
    · exact nofun
    · exact List.forall_mem_singleton.2 ⟨⟨htext, stop_not_mem_of_findIdx? hplain⟩, trivial⟩
  fun_induction ofCursor tags scope found c with
  | case1 => exact fun piece hp => h piece (List.mem_reverse.1 hp)
  | case2 found c text hplain _ hend =>
      have hall := hliteral (cut_beforePound hT hc).1 hplain h
      exact fun piece hp => hall piece (List.mem_reverse.1 hp)
  | case3 found c text hplain _ b bs hnext e c' hread =>
      have hall := hliteral (cut_beforePound hT hc).1 hplain h
      exact fun piece hp => hall piece (List.mem_reverse.1 hp)
  | case4 found c text hplain _ b bs hnext piece c' hread ih =>
      obtain ⟨htext, hbehind⟩ := cut_beforePound hT hc
      have htag : T ((c.forward text.length).past hnext).rest := hbehind b bs hnext
      obtain ⟨hrest, hpiece⟩ := SourceReader.cuts_readTag hT tags scope _ _ _ htag hread
      exact ih (List.forall_mem_cons.2 ⟨hpiece, hliteral htext hplain h⟩) hrest

end Reading

/-- What compilation puts into blocks is cut from the sources, if the files have the property
as well. -/
theorem Compiler.carries_cut (compiler : Compiler)
    (hstore : ∀ location source, compiler.store.load location = some source → T source)
    (levels : Nat) : (Quality.cut T).Carries (compiler.compileBlock levels) := by
  refine (Quality.cut T).carries_compileBlock hstore ?_ levels
  intro scope source hsource
  have hnone : ∀ piece ∈ ([] : List Piece), (Quality.cut T).InPiece piece := by
    intro piece hpiece
    cases hpiece
  exact Reading.cut_ofCursor hT compiler.tags scope hnone hsource

end Cuttable

end Stencil
