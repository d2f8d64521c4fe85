/-
# `Stencil.Proofs.Pointing` — where the zero byte of a faulty source stands

A zero byte is at fault in literal text, in the body of a tag for raw text, and in a path that a
tag looks up.  `NulFault` lists these by the text of the source, as far as reading comes in it:

| origin | what is at fault | the position counts from | the byte stands |
| :-- | :-- | :-- | :-- |
| `text` | text in front of the next tag | the start of the source | at the position |
| `rawBody` | a body that no argument is in front of | behind the parenthesis | further on by the blanks and the brace in front of the body |
| `path` | what a tag prints, or its first argument | the start of the path, `self` replaced | further on by the start of the path, and further back by as much as the replacement is longer |

That of a path may stand nowhere in the source: then it is one of the path of the scope.  So the
position is that of the byte in literal text, in no raw body, and in a path only if the path of the
scope is four bytes longer than what lies before the path in the source
(`NulFault.place?_eq_position_iff`).

Only the readers of paths and of raw bodies fail in this way, and each is inverted once
(`readGuarded_eq_nulByte_iff` and its like), so that a source has such a fault exactly if it is
listed.

**Proved here**, for every table of tags, scope and source:

    reading a source ends at a zero byte, with this position, exactly if
      it is listed with this position                    (`Reading.fault_eq_nulByte_iff`)

and for every store, extension, directory and state, with the usual tags:

    a zero byte that the first pass finds at fault is listed and stands where
      the table says, or a file that is embedded fails   (`Compiler.scanSource_nulByte`)
    the position of a raw body is not that of the byte   (`Compiler.nulByte_off_position`)
-/
import Stencil.Proofs.Decoding
import Stencil.Proofs.Enclosing
import Stencil.Proofs.Spelling
import Stencil.Proofs.Unclosed

namespace Stencil

open EStateM (Result)

/-! ## Paths within a scope -/

/-- Is this `self`, alone or as the first segment? -/
def beginsWithSelf (path : Bytes) : Bool :=
  path == selfPath || (selfPath ++ [Path.dot]).isPrefixOf path

theorem scopedPath_of_self {path : Bytes} (h : beginsWithSelf path = true) (outer : Bytes) :
    scopedPath (some outer) path = outer ++ path.drop selfPath.length := by
  simp only [scopedPath]
  split_ifs with hself hbegins
  · rw [hself, List.drop_length, List.append_nil]
  · rfl
  · simp [beginsWithSelf, hself, hbegins] at h

theorem scopedPath_of_other {path : Bytes} (h : beginsWithSelf path = false) (outer : Bytes) :
    scopedPath (some outer) path = path := by
  obtain ⟨hself, hbegins⟩ := Bool.or_eq_false_iff.1 h
  simp only [scopedPath]
  rw [if_neg (by simpa using hself), if_neg (by simp [hbegins])]

/-- A zero byte is at fault in the path, as it is seen within the scope: it is the first, and there
is no blank, which would be at fault instead. -/
structure NulIn (scope : Option Bytes) (path : Bytes) (index : Nat) : Prop where
  first : (scopedPath scope path).findIdx? (· == Opcode.stop) = some index
  unblanked : ∀ b ∈ scopedPath scope path, Bytes.isBlank b = false

theorem parseScoped_eq_nulByte_iff {scope : Option Bytes} {path : Bytes} {index : Nat} :
    parseScoped scope path = .error (.nulByte index) ↔ NulIn scope path index := by
  unfold parseScoped Path.parse
  constructor
  · intro h
    split at h
    · cases h
    next hblank =>
      split at h
      next hfirst =>
        cases h
        exact ⟨hfirst, by simpa using hblank⟩
      next =>
        dsimp only at h
        split at h
        · cases h
        · split at h <;> cases h
  · rintro ⟨hfirst, hblank⟩
    rw [if_neg (by simpa using hblank), hfirst]

/-! ## The faults -/

/-- Where a zero byte that is at fault comes from: literal text; the body of a tag for raw text,
which begins so many bytes behind the arguments; or a path, which is written at a position of the
source. -/
inductive NulOrigin where
  | text
  | rawBody (gap : Nat)
  | path (start : Nat) (written : Bytes)

/-- Where the byte stands in the source, for the position that the fault gives.  A byte of the path
of the scope does not stand in it. -/
def NulOrigin.place? (scope : Option Bytes) (position : Nat) : NulOrigin → Option Nat
  | .text => some position
  | .rawBody gap => some (position + gap)
  | .path start written =>
    match scope with
    | none => some (start + position)
    | some outer =>
      if !beginsWithSelf written then some (start + position)
      else if position < outer.length then none
      else some (start + selfPath.length + (position - outer.length))

namespace Reading

open Argument SourceReader

section Faults

variable (tags : TagTable) (scope : Option Bytes) (source : Bytes)

/-- The text lies behind the parenthesis that opens a tag of the source, or a further clause of a
chain of conditions that a tag begins. -/
inductive OpensArguments : Tag → Bytes → Prop where
  | tag {tag : Tag} {inside : Bytes} (h : OpensTag tags scope source tag inside) :
      OpensArguments tag inside
  | clause {chain blanks inside : Bytes} (h : OpensTag tags scope source .branch chain)
      (hchain : InChain scope chain
        (blanks ++ clauseSign ++ (Utf8.encode "if" ++ Sign.parenOpen :: inside)))
      (hblanks : ∀ b ∈ blanks, Bytes.isBlank b = true) : OpensArguments .branch inside

/-- With these arguments, and this text behind their parenthesis, the tag looks up the path: it is
the only argument, or that of a loop which can bind the other and has a body. -/
inductive LooksUp (path : Bytes) : Tag → List Argument → Bytes → Prop where
  | branch {behind : Bytes} : LooksUp path .branch [⟨.path, path⟩] behind
  | raw {behind : Bytes} : LooksUp path .raw [⟨.path, path⟩] behind
  | loop {name behind blanks body rest : Bytes} (usable : isUsableName name = true)
      (encloses : Encloses true behind blanks body rest) :
      LooksUp path .loop [⟨.path, path⟩, ⟨.string, name⟩] behind

/-- A tag of the source looks up the path that stands in front of `behind`. -/
inductive PathAt (path : Bytes) : Bytes → Prop where
  | printed {behind : Bytes}
      (opens : OpensTag tags scope source .print (path ++ Sign.parenClose :: behind))
      (closes : Sign.parenClose ∉ path) : PathAt path (Sign.parenClose :: behind)
  | argument {tag : Tag} {arguments : List Argument} {blanks name after : List Char}
      {behind : Bytes} (path_eq : path = bytesOf name)
      (opens : OpensArguments tags scope source tag
        (bytesOf (blanks ++ name ++ after) ++ Sign.parenClose :: behind))
      (blank : BlankRun blanks) (spelled : Spelled arguments (blanks ++ name ++ after))
      (looks : LooksUp path tag arguments behind) :
      PathAt path (bytesOf after ++ Sign.parenClose :: behind)

/-- A zero byte of a source that is at fault, by what it comes from and the position that the fault
gives. -/
inductive NulFault : NulOrigin → Nat → Prop where
  | text {front text behind : Bytes} {index : Nat} (source_eq : source = front ++ (text ++ behind))
      (reached : Reaches tags scope source (text ++ behind)) (plain : Sign.pound ∉ text)
      (ends : ∀ b ∈ behind.head?, b = Sign.pound)
      (first : text.findIdx? (· == Opcode.stop) = some index) :
      NulFault .text (front.length + index)
  | rawBody {front behind blanks body rest : Bytes} {cs : List Char} {index : Nat}
      (source_eq : source = front ++ Sign.parenClose :: behind)
      (opens : OpensTag tags scope source .raw (bytesOf cs ++ Sign.parenClose :: behind))
      (none : BlankRun cs) (encloses : Encloses false behind blanks body rest)
      (first : body.findIdx? (· == Opcode.stop) = some index) :
      NulFault (.rawBody (blanks.length + 1)) (front.length + 1 + index)
  | path {front path behind : Bytes} {index : Nat} (source_eq : source = front ++ (path ++ behind))
      (pathAt : PathAt tags scope source path behind) (nul : NulIn scope path index) :
      NulFault (.path front.length path) index

end Faults

section Places

variable {tags : TagTable} {scope : Option Bytes} {source : Bytes}

theorem getElem?_middle (front back : Bytes) {bs : Bytes} {index : Nat} {b : UInt8}
    (h : bs[index]? = some b) : (front ++ (bs ++ back))[front.length + index]? = some b := by
  have hlt := (List.getElem?_eq_some_iff.1 h).1
  rw [List.getElem?_append_right (Nat.le_add_right _ _), Nat.add_sub_cancel_left,
    List.getElem?_append_left hlt]
  exact h

theorem getElem?_of_findIdx? {bs : Bytes} {index : Nat}
    (h : bs.findIdx? (· == Opcode.stop) = some index) : bs[index]? = some Opcode.stop := by
  obtain ⟨hlt, hstop, -⟩ := List.findIdx?_eq_some_iff_getElem.1 h
  rw [List.getElem?_eq_getElem hlt, eq_of_beq hstop]

/-- Before the first zero byte there is none. -/
theorem ne_stop_of_findIdx? {bs : Bytes} {index : Nat}
    (h : bs.findIdx? (· == Opcode.stop) = some index) : ∀ b ∈ bs.take index, b ≠ Opcode.stop := by
  obtain ⟨hlt, -, hbefore⟩ := List.findIdx?_eq_some_iff_getElem.1 h
  intro b hb hstop
  obtain ⟨i, hi, rfl⟩ := List.mem_take_iff_getElem.1 hb
  exact hbefore i (by omega) (beq_iff_eq.2 hstop)

/-- The byte of a path is one of the path as it is written, unless the scope has it. -/
theorem NulOrigin.exists_of_place?_path {path : Bytes} {start index place : Nat}
    (h : (scopedPath scope path)[index]? = some Opcode.stop)
    (hplace : place ∈ (NulOrigin.path start path).place? scope index) :
    ∃ i, place = start + i ∧ path[i]? = some Opcode.stop := by
  cases scope with
  | none =>
      cases hplace
      exact ⟨index, rfl, h⟩
  | some outer =>
      simp only [NulOrigin.place?] at hplace
      cases hself : beginsWithSelf path with
      | false =>
          rw [hself] at hplace
          rw [scopedPath_of_other hself] at h
          cases hplace
          exact ⟨index, rfl, h⟩
      | true =>
          rw [hself] at hplace
          rw [scopedPath_of_self hself] at h
          split at hplace
          · contradiction
          split at hplace
          · cases hplace
          next hlt =>
            cases hplace
            rw [List.getElem?_append_right (Nat.le_of_not_lt hlt), List.getElem?_drop] at h
            exact ⟨_, Nat.add_assoc .., h⟩

/-- The byte that is at fault stands where its origin says. -/
theorem NulFault.stands {origin : NulOrigin} {position place : Nat}
    (h : NulFault tags scope source origin position)
    (hplace : place ∈ origin.place? scope position) : source[place]? = some Opcode.stop := by
  cases h with
  | text source_eq _ _ _ first =>
      cases hplace
      rw [source_eq]
      exact getElem?_middle _ _ (getElem?_of_findIdx? first)
  | @rawBody front _ blanks body rest _ index source_eq _ _ encloses first =>
      cases hplace
      have hsource : source = front ++ Sign.parenClose :: blanks ++ [Sign.braceOpen] ++
          (body ++ Sign.braceClose :: rest) := by
        rw [source_eq, encloses.ahead.text_eq]
        simp
      have hplace : front.length + 1 + index + (blanks.length + 1) =
          (front ++ Sign.parenClose :: blanks ++ [Sign.braceOpen]).length + index := by
        simp only [List.length_append, List.length_cons, List.length_nil]
        omega
      rw [hsource, hplace]
      exact getElem?_middle _ _ (getElem?_of_findIdx? first)
  | path source_eq _ nul =>
      obtain ⟨i, rfl, hi⟩ :=
        NulOrigin.exists_of_place?_path (getElem?_of_findIdx? nul.first) hplace
      rw [source_eq]
      exact getElem?_middle _ _ hi

/-- Up to the zero byte of a raw body there is none behind the parenthesis, and so none at the
position, which counts from there. -/
theorem NulFault.not_at_position_of_rawBody {gap position : Nat}
    (h : NulFault tags scope source (.rawBody gap) position) :
    source[position]? ≠ some Opcode.stop := by
  obtain ⟨⟩ | @⟨front, behind, blanks, body, rest, cs, index, source_eq, -, -, encloses, first⟩ := h
  have hlt := (List.getElem?_eq_some_iff.1 (getElem?_of_findIdx? first)).1
  have hclean : ∀ b ∈ blanks ++ Sign.braceOpen :: body.take index, b ≠ Opcode.stop := by
    intro b hb
    rcases List.mem_append.1 hb with hb | hb
    · rintro rfl
      exact absurd (encloses.ahead.blank _ hb) (by decide)
    · rcases List.mem_cons.1 hb with rfl | hb
      · decide
      · exact ne_stop_of_findIdx? first b hb
  have hindex : index < (blanks ++ Sign.braceOpen :: body.take index).length := by
    rw [List.length_append, List.length_cons, List.length_take]
    omega
  have hsource : source = (front ++ [Sign.parenClose]) ++
      ((blanks ++ Sign.braceOpen :: body.take index) ++
        (body.drop index ++ Sign.braceClose :: rest)) := by
    rw [source_eq, encloses.ahead.text_eq]
    simp [← List.append_assoc (body.take index)]
  have hother := getElem?_middle (front ++ [Sign.parenClose])
    (body.drop index ++ Sign.braceClose :: rest) (List.getElem?_eq_getElem hindex)
  rw [← hsource, List.length_append, List.length_singleton] at hother
  rw [hother]
  exact fun hstop => hclean _ (List.getElem_mem hindex) (Option.some.inj hstop)

/-! ### Parts of the source -/

theorem Reaches.suffix {after : Bytes} (h : Reaches tags scope source after) :
    after <:+ source := by
  induction h with
  | start => exact List.suffix_refl _
  | @tag text taken after _ _ _ _ ih =>
      refine List.IsSuffix.trans ⟨text ++ Sign.pound :: taken, ?_⟩ ih
      simp

theorem InChain.suffix {chain after : Bytes} (h : InChain scope chain after) :
    after <:+ chain := by
  induction h with
  | first hchain _ => exact ⟨_, hchain.symm⟩
  | @next blanks taken after _ _ _ _ _ ih =>
      refine List.IsSuffix.trans ⟨blanks ++ clauseSign ++ taken, ?_⟩ ih
      simp

/-- A pound sign and a parenthesis stand in front of what a tag has in its parentheses. -/
theorem OpensTag.exists_front {tag : Tag} {inside : Bytes}
    (h : OpensTag tags scope source tag inside) :
    ∃ front, source = front ++ inside ∧ 0 < front.length := by
  obtain @⟨text, name, hreaches, -, -, -⟩ := h
  obtain ⟨front, hfront⟩ := hreaches.suffix
  refine ⟨front ++ text ++ Sign.pound :: (name ++ [Sign.parenOpen]), ?_, ?_⟩
  · rw [← hfront]
    simp
  · rw [List.length_append, List.length_cons]
    omega

theorem OpensArguments.exists_front {tag : Tag} {inside : Bytes}
    (h : OpensArguments tags scope source tag inside) :
    ∃ front, source = front ++ inside ∧ 0 < front.length := by
  cases h with
  | tag h => exact h.exists_front
  | @clause chain blanks _ h hchain =>
      obtain ⟨front, rfl, hfront⟩ := h.exists_front
      obtain ⟨more, hmore⟩ := hchain.suffix
      refine ⟨front ++ more ++ blanks ++ clauseSign ++ Utf8.encode "if" ++ [Sign.parenOpen], ?_, ?_⟩
      · rw [← hmore]
        simp
      · simp only [List.length_append]
        omega

/-- A path that is looked up does not stand at the start of the source. -/
theorem PathAt.start_pos {front path behind : Bytes} (h : PathAt tags scope source path behind)
    (hsource : source = front ++ (path ++ behind)) : 0 < front.length := by
  have hlonger : (path ++ behind).length < source.length := by
    cases h with
    | printed opens =>
        obtain ⟨before, hbefore, hpos⟩ := opens.exists_front
        have := congrArg List.length hbefore
        simp only [List.length_append] at this ⊢
        omega
    | @argument _ _ blanks name after behind path_eq opens =>
        obtain ⟨before, hbefore, hpos⟩ := opens.exists_front
        have := congrArg List.length hbefore
        simp only [path_eq, bytesOf_append, List.length_append] at this ⊢
        omega
  have := congrArg List.length hsource
  rw [List.length_append] at this
  omega

/-- The position of the fault is that of the byte exactly in literal text, and in a path whose
`self` is replaced by so much that the path in front makes up for where the path is written. -/
theorem NulFault.place?_eq_position_iff {origin : NulOrigin} {position : Nat}
    (h : NulFault tags scope source origin position) :
    origin.place? scope position = some position ↔ origin = .text ∨
      ∃ start path outer, origin = .path start path ∧ scope = some outer ∧
        beginsWithSelf path = true ∧ outer.length = start + selfPath.length ∧
        outer.length ≤ position := by
  cases h with
  | text => simp [NulOrigin.place?]
  | rawBody => simp [NulOrigin.place?]
  | @path front path _ _ source_eq pathAt =>
      have hpos := pathAt.start_pos source_eq
      cases scope with
      | none =>
          simp only [NulOrigin.place?, Option.some.injEq]
          constructor
          · omega
          · rintro (⟨⟨⟩⟩ | ⟨_, _, _, -, ⟨⟩, -⟩)
      | some outer =>
          cases hself : beginsWithSelf path with
          | false =>
              simp only [NulOrigin.place?, hself, Bool.not_false, if_true, Option.some.injEq]
              constructor
              · omega
              · rintro (⟨⟨⟩⟩ | ⟨_, _, _, ⟨⟩, ⟨⟩, hself', -⟩)
                cases hself.symm.trans hself'
          | true =>
              simp only [NulOrigin.place?, hself]
              constructor
              · intro hplace
                split at hplace
                · contradiction
                split at hplace
                · cases hplace
                · have := Option.some.inj hplace
                  exact .inr ⟨_, _, _, rfl, rfl, hself, by omega, by omega⟩
              · rintro (⟨⟨⟩⟩ | ⟨_, _, _, ⟨⟩, ⟨⟩, -, hlength, hle⟩)
                rw [if_neg (by decide), if_neg (Nat.not_lt_of_le hle), Option.some.injEq]
                omega

end Places

end Reading

/-! ## Readers that do not fail so -/

/-- The fault is not about a zero byte. -/
def CompileError.IsOther (e : CompileError) : Prop := ∀ position, e ≠ .nulByte position

namespace SourceReader

open Argument Reading
open Reader (FailsOnlyBy)

section Fails

variable {α β : Type} {r : SourceReader α} {f : α → SourceReader β} {c c' : Cursor} {index : Nat}

/-- Where the first reader does not fail so, the second one does. -/
theorem nulByte_of_bind (hr : FailsOnlyBy CompileError.IsOther r)
    (h : (r >>= f) c = .error (.nulByte index) c') :
    ∃ a c₁, r c = .ok a c₁ ∧ f a c₁ = .error (.nulByte index) c' := by
  rcases Reader.bind_eq_error h with hfirst | hsecond
  · exact absurd rfl (hr _ _ _ hfirst _)
  · exact hsecond

theorem other_checked {x : Except CompileError α} (h : ∀ e, x = .error e → e.IsOther) :
    FailsOnlyBy CompileError.IsOther (checked x) := by
  cases x with
  | ok a => exact .pure a
  | error e => exact .throw (h e rfl)

theorem checked_eq_ok {x : Except CompileError α} {a : α} (h : checked x c = .ok a c') :
    x = .ok a ∧ c' = c := by
  cases x <;> cases h
  exact ⟨rfl, rfl⟩

theorem checked_of_error {x : Except CompileError α} {e : CompileError} (h : x = .error e)
    (c : Cursor) : checked x c = .error e c := by
  subst h
  rfl

theorem checked_eq_error {x : Except CompileError α} {e : CompileError}
    (h : checked x c = .error e c') : x = .error e := by
  cases x <;> cases h
  rfl

end Fails

theorem isOther_of_isNotClosed {e : CompileError} (h : e.IsNotClosed) : e.IsOther := by
  obtain ⟨_, rfl⟩ := h
  exact nofun

theorem other_decodeText (data : Bytes) :
    FailsOnlyBy CompileError.IsOther (checked (decodeText data)) := by
  refine other_checked fun e he => ?_
  unfold decodeText at he
  split at he <;> cases he
  exact nofun

theorem other_parseArguments (tag : String) (raw : Bytes) :
    FailsOnlyBy CompileError.IsOther (checked (parseArguments tag raw)) := by
  refine other_checked fun e he => ?_
  unfold parseArguments at he
  cases htext : decodeText raw with
  | error d =>
      rw [htext] at he
      cases he
      exact other_decodeText raw (.ofBytes []) e _ (by rw [htext]; rfl)
  | ok text =>
      rw [htext] at he
      change (Argument.readAll text).mapError _ = _ at he
      cases hread : Argument.readAll text <;> rw [hread] at he <;> cases he
      exact nofun

theorem other_expectArguments (tag : String) (kinds : List ArgumentKind)
    (arguments : List Argument) :
    FailsOnlyBy CompileError.IsOther (checked (expectArguments tag kinds arguments)) := by
  refine other_checked fun e he => ?_
  unfold expectArguments at he
  cases hkinds : Argument.expect kinds arguments <;> rw [hkinds] at he <;> cases he
  exact nofun

theorem other_expectByte (b : UInt8) : FailsOnlyBy CompileError.IsOther (expectByte b) := by
  intro c e c' herr
  unfold expectByte at herr
  split at herr <;> cases herr
  exact nofun

theorem other_readString : FailsOnlyBy CompileError.IsOther readString := by
  refine (other_expectByte _).bind fun _ c e c' herr => ?_
  obtain ⟨_, rfl⟩ := readUntil_eq_error herr
  exact nofun

theorem other_readTagString : FailsOnlyBy CompileError.IsOther readTagString := by
  intro c e c' herr
  unfold readTagString at herr
  split at herr
  · cases herr
    exact nofun
  · split at herr
    · cases herr
      exact nofun
    · exact other_readString _ _ _ herr

theorem other_closeTag : FailsOnlyBy CompileError.IsOther closeTag := by
  intro c e c' herr
  unfold closeTag at herr
  split at herr
  · cases herr
    exact nofun
  · exact other_expectByte _ _ _ _ herr

theorem other_readTagName : FailsOnlyBy CompileError.IsOther readTagName := by
  intro c e c' herr
  simp only [readTagName] at herr
  split at herr
  · cases herr
    intro position hposition
    cases hposition
  · split at herr <;> cases herr
    intro position hposition
    cases hposition

theorem other_readArguments : FailsOnlyBy CompileError.IsOther readArguments :=
  fun _ _ _ herr => isOther_of_isNotClosed (readArguments_eq_error herr)

theorem other_readArgumentsOf (tag : String) (kinds : List ArgumentKind) :
    FailsOnlyBy CompileError.IsOther (readArgumentsOf tag kinds) :=
  other_readArguments.bind fun _ => (other_parseArguments _ _).bind fun _ =>
    (other_expectArguments _ _ _).bind fun _ => .pure _

theorem other_readBody (counting : Bool) :
    FailsOnlyBy CompileError.IsOther (readBody counting) := by
  have hskip : FailsOnlyBy CompileError.IsOther skipBlanks := nofun
  refine hskip.bind fun _ => (other_expectByte _).bind fun _ c e c' herr => ?_
  exact isOther_of_isNotClosed (readBodyEnd_eq_error herr)

theorem other_readStringArgument : FailsOnlyBy CompileError.IsOther readStringArgument :=
  other_readTagString.bind fun _ => other_closeTag.bind fun _ => other_decodeText _

theorem other_readPrinted (start : Nat) : FailsOnlyBy CompileError.IsOther (readPrinted start) :=
  fun _ _ _ herr => isOther_of_isNotClosed (readPrinted_eq_error herr)

theorem other_readBodyAhead {α : Type} (withBody : Bytes → α) (without : α) :
    FailsOnlyBy CompileError.IsOther (readBodyAhead withBody without) := by
  intro c e c' herr
  change (if _ then _ else _ : SourceReader α) c = _ at herr
  split at herr
  · exact (other_readBody true).bind (fun _ => .pure _) _ _ _ herr
  · cases herr

/-! ## Readers that do -/

section Readers

variable {scope : Option Bytes} {c : Cursor} {index : Nat}

/-- Arguments that are read are spelled by the bytes in front of the parenthesis. -/
theorem exists_spelled {tag : String} {raw : Bytes} {arguments : List Argument} {c' : Cursor}
    (hraw : readArguments c = .ok raw c') (hparse : parseArguments tag raw = .ok arguments) :
    ∃ cs, raw = bytesOf cs ∧ c.rest = bytesOf cs ++ Sign.parenClose :: c'.rest ∧
      Spelled arguments cs := by
  obtain ⟨_, hrest, rfl, -⟩ := takes_readArguments.ok hraw
  unfold parseArguments at hparse
  cases htext : decodeText raw with
  | error e =>
      rw [htext] at hparse
      cases hparse
  | ok text =>
      rw [htext] at hparse
      unfold decodeText at htext
      split at htext <;> cases htext
      have hbytes : bytesOf text.toList = raw := by
        rw [bytesOf, String.ofList_toList]
        exact Utf8.decode?_eq_some_iff.1 (by assumption)
      refine ⟨text.toList, hbytes.symm, ?_, readAll_eq_ok.1 (mapError_eq_ok.1 hparse)⟩
      rw [hbytes, hrest]
      simp

theorem parseArguments_bytesOf {arguments : List Argument} {cs : List Char}
    (h : Spelled arguments cs) (tag : String) : parseArguments tag (bytesOf cs) = .ok arguments := by
  have htext : Utf8.encode (String.ofList cs) = bytesOf cs := rfl
  rw [parseArguments_of_text htext, mapError_eq_ok, readAll_eq_ok, String.toList_ofList]
  exact h

theorem readArgumentsOf_eq_ok {tag : String} {kinds : List ArgumentKind} {values : List Bytes}
    {c' : Cursor} (h : readArgumentsOf tag kinds c = .ok values c') :
    ∃ cs arguments, c.rest = bytesOf cs ++ Sign.parenClose :: c'.rest ∧ Spelled arguments cs ∧
      arguments.map Argument.kind = kinds ∧ arguments.map Argument.value = values := by
  obtain ⟨raw, c₁, hraw, hbehind⟩ := Reader.bind_eq_ok h
  obtain ⟨arguments, c₂, hparsed, hchecked⟩ := Reader.bind_eq_ok hbehind
  obtain ⟨hparse, rfl⟩ := checked_eq_ok hparsed
  obtain ⟨found, c₃, hfound, hvalues⟩ := Reader.bind_eq_ok hchecked
  obtain ⟨hkinds, rfl⟩ := checked_eq_ok hfound
  cases hvalues
  unfold expectArguments Argument.expect at hkinds
  dsimp only at hkinds
  split at hkinds <;> cases hkinds
  obtain ⟨cs, -, hrest, hspelled⟩ := exists_spelled hraw hparse
  exact ⟨cs, arguments, hrest, hspelled, by assumption, rfl⟩

theorem gives_readArgumentsOf_spelled {arguments : List Argument} {cs : List Char}
    (h : Spelled arguments cs) (tag : String) (after : Bytes) :
    Gives (readArgumentsOf tag (arguments.map Argument.kind)) (bytesOf cs ++ [Sign.parenClose])
      after (arguments.map Argument.value) :=
  gives_readArgumentsOf (gives_readArguments_spelled h after) (parseArguments_bytesOf h tag)

/-- What lies ahead of the arguments of a tag, where the first is a path that is at fault by a zero
byte. -/
def PathFails (scope : Option Bytes) (tag : Tag) (inside : Bytes) (index : Nat) : Prop :=
  ∃ cs arguments path behind, inside = bytesOf cs ++ Sign.parenClose :: behind ∧
    Spelled arguments cs ∧ LooksUp path tag arguments behind ∧ NulIn scope path index

theorem exists_path_of_kinds {arguments : List Argument}
    (h : arguments.map Argument.kind = [.path]) : ∃ path, arguments = [⟨.path, path⟩] := by
  obtain ⟨⟨kind, path⟩, rfl, rfl⟩ := List.map_eq_singleton_iff.1 h
  exact ⟨path, rfl⟩

theorem readGuarded_eq_nulByte_iff :
    (∃ c', readGuarded scope c = .error (.nulByte index) c') ↔
      PathFails scope .branch c.rest index := by
  constructor
  · rintro ⟨c', h⟩
    obtain ⟨values, c₁, hvalues, h⟩ := nulByte_of_bind (other_readArgumentsOf _ _) h
    obtain ⟨cs, arguments, hrest, hspelled, hkinds, rfl⟩ := readArgumentsOf_eq_ok hvalues
    obtain ⟨path, rfl⟩ := exists_path_of_kinds hkinds
    refine ⟨cs, _, path, _, hrest, hspelled, .branch, ?_⟩
    rcases Reader.bind_eq_error h with hfails | ⟨condition, c₂, -, h⟩
    · exact parseScoped_eq_nulByte_iff.1 (checked_eq_error hfails)
    · exact absurd rfl ((other_readBody true).bind (fun _ => .pure _) _ _ _ h _)
  · rintro ⟨cs, arguments, path, behind, hrest, hspelled, hlooks, hnul⟩
    cases hlooks
    obtain ⟨c₁, hok, -⟩ := gives_readArgumentsOf_spelled hspelled "if" behind c (by simp [hrest])
    refine ⟨c₁, (Reader.bind_of_ok hok).trans ?_⟩
    exact Reader.bind_of_error (checked_of_error (parseScoped_eq_nulByte_iff.2 hnul) c₁)

theorem readLoop_eq_nulByte_iff :
    (∃ c', readLoop scope c = .error (.nulByte index) c') ↔
      PathFails scope .loop c.rest index := by
  constructor
  · rintro ⟨c', h⟩
    obtain ⟨values, c₁, hvalues, h⟩ := nulByte_of_bind (other_readArgumentsOf _ _) h
    obtain ⟨cs, arguments, hrest, hspelled, hkinds, rfl⟩ := readArgumentsOf_eq_ok hvalues
    match arguments, hkinds with
    | [⟨.path, path⟩, ⟨.string, name⟩], _ =>
      dsimp only at h
      split at h
      next husable =>
        obtain ⟨body, c₂, hbody, h⟩ := nulByte_of_bind (other_readBody true) h
        obtain ⟨blanks, hblanks, hbehind, hends⟩ := readBody_eq_ok hbody
        have hencloses : Encloses true c₁.rest blanks body c₂.rest :=
          ⟨⟨hbehind, hblanks⟩, closingIndex?_eq_length_iff.1 (hends [])⟩
        refine ⟨cs, _, path, _, hrest, hspelled, .loop husable hencloses, ?_⟩
        rcases Reader.bind_eq_error h with hfails | ⟨iterable, c₃, -, h⟩
        · exact parseScoped_eq_nulByte_iff.1 (checked_eq_error hfails)
        · exact absurd rfl ((other_decodeText _).bind (fun _ => .pure _) _ _ _ h _)
      next => cases h
  · rintro ⟨cs, arguments, path, behind, hrest, hspelled, hlooks, hnul⟩
    cases hlooks with
    | @loop name _ blanks body rest husable hencloses =>
        obtain ⟨c₁, hok, rfl⟩ :=
          gives_readArgumentsOf_spelled hspelled "loop" behind c (by simp [hrest])
        have hbody := (readBody_of_encloses hencloses).1
        have hfails := checked_of_error (parseScoped_eq_nulByte_iff.2 hnul)
        refine ⟨c₁.forward (blanks.length + 1 + (body.length + 1)), (Reader.bind_of_ok hok).trans ?_⟩
        refine (congrFun (if_pos husable) c₁).trans ?_
        exact (Reader.bind_of_ok hbody).trans (Reader.bind_of_error (hfails _))

/-- What a tag for raw text comes to that has arguments. -/
def readRawPath (scope : Option Bytes) (arguments : List Argument) : SourceReader Piece := do
  let arguments ← checked (expectArguments "raw" [.path] arguments)
  let segments ← checked (parseScoped scope ((arguments.map Argument.value).headD []))
  pure (.emit (.print (.path segments) .done))

/-- Where the arguments have been read, a tag for raw text goes on with its body or its path. -/
theorem readRaw_of_spelled {arguments : List Argument} {cs : List Char} {behind : Bytes}
    (hrest : c.rest = bytesOf cs ++ Sign.parenClose :: behind) (h : Spelled arguments cs) :
    readRaw scope c =
      if arguments.isEmpty then
        readRawBody (c.position + (bytesOf cs).length + 1) (c.forward ((bytesOf cs).length + 1))
      else readRawPath scope arguments (c.forward ((bytesOf cs).length + 1)) := by
  have hread : readArguments c = .ok (bytesOf cs) (c.forward ((bytesOf cs).length + 1)) := by
    have hexact := (gives_readArguments_spelled h behind).exact advances_readArguments
      (c := c) (by simp [hrest])
    rwa [List.length_append] at hexact
  unfold readRaw
  rw [Reader.bind_of_ok hread, checked_bind (parseArguments_bytesOf h "raw")]
  split_ifs <;> rfl

theorem readRawBody_eq_nulByte_iff {start position : Nat} :
    (∃ c', readRawBody start c = .error (.nulByte position) c') ↔
      ∃ blanks body rest index, Encloses false c.rest blanks body rest ∧
        body.findIdx? (· == Opcode.stop) = some index ∧ position = start + index := by
  constructor
  · rintro ⟨c', h⟩
    obtain ⟨body, c₁, hbody, h⟩ := nulByte_of_bind (other_readBody false) h
    obtain ⟨blanks, hblanks, hrest, hends⟩ := readBody_eq_ok hbody
    have hencloses : Encloses false c.rest blanks body c₁.rest :=
      ⟨⟨hrest, hblanks⟩, closingIndex?_eq_length_iff.1 (hends [])⟩
    cases hfirst : body.findIdx? (· == Opcode.stop) with
    | some index =>
        simp only [hfirst] at h
        cases h
        exact ⟨blanks, body, _, index, hencloses, hfirst, rfl⟩
    | none =>
        simp only [hfirst] at h
        cases h
  · rintro ⟨blanks, body, rest, index, hencloses, hfirst, rfl⟩
    refine ⟨c.forward (blanks.length + 1 + (body.length + 1)), ?_⟩
    refine (Reader.bind_of_ok (readBody_of_encloses hencloses).1).trans ?_
    simp only [hfirst]
    rfl

theorem readRawPath_eq_nulByte_iff {arguments : List Argument} :
    (∃ c', readRawPath scope arguments c = .error (.nulByte index) c') ↔
      ∃ path, arguments = [⟨.path, path⟩] ∧ NulIn scope path index := by
  constructor
  · rintro ⟨c', h⟩
    obtain ⟨found, c₁, hfound, h⟩ := nulByte_of_bind (other_expectArguments _ _ _) h
    have hkinds := (checked_eq_ok hfound).1
    unfold expectArguments Argument.expect at hkinds
    dsimp only at hkinds
    split at hkinds <;> cases hkinds
    obtain ⟨path, rfl⟩ := exists_path_of_kinds (by assumption)
    refine ⟨path, rfl, ?_⟩
    rcases Reader.bind_eq_error h with hfails | ⟨segments, c₂, -, h⟩
    · exact parseScoped_eq_nulByte_iff.1 (checked_eq_error hfails)
    · cases h
  · rintro ⟨path, rfl, hnul⟩
    have hkinds : expectArguments "raw" [.path] [⟨.path, path⟩] = .ok [⟨.path, path⟩] := rfl
    rw [readRawPath, checked_bind hkinds]
    exact ⟨c, Reader.bind_of_error (checked_of_error (parseScoped_eq_nulByte_iff.2 hnul) c)⟩

theorem readRaw_eq_nulByte_iff {position : Nat} :
    (∃ c', readRaw scope c = .error (.nulByte position) c') ↔
      PathFails scope .raw c.rest position ∨
      ∃ cs behind blanks body rest index, c.rest = bytesOf cs ++ Sign.parenClose :: behind ∧
        BlankRun cs ∧ Encloses false behind blanks body rest ∧
        body.findIdx? (· == Opcode.stop) = some index ∧
        position = c.position + (bytesOf cs).length + 1 + index := by
  constructor
  · rintro ⟨c', h⟩
    obtain ⟨raw, c₁, hraw, h'⟩ := nulByte_of_bind other_readArguments h
    obtain ⟨arguments, c₂, hparse, -⟩ := nulByte_of_bind (other_parseArguments _ _) h'
    obtain ⟨cs, -, hrest, hspelled⟩ := exists_spelled hraw (checked_eq_ok hparse).1
    rw [readRaw_of_spelled hrest hspelled] at h
    split at h
    next hnone =>
      obtain ⟨blanks, body, rest, index, hencloses, hfirst, rfl⟩ :=
        readRawBody_eq_nulByte_iff.1 ⟨c', h⟩
      rw [Cursor.rest_forward_of_append_cons hrest] at hencloses
      rw [List.isEmpty_iff.1 hnone] at hspelled
      exact .inr ⟨cs, _, blanks, body, rest, index, hrest, hspelled.blankRun, hencloses, hfirst, rfl⟩
    next =>
      obtain ⟨path, rfl, hnul⟩ := readRawPath_eq_nulByte_iff.1 ⟨c', h⟩
      exact .inl ⟨cs, _, path, _, hrest, hspelled, .raw, hnul⟩
  · rintro (⟨cs, arguments, path, behind, hrest, hspelled, hlooks, hnul⟩ |
      ⟨cs, behind, blanks, body, rest, index, hrest, hnone, hencloses, hfirst, rfl⟩)
    · cases hlooks
      rw [readRaw_of_spelled hrest hspelled]
      exact readRawPath_eq_nulByte_iff.2 ⟨path, rfl, hnul⟩
    · rw [readRaw_of_spelled hrest (.none hnone)]
      rw [← Cursor.rest_forward_of_append_cons hrest] at hencloses
      exact readRawBody_eq_nulByte_iff.2 ⟨blanks, body, rest, index, hencloses, hfirst, rfl⟩

theorem readPrint_eq_nulByte_iff :
    (∃ c', readPrint scope c = .error (.nulByte index) c') ↔
      ∃ path behind, c.rest = path ++ Sign.parenClose :: behind ∧ Sign.parenClose ∉ path ∧
        NulIn scope path index := by
  have hsplit : readPrint scope c = (readPrinted c.position >>= readPrintEnd scope) c := rfl
  rw [hsplit]
  constructor
  · rintro ⟨c', h⟩
    obtain ⟨path, c₁, hpath, h⟩ := nulByte_of_bind (other_readPrinted _) h
    obtain ⟨b, hrest, hb, hplain⟩ := readUntil_eq_ok (readPrinted_eq_ok.1 hpath)
    obtain rfl : b = Sign.parenClose := eq_of_beq hb
    have hcloses : Sign.parenClose ∉ path := by
      intro hmem
      simpa using hplain _ hmem
    refine ⟨path, c₁.rest, hrest, hcloses, ?_⟩
    unfold readPrintEnd at h
    split at h
    · cases h
    · rcases Reader.bind_eq_error h with hfails | ⟨segments, c₂, -, h⟩
      · exact parseScoped_eq_nulByte_iff.1 (checked_eq_error hfails)
      · exact absurd rfl (other_readBodyAhead _ _ _ _ _ h _)
  · rintro ⟨path, behind, hrest, hcloses, hnul⟩
    obtain ⟨c₁, hok, -⟩ := gives_readPrinted hcloses c.position behind c (by simp [hrest])
    have hfails := checked_of_error (parseScoped_eq_nulByte_iff.2 hnul) c₁
    have hne : ¬ path.isEmpty = true := by
      rintro hempty
      obtain rfl := List.isEmpty_iff.1 hempty
      cases scope <;> cases hnul.first
    refine ⟨c₁, (Reader.bind_of_ok hok).trans ?_⟩
    rw [readPrintEnd, if_neg hne]
    exact Reader.bind_of_error hfails

/-! ### Chains of conditions -/

theorem readClause_eq_nulByte_iff :
    (∃ c', readClause scope c = .error (.nulByte index) c') ↔
      ∃ inside, c.rest = Utf8.encode "if" ++ Sign.parenOpen :: inside ∧
        PathFails scope .branch inside index := by
  constructor
  · rintro ⟨c', h⟩
    obtain ⟨name, c₁, hname, h⟩ := nulByte_of_bind other_readTagName h
    have hrest := (readTagName_eq_ok hname).1
    split at h
    next hif =>
      subst hif
      refine ⟨c₁.rest, by rw [hrest]; simp, readGuarded_eq_nulByte_iff.1 ?_⟩
      rcases Reader.bind_eq_error h with hfails | ⟨branch, c₂, -, h⟩
      · exact ⟨_, hfails⟩
      · cases h
    split at h
    · refine absurd rfl ((other_readArgumentsOf _ _).bind (fun _ => ?_) _ _ _ h _)
      exact (other_readBody true).bind fun _ => .pure _
    · cases h
  · rintro ⟨inside, hrest, hfails⟩
    obtain ⟨c₁, hok, rfl⟩ := gives_readTagName (Chain.readTagName_plain (.inl rfl)) inside c
      (by simp [hrest])
    obtain ⟨c', hguarded⟩ := readGuarded_eq_nulByte_iff.2 hfails
    refine ⟨c', (Reader.bind_of_ok hok).trans ?_⟩
    exact Reader.bind_of_error hguarded

/-- Between the clauses of a chain that is read so far, a further clause looks up a path that is at
fault. -/
def ClauseFails (scope : Option Bytes) (chain : Bytes) (index : Nat) : Prop :=
  ∃ blanks inside, InChain scope chain
      (blanks ++ clauseSign ++ (Utf8.encode "if" ++ Sign.parenOpen :: inside)) ∧
    (∀ b ∈ blanks, Bytes.isBlank b = true) ∧ PathFails scope .branch inside index

theorem clauseFails_of_readClauses {branches : List (List String × Bytes)} {chain : Bytes}
    {c' : Cursor} (hchain : InChain scope chain c.rest)
    (h : readClauses scope branches c = .error (.nulByte index) c') :
    ClauseFails scope chain index := by
  have hblanks : ∀ c : Cursor, ∀ b ∈ c.rest.takeWhile Bytes.isBlank, Bytes.isBlank b = true :=
    fun _ => List.all_eq_true.1 List.all_takeWhile
  fun_induction readClauses scope branches c with
  | case1 branches c hahead e c₁ hread =>
      cases h
      obtain ⟨inside, hinside, hfails⟩ := readClause_eq_nulByte_iff.1 ⟨_, hread⟩
      refine ⟨_, inside, ?_, hblanks c, hfails⟩
      rw [← hinside, ← rest_of_clauseAhead hahead]
      exact hchain
  | case2 branches c hahead condition body c₁ hread ih =>
      refine ih ?_ h
      obtain ⟨taken, htaken, -, hgives⟩ := (takes_readClause scope).ok hread
      refine .next ?_ (hblanks c) (hgives _ trivial)
      rw [← htaken, ← rest_of_clauseAhead hahead]
      exact hchain
  | case3 => cases h
  | case4 => cases h

theorem readBranch_eq_nulByte_iff :
    (∃ c', readBranch scope c = .error (.nulByte index) c') ↔
      PathFails scope .branch c.rest index ∨ ClauseFails scope c.rest index := by
  constructor
  · rintro ⟨c', h⟩
    rcases Reader.bind_eq_error h with hfails | ⟨branch, c₁, hguarded, h⟩
    · exact .inl (readGuarded_eq_nulByte_iff.1 ⟨_, hfails⟩)
    · obtain ⟨taken, htaken, -, hgives⟩ := (takes_readGuarded scope).ok hguarded
      exact .inr (clauseFails_of_readClauses (.first htaken (hgives _ trivial)) h)
  · rintro (hfails | ⟨blanks, inside, hchain, hblanks, hfails⟩)
    · obtain ⟨c', hguarded⟩ := readGuarded_eq_nulByte_iff.2 hfails
      exact ⟨c', Reader.bind_of_error hguarded⟩
    · obtain ⟨branches, c₁, hc₁, heq⟩ := hchain.readBranch_eq rfl
      obtain ⟨hahead, hrest⟩ := clauseAhead_of_rest hblanks hc₁
      obtain ⟨c', hclause⟩ := readClause_eq_nulByte_iff.2 ⟨inside, hrest, hfails⟩
      refine ⟨c', ?_⟩
      rw [heq, readClauses_of_ahead hahead]
      exact Reader.bind_of_error hclause

end Readers

end SourceReader

/-! ## Sources -/

namespace Cursor

variable {source front : Bytes} {c : Cursor}

/-- Behind a cursor that has moved on from the start lies the first part of the source. -/
theorem Ahead.exists_front (h : (ofBytes source).Ahead c) :
    ∃ front, source = front ++ c.rest ∧ c.position = front.length := by
  obtain ⟨count, hcount, rfl⟩ := h
  refine ⟨source.take count, (List.take_append_drop count source).symm, ?_⟩
  show 0 + count = _
  rw [List.length_take, Nat.zero_add]
  exact (Nat.min_eq_left hcount).symm

theorem Ahead.position_eq (h : (ofBytes source).Ahead c) (hsource : source = front ++ c.rest) :
    c.position = front.length := by
  obtain ⟨front', hfront', hposition⟩ := h.exists_front
  rw [hposition, List.append_cancel_right (hfront'.symm.trans hsource)]

end Cursor

namespace Reading

open Argument SourceReader

variable {tags : TagTable} {scope : Option Bytes} {source : Bytes} {position : Nat}

/-! ### A fault of the source is listed -/

theorem OpensArguments.exists_nulFault {tag : Tag} {inside : Bytes}
    (h : OpensArguments tags scope source tag inside)
    (hfails : PathFails scope tag inside position) :
    ∃ origin, NulFault tags scope source origin position := by
  obtain ⟨cs, arguments, path, behind, rfl, hspelled, hlooks, hnul⟩ := hfails
  have hpath : ∃ blanks name after, cs = blanks ++ name ++ after ∧ BlankRun blanks ∧
      path = bytesOf name := by
    cases hlooks <;> exact hspelled.exists_path
  obtain ⟨blanks, name, after, rfl, hblank, hname⟩ := hpath
  obtain ⟨front, hfront, -⟩ := h.exists_front
  have hsource : source = (front ++ bytesOf blanks) ++
      (path ++ (bytesOf after ++ Sign.parenClose :: behind)) := by
    rw [hfront, hname, bytesOf_append, bytesOf_append]
    simp
  exact ⟨_, .path hsource (.argument hname h hblank hspelled hlooks) hnul⟩

theorem OpensTag.exists_nulFault {tag : Tag} {c c' : Cursor}
    (hmoved : (Cursor.ofBytes source).Ahead c) (h : OpensTag tags scope source tag c.rest)
    (herr : readTagRest scope tag c = .error (.nulByte position) c') :
    ∃ origin, NulFault tags scope source origin position := by
  obtain ⟨front, hfront, hposition⟩ := hmoved.exists_front
  have hnamed : ∀ f : String → Piece, (f <$> readStringArgument) c ≠ .error (.nulByte position) c' := by
    intro f hf
    simp only [Functor.map, EStateM.map] at hf
    split at hf <;> cases hf
    exact absurd rfl (other_readStringArgument _ _ _ (by assumption) _)
  cases tag with
  | print =>
      obtain ⟨path, behind, hrest, hcloses, hnul⟩ := readPrint_eq_nulByte_iff.1 ⟨c', herr⟩
      rw [hrest] at h hfront
      exact ⟨_, .path hfront (.printed h hcloses) hnul⟩
  | loop => exact (OpensArguments.tag h).exists_nulFault (readLoop_eq_nulByte_iff.1 ⟨c', herr⟩)
  | branch =>
      rcases readBranch_eq_nulByte_iff.1 ⟨c', herr⟩ with
        hfails | ⟨blanks, inside, hchain, hblanks, hfails⟩
      · exact (OpensArguments.tag h).exists_nulFault hfails
      · exact (OpensArguments.clause h hchain hblanks).exists_nulFault hfails
  | raw =>
      rcases readRaw_eq_nulByte_iff.1 ⟨c', herr⟩ with
        hfails | ⟨cs, behind, blanks, body, rest, index, hrest, hnone, hencloses, hfirst, rfl⟩
      · exact (OpensArguments.tag h).exists_nulFault hfails
      · rw [hrest] at h hfront
        rw [← List.append_assoc] at hfront
        rw [hposition, ← List.length_append]
        exact ⟨_, .rawBody hfront h hnone hencloses hfirst⟩
  | exportBody =>
      refine absurd rfl (other_readStringArgument.bind (fun _ => ?_) _ _ _ herr _)
      exact (other_readBody true).bind fun _ => .pure _
  | embedFile | importBody | extendFile => exact absurd herr (hnamed _)

theorem Reaches.exists_nulFault {text : Bytes} {c c' : Cursor}
    (h : Reaches tags scope source (text ++ Sign.pound :: c.rest))
    (htext : ∀ b ∈ text, b ≠ Sign.pound ∧ b ≠ Opcode.stop)
    (hmoved : (Cursor.ofBytes source).Ahead c)
    (herr : readTag tags scope c = .error (.nulByte position) c') :
    ∃ origin, NulFault tags scope source origin position := by
  obtain ⟨name, c₁, hname, hbehind⟩ := nulByte_of_bind other_readTagName herr
  obtain ⟨hrest, hclean⟩ := readTagName_eq_ok hname
  cases hfind : tags.find? name with
  | none =>
      rw [hfind] at hbehind
      cases hbehind
  | some tag =>
      rw [hfind] at hbehind
      rw [hrest, List.append_assoc] at h
      have hopens : OpensTag tags scope source tag c₁.rest := .intro h htext hclean hfind
      exact hopens.exists_nulFault (hmoved.trans (advances_readTagName.ok hname)) hbehind

/-- The reader of a tag starts behind the literal text and the pound sign. -/
theorem ahead_tag {c : Cursor} {b : UInt8} {bs : Bytes}
    (hnext : (c.forward (c.rest.takeWhile (· != Sign.pound)).length).rest = b :: bs) :
    c.Ahead ((c.forward (c.rest.takeWhile (· != Sign.pound)).length).past hnext) :=
  (Cursor.ahead_forward (List.takeWhile_prefix _).length_le).trans (Cursor.ahead_past _ hnext)

theorem exists_nulFault {found : List Piece} {c : Cursor}
    (hmoved : (Cursor.ofBytes source).Ahead c) (hreached : Reaches tags scope source c.rest)
    (h : (ofCursor tags scope found c).fault = some (.nulByte position)) :
    ∃ origin, NulFault tags scope source origin position := by
  fun_induction ofCursor tags scope found c with
  | case1 found c text index hnul =>
      cases h
      obtain ⟨front, hfront, hposition⟩ := hmoved.exists_front
      rw [rest_eq_append c] at hfront hreached
      have hplain : Sign.pound ∉ text := by
        intro hmem
        simpa using List.all_eq_true.1 List.all_takeWhile _ hmem
      rw [hposition]
      exact ⟨_, .text hfront hreached hplain (head?_rest_forward c) hnul⟩
  | case2 => cases h
  | case3 found c text hplain _ b bs hnext e c' hread =>
      cases h
      obtain rfl : b = Sign.pound := head?_rest_forward c b (by rw [hnext]; rfl)
      rw [rest_eq_append c, hnext] at hreached
      exact hreached.exists_nulFault (mem_takeWhile_ne_pound hplain)
        (hmoved.trans (ahead_tag hnext)) hread
  | case4 found c text hplain _ b bs hnext piece c' hread ih =>
      obtain rfl : b = Sign.pound := head?_rest_forward c b (by rw [hnext]; rfl)
      rw [rest_eq_append c, hnext] at hreached
      obtain ⟨taken, htaken, -, hgives⟩ := (takes_readTag tags scope).ok hread
      obtain rfl : bs = taken ++ c'.rest := htaken
      refine ih ?_ (.tag hreached (mem_takeWhile_ne_pound hplain) (hgives _ ⟨id, id⟩)) h
      exact (hmoved.trans (ahead_tag hnext)).trans ((advances_readTag tags scope).ok hread)

/-! ### What is listed is a fault of the source -/

theorem PathAt.fault_eq {path behind : Bytes} (h : PathAt tags scope source path behind)
    (hnul : NulIn scope path position) :
    (ofBytes tags scope source).fault = some (.nulByte position) := by
  cases h with
  | printed opens closes =>
      obtain ⟨c, -, hrest, hfault⟩ := opens.fault_of_error
      obtain ⟨c', herr⟩ := readPrint_eq_nulByte_iff.2 ⟨_, _, hrest, closes, hnul⟩
      exact hfault _ _ herr
  | @argument tag arguments _ _ _ behind _ opens _ spelled looks =>
      cases opens with
      | tag opens =>
          obtain ⟨c, -, hrest, hfault⟩ := opens.fault_of_error
          have hfails : PathFails scope tag c.rest position :=
            ⟨_, arguments, path, behind, hrest, spelled, looks, hnul⟩
          have herr : ∃ c', readTagRest scope tag c = .error (.nulByte position) c' := by
            cases looks with
            | branch => exact readBranch_eq_nulByte_iff.2 (.inl hfails)
            | raw => exact readRaw_eq_nulByte_iff.2 (.inl hfails)
            | loop => exact readLoop_eq_nulByte_iff.2 hfails
          obtain ⟨c', herr⟩ := herr
          exact hfault _ _ herr
      | @clause chain blanks _ opens hchain hblanks =>
          obtain ⟨c, -, rfl, hfault⟩ := opens.fault_of_error
          have hfails : ClauseFails scope c.rest position :=
            ⟨blanks, _, hchain, hblanks, _, arguments, path, behind, rfl, spelled, looks, hnul⟩
          obtain ⟨c', herr⟩ := readBranch_eq_nulByte_iff.2 (.inr hfails)
          exact hfault _ _ herr

theorem NulFault.fault_eq {origin : NulOrigin} (h : NulFault tags scope source origin position) :
    (ofBytes tags scope source).fault = some (.nulByte position) := by
  cases h with
  | @text front text behind index source_eq reached plain ends first =>
      obtain ⟨found, c, hmoved, hrest, hread⟩ := reached.ofBytes_eq
      have htext : c.rest.takeWhile (· != Sign.pound) = text := by
        rw [hrest]
        exact takeWhile_ne_pound (fun b hb hpound => plain (hpound ▸ hb)) ends
      rw [hread, Scope.ofCursor_nul htext first, hmoved.position_eq (hrest ▸ source_eq)]
  | @rawBody front behind blanks body rest cs index source_eq opens none encloses first =>
      obtain ⟨c, hmoved, hrest, hfault⟩ := opens.fault_of_error
      obtain ⟨before, hbefore, hposition⟩ := hmoved.exists_front
      have hfront : front = before ++ bytesOf cs := by
        rw [hrest, ← List.append_assoc, source_eq] at hbefore
        exact List.append_cancel_right hbefore
      obtain ⟨c', herr⟩ := readRaw_eq_nulByte_iff.2
        (.inr ⟨cs, behind, blanks, body, rest, index, hrest, none, encloses, first, rfl⟩)
      rw [hfault _ _ herr, hposition, hfront, List.length_append]
  | path _ pathAt nul => exact pathAt.fault_eq nul

/-- Reading a source ends at a zero byte exactly if that byte is listed, with the same position. -/
theorem fault_eq_nulByte_iff :
    (ofBytes tags scope source).fault = some (.nulByte position) ↔
      ∃ origin, NulFault tags scope source origin position := by
  constructor
  · exact fun h => exists_nulFault (.refl _) .start h
  · rintro ⟨origin, h⟩
    exact h.fault_eq

end Reading

/-! ## The first pass -/

/-- A piece fails in the first pass only if it embeds a file, and as that file does. -/
theorem Action.ofPiece_eq_error {nested : Nested} {extension path : String} {piece : Piece}
    {s s' : CompileState} {e : CompileError}
    (h : ofPiece nested extension path piece s = .error e s') :
    ∃ name, piece = .embedFile name ∧ nested.file (name ++ extension) path s = .error e s' := by
  cases piece with
  | embedFile name =>
      refine ⟨name, rfl, ?_⟩
      change (ActionOf.emit <$> nested.file (name ++ extension) path : CompileM Action) s = _ at h
      simp only [Functor.map, EStateM.map] at h
      split at h <;> cases h
      assumption
  | emit | scopedBody | loop | conditional | exportBody | importBody | extendFile => cases h

theorem mapM_eq_error {ε σ α β : Type} {f : α → EStateM ε σ β} {xs : List α} {e : ε} {s s' : σ}
    (h : xs.mapM f s = .error e s') : ∃ x ∈ xs, ∃ s₁, f x s₁ = .error e s' := by
  induction xs generalizing s with
  | nil => cases h
  | cons x xs ih =>
      rw [List.mapM_cons] at h
      simp only [Bind.bind, EStateM.bind] at h
      split at h
      next =>
        split at h
        · cases h
        next hxs =>
          cases h
          obtain ⟨y, hy, hfails⟩ := ih hxs
          exact ⟨y, List.mem_cons_of_mem _ hy, hfails⟩
      next hx =>
        cases h
        exact ⟨x, List.mem_cons_self, s, hx⟩

namespace Compiler

open Reading

variable {store : Store} {extension path : String} {source : Bytes} {s s' : CompileState}

/-- A zero byte that the first pass over a source finds at fault is one of those listed, or one of
a file that the source embeds.  It stands where its origin says: at the position in literal text,
at another one in a raw body, where moreover no zero byte stands at the position; and in a path at
the position only if the scope has replaced `self` by so much that it makes up for the bytes in
front of the path. -/
theorem scanSource_nulByte {position : Nat}
    (h : (usual store extension).scanSource source path s = .error (.nulByte position) s') :
    (∃ origin, NulFault builtinTags s.scope source origin position ∧
      (∀ place ∈ origin.place? s.scope position, source[place]? = some Opcode.stop) ∧
      (origin.place? s.scope position = some position ↔ origin = .text ∨
        ∃ start written outer, origin = .path start written ∧ s.scope = some outer ∧
          beginsWithSelf written = true ∧ outer.length = start + selfPath.length ∧
          outer.length ≤ position) ∧
      ∀ gap, origin = .rawBody gap → source[position]? ≠ some Opcode.stop) ∨
    ∃ name s₁, .embedFile name ∈ (Reading.ofBytes builtinTags s.scope source).pieces ∧
      (usual store extension).compileFileWith (usual store extension).blockOf
        (name ++ extension) path s₁ = .error (.nulByte position) s' := by
  rw [scanSource_eq_scan, Action.scan_eq rfl] at h
  simp only [Bind.bind, EStateM.bind] at h
  split at h
  next hpass =>
    cases hfault : (Reading.ofBytes builtinTags s.scope source).fault with
    | none =>
        rw [hfault] at h
        cases h
    | some e =>
        rw [hfault] at h
        cases h
        obtain ⟨origin, horigin⟩ := fault_eq_nulByte_iff.1 hfault
        refine .inl ⟨origin, horigin, fun _ => horigin.stands, horigin.place?_eq_position_iff, ?_⟩
        rintro gap rfl
        exact horigin.not_at_position_of_rawBody
  next hpass =>
    cases h
    obtain ⟨piece, hpiece, s₁, hfails⟩ := mapM_eq_error hpass
    obtain ⟨name, rfl, hfile⟩ := Action.ofPiece_eq_error hfails
    exact .inr ⟨name, s₁, hpiece, hfile⟩

/-- Raw text with a blank before its body. -/
def rawSource : Bytes := Utf8.encode "#raw() \x7ba\x00\x7d"

/-- A path that begins with `self`. -/
def dottedSource : Bytes := Utf8.encode "#(self.b\x00)"

/-- Under a scope whose path is as long as what stands in front of `.b` in the source. -/
def wideState : CompileState := { CompileState.fresh with scope := some (Utf8.encode "u.v.wx") }

theorem scanSource_rawSource :
    plain.scanSource rawSource "" .fresh = .error (.nulByte 7) .fresh := by
  decide +kernel

theorem scanSource_nulByte_rawSource :
    plain.scanSource rawSource "" .fresh = .error (.nulByte 7) .fresh ∧
    (∃ origin, NulFault builtinTags none rawSource origin 7 ∧ origin.place? none 7 = some 9) ∧
    plain.scanSource dottedSource "" wideState = .error (.nulByte 8) wideState ∧
    ∃ origin, NulFault builtinTags wideState.scope dottedSource origin 8 ∧
      origin.place? wideState.scope 8 = some 8 := by
  have hself : plain.scanSource dottedSource "" wideState = .error (.nulByte 8) wideState := by
    decide +kernel
  have hraw : ∀ place, rawSource[place]? = some Opcode.stop → place = 9 := by
    intro place hplace
    have hlt : place < 11 := (List.getElem?_eq_some_iff.1 hplace).1
    exact (by decide +kernel : ∀ i < 11, rawSource[i]? = some Opcode.stop → i = 9) place hlt hplace
  have hpath : ∀ place, dottedSource[place]? = some Opcode.stop → place = 8 := by
    intro place hplace
    have hlt : place < 10 := (List.getElem?_eq_some_iff.1 hplace).1
    exact (by decide +kernel : ∀ i < 10, dottedSource[i]? = some Opcode.stop → i = 8) place hlt hplace
  refine ⟨scanSource_rawSource, ?_, hself, ?_⟩
  · rcases scanSource_nulByte scanSource_rawSource with
      ⟨origin, hfault, hstands, -⟩ | ⟨name, _, hpiece, -⟩
    · obtain ⟨place, hplace⟩ : ∃ place, origin.place? none 7 = some place := by
        cases origin <;> exact ⟨_, rfl⟩
      exact ⟨origin, hfault, hplace.trans (congrArg some (hraw _ (hstands _ hplace)))⟩
    · have hnone : (Reading.ofBytes builtinTags none rawSource).pieces = [] := by decide +kernel
      rw [show CompileState.fresh.scope = none from rfl, hnone] at hpiece
      cases hpiece
  · rcases scanSource_nulByte hself with ⟨origin, hfault, hstands, -⟩ | ⟨name, _, hpiece, -⟩
    · obtain ⟨place, hplace⟩ : ∃ place, origin.place? wideState.scope 8 = some place := by
        cases origin with
        | text | rawBody => exact ⟨_, rfl⟩
        | path start written =>
            simp only [NulOrigin.place?, wideState]
            split
            · exact ⟨_, rfl⟩
            · exact ⟨_, if_neg (by decide +kernel)⟩
      exact ⟨origin, hfault, hplace.trans (congrArg some (hpath _ (hstands _ hplace)))⟩
    · have hnone : (Reading.ofBytes builtinTags wideState.scope dottedSource).pieces = [] := by
        decide +kernel
      rw [hnone] at hpiece
      cases hpiece

/-- The zero byte of a raw body need not stand at the position of the fault: there the body
begins. -/
theorem nulByte_off_position : plain.scanSource rawSource "" .fresh = .error (.nulByte 7) .fresh ∧
    rawSource[7]? = some Sign.braceOpen ∧ rawSource[9]? = some Opcode.stop :=
  ⟨scanSource_rawSource, by decide +kernel, by decide +kernel⟩

/-- Nor need that of a path. -/
example : plain.scanSource (Utf8.encode "#(a\x00b)") "" .fresh = .error (.nulByte 1) .fresh ∧
    (Utf8.encode "#(a\x00b)")[3]? = some Opcode.stop := by
  decide +kernel

end Compiler

end Stencil
