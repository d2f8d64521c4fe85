/-
# `Stencil.Proofs.Extent` — what a tag takes from its source

A reader of source takes the bytes that it stands at, one after the other, and leaves
those behind them.  Three things follow, on which compilation rests.

* The bodies and the names in a piece are parts of the text that the piece was read
  from, and a body is shorter than that text (`Piece.Within`).
* A reader does not see what lies far ahead.  Text may be put behind what it was given,
  and it reads the same: but for two tags, which look one step beyond their end.  A tag
  that prints looks for a body, and a condition for one more clause (`Apart`).
* What goes wrong is a fault of the source, never a matter of files or exports
  (`CompileError.IsFault`).

`Takes r P ahead` says all of that about a reader `r` at once: `P` relates the bytes that
it takes to its value, and `ahead` is what it asks of the text behind.  There is one
lemma for each reader.  `Gives r taken after a` is the part of it that is needed to read
text which is known: before `after`, the bytes `taken` are read as `a`.
-/
import Stencil.Proofs.Request
import Stencil.Proofs.Scoping

namespace Stencil

open EStateM (Result)

/-! ## Faults of a source -/

/-- The errors that reading a source can end in. -/
def CompileError.IsFault : CompileError → Prop
  | .nulByte _ | .blankInTagName _ | .unknownTag _ | .tagNotOpened _ | .tagNotClosed _
  | .missingByte .. | .blankInPath _ | .emptyPath _ | .malformedText _ | .badArguments .. => True
  | .unexpectedEnd _ | .notExported _ | .fileDoesNotExist _ | .circularInclude _
  | .circularImport _ | .nestingTooDeep => False

/-! ## Readers -/

namespace SourceReader

/-- Where the bytes `taken` and then `after` lie ahead, the reader takes the first and
gives the value. -/
def Gives {α : Type} (r : SourceReader α) (taken after : Bytes) (a : α) : Prop :=
  ∀ c : Cursor, c.rest = taken ++ after → ∃ c', r c = .ok a c' ∧ c'.rest = after

namespace Gives

variable {α β : Type} {r : SourceReader α} {taken after : Bytes} {a : α}

theorem pure : Gives (Pure.pure a) [] after a :=
  fun c hc => ⟨c, rfl, hc⟩

theorem bind {f : α → SourceReader β} {more : Bytes} {b : β}
    (hr : Gives r taken (more ++ after) a) (hf : Gives (f a) more after b) :
    Gives (r >>= f) (taken ++ more) after b := by
  intro c hc
  rw [List.append_assoc] at hc
  obtain ⟨c₁, hok₁, hrest₁⟩ := hr c hc
  obtain ⟨c₂, hok₂, hrest₂⟩ := hf c₁ hrest₁
  refine ⟨c₂, ?_, hrest₂⟩
  simp only [Bind.bind, EStateM.bind, hok₁, hok₂]

/-- A reader that takes text, and then one that takes none. -/
theorem bind_nil {f : α → SourceReader β} {b : β} (hr : Gives r taken after a)
    (hf : Gives (f a) [] after b) : Gives (r >>= f) taken after b := by
  have hboth : Gives (r >>= f) (taken ++ []) after b := hr.bind hf
  rwa [List.append_nil] at hboth

theorem map {f : α → β} (hr : Gives r taken after a) : Gives (f <$> r) taken after (f a) := by
  intro c hc
  obtain ⟨c', hok, hrest⟩ := hr c hc
  refine ⟨c', ?_, hrest⟩
  simp only [Functor.map, EStateM.map, hok]

end Gives

theorem checked_bind {α β : Type} {x : Except CompileError α} {a : α} (h : x = .ok a)
    (f : α → SourceReader β) : checked x >>= f = f a := by
  subst h
  rfl

/-- Whatever text follows. -/
def Anywhere (_before _after : Bytes) : Prop := True

/-- Where `after` follows instead of `before`, no body and no clause begins that did not
begin then. -/
def Apart (before after : Bytes) : Prop :=
  ((after.dropWhile Bytes.isBlank).head? = some Sign.braceOpen →
    (before.dropWhile Bytes.isBlank).head? = some Sign.braceOpen) ∧
  (clauseSign <+: after.dropWhile Bytes.isBlank → clauseSign <+: before.dropWhile Bytes.isBlank)

/-- The reader takes the bytes that it stands at, and `P` relates them to its value; it
takes the same where other text follows them, if `ahead` allows that; and it fails by a
fault of the source. -/
structure Takes {α : Type} (r : SourceReader α) (P : Bytes → α → Prop)
    (ahead : Bytes → Bytes → Prop) : Prop where
  ok : ∀ {c a c'}, r c = .ok a c' → ∃ taken, c.rest = taken ++ c'.rest ∧ P taken a ∧
    ∀ after, ahead c'.rest after → Gives r taken after a
  error : ∀ {c e c'}, r c = .error e c' → e.IsFault

/-- The value of the reader has nothing to do with the bytes taken. -/
def Unrelated {α : Type} (_taken : Bytes) (_a : α) : Prop := True

namespace Takes

variable {α β : Type} {r : SourceReader α} {P : Bytes → α → Prop} {W : Bytes → β → Prop}
  {ahead : Bytes → Bytes → Prop}

theorem pure {a : α} (h : P [] a) : Takes (Pure.pure a : SourceReader α) P ahead where
  ok := by
    rintro c _ _ ⟨⟩
    exact ⟨[], rfl, h, fun _ _ => .pure⟩
  error := nofun

theorem throw {e : CompileError} (h : e.IsFault) : Takes (throw e : SourceReader α) P ahead where
  ok := nofun
  error := by
    rintro c _ _ ⟨⟩
    exact h

theorem imp {P' : Bytes → α → Prop} (hr : Takes r P ahead)
    (h : ∀ taken a, P taken a → P' taken a) : Takes r P' ahead where
  ok hok := by
    obtain ⟨taken, hrest, hP, hgives⟩ := hr.ok hok
    exact ⟨taken, hrest, h _ _ hP, hgives⟩
  error := hr.error

/-- A reader that does not look ahead may stand where one does. -/
theorem anywhere (hr : Takes r P Anywhere) : Takes r P ahead where
  ok hok := by
    obtain ⟨taken, hrest, hP, hgives⟩ := hr.ok hok
    exact ⟨taken, hrest, hP, fun after _ => hgives after trivial⟩
  error := hr.error

/-- What comes first takes bytes of its own, and does not look ahead. -/
theorem bind {f : α → SourceReader β} (hr : Takes r P Anywhere)
    (hf : ∀ a, Takes (f a) (fun taken b => ∀ before, P before a → W (before ++ taken) b) ahead) :
    Takes (r >>= f) W ahead where
  ok := by
    intro c b c' hok
    obtain ⟨a, c₁, h₁, h₂⟩ := Reader.bind_eq_ok hok
    obtain ⟨first, hfirst, hP, hgives₁⟩ := hr.ok h₁
    obtain ⟨second, hsecond, hW, hgives₂⟩ := (hf a).ok h₂
    refine ⟨first ++ second, ?_, hW first hP, ?_⟩
    · rw [hfirst, hsecond, List.append_assoc]
    · intro after hahead
      exact (hgives₁ _ trivial).bind (hgives₂ after hahead)
  error := by
    intro c e c' herr
    simp only [Bind.bind, EStateM.bind] at herr
    split at herr
    next a c₁ h₁ => exact (hf a).error herr
    next h₁ => cases herr; exact hr.error h₁

/-- What comes first does not matter for the value. -/
theorem after {f : α → SourceReader β} (hr : Takes r P Anywhere)
    (hW : ∀ before taken b, W taken b → W (before ++ taken) b) (hf : ∀ a, Takes (f a) W ahead) :
    Takes (r >>= f) W ahead :=
  hr.bind fun a => (hf a).imp fun _ _ h _ _ => hW _ _ _ h

theorem map {f : α → β} (hr : Takes r P ahead) (h : ∀ taken a, P taken a → W taken (f a)) :
    Takes (f <$> r) W ahead where
  ok := by
    intro c b c' hok
    simp only [Functor.map, EStateM.map] at hok
    split at hok <;> cases hok
    next a _ h₁ =>
      obtain ⟨taken, hrest, hP, hgives⟩ := hr.ok h₁
      exact ⟨taken, hrest, h _ _ hP, fun after hahead => (hgives after hahead).map⟩
  error := by
    intro c e c' herr
    simp only [Functor.map, EStateM.map] at herr
    split at herr <;> cases herr
    exact hr.error (by assumption)

/-- A reader that reports the position where it began. -/
theorem positioned {f : Nat → SourceReader α} (hf : ∀ start, Takes (f start) P ahead)
    (hsame : ∀ {start start' c a c'}, f start c = .ok a c' → f start' c = .ok a c') :
    Takes (do f (← get).position) P ahead where
  ok := by
    intro c a c' hok
    obtain ⟨taken, hrest, hP, hgives⟩ := (hf c.position).ok hok
    refine ⟨taken, hrest, hP, ?_⟩
    intro after hahead d hd
    obtain ⟨d', hd', hrest'⟩ := hgives after hahead d hd
    exact ⟨d', hsame hd', hrest'⟩
  error herr := (hf _).error herr

theorem checked {x : Except CompileError α} (h : ∀ a, x = .ok a → P [] a)
    (herr : ∀ e, x = .error e → e.IsFault) : Takes (SourceReader.checked x) P ahead := by
  cases x with
  | ok a => exact pure (h a rfl)
  | error e => exact throw (herr e rfl)

end Takes

/-! ### The parts of a tag -/

theorem drop_length_takeWhile (p : UInt8 → Bool) (bs : Bytes) :
    bs.drop (bs.takeWhile p).length = bs.dropWhile p := by
  induction bs with
  | nil => rfl
  | cons b bs ih => cases h : p b <;> simp [List.takeWhile, List.dropWhile, h, ih]

theorem rest_skipBlanks (c : Cursor) : c.skipBlanks.rest = c.rest.dropWhile Bytes.isBlank :=
  drop_length_takeWhile _ _

theorem gives_expectByte (b : UInt8) (after : Bytes) : Gives (expectByte b) [b] after () := by
  intro c hc
  have hpeek : c.peek 0 = some b := by rw [Cursor.peek, hc]; rfl
  refine ⟨c.forward 1, ?_, ?_⟩
  · rw [expectByte, if_pos hpeek]
  · show c.rest.drop 1 = after
    rw [hc]
    rfl

theorem expectByte_eq_ok {b : UInt8} {c c' : Cursor} (h : expectByte b c = .ok () c') :
    c.rest = b :: c'.rest := by
  unfold expectByte at h
  split at h <;> cases h
  next hpeek =>
    cases hrest : c.rest with
    | nil => rw [Cursor.peek, hrest] at hpeek; cases hpeek
    | cons x xs =>
        rw [Cursor.peek, hrest] at hpeek
        cases hpeek
        show b :: xs = b :: c.rest.drop 1
        rw [hrest]
        rfl

theorem takes_expectByte (b : UInt8) :
    Takes (expectByte b) (fun taken _ => taken = [b]) Anywhere where
  ok h := ⟨[b], expectByte_eq_ok h, rfl, fun after _ => gives_expectByte b after⟩
  error := by
    intro c e c' h
    unfold expectByte at h
    split at h <;> cases h
    trivial

section ReadUntil

variable {isDelimiter : UInt8 → Bool}

theorem takeWhile_append_delimiter {text after : Bytes} {b : UInt8}
    (htext : ∀ y ∈ text, isDelimiter y = false) (hb : isDelimiter b = true) :
    (text ++ b :: after).takeWhile (fun y => !isDelimiter y) = text := by
  rw [List.takeWhile_append_of_pos fun y hy => by simp [htext y hy]]
  simp [hb]

theorem gives_readUntil {text : Bytes} {b : UInt8} (htext : ∀ y ∈ text, isDelimiter y = false)
    (hb : isDelimiter b = true) (required : Bool) (after : Bytes) :
    Gives (readUntil isDelimiter required) (text ++ [b]) after text := by
  intro c hc
  rw [List.append_assoc, List.singleton_append] at hc
  refine ⟨c.forward (text.length + 1), ?_, ?_⟩
  · simp only [readUntil, hc, takeWhile_append_delimiter htext hb, List.drop_left]
  · exact Cursor.rest_forward_of_append_cons hc

/-- Behind the bytes that are no delimiters, there is a delimiter. -/
theorem eq_append_of_drop {text bs : Bytes} {b : UInt8}
    (h : text.drop (text.takeWhile fun y => !isDelimiter y).length = b :: bs) :
    text = (text.takeWhile fun y => !isDelimiter y) ++ b :: bs ∧ isDelimiter b = true ∧
      ∀ y ∈ text.takeWhile fun y => !isDelimiter y, isDelimiter y = false := by
  rw [drop_length_takeWhile] at h
  refine ⟨?_, ?_, fun y hy => ?_⟩
  · rw [← h, List.takeWhile_append_dropWhile]
  · have hhead := List.head?_dropWhile_not (fun y => !isDelimiter y) text
    rw [h] at hhead
    simpa using hhead
  · simpa using List.all_eq_true.1 List.all_takeWhile y hy

theorem readUntil_eq_ok {c c' : Cursor} {text : Bytes}
    (h : readUntil isDelimiter true c = .ok text c') :
    ∃ b, c.rest = text ++ b :: c'.rest ∧ isDelimiter b = true ∧
      ∀ y ∈ text, isDelimiter y = false := by
  simp only [readUntil] at h
  split at h
  next b bs hdrop =>
    cases h
    obtain ⟨hrest, hb, hplain⟩ := eq_append_of_drop hdrop
    refine ⟨b, ?_, hb, hplain⟩
    show c.rest = _ ++ b :: c.rest.drop (_ + 1)
    rw [← List.drop_drop, hdrop]
    exact hrest
  next =>
    rw [if_pos trivial] at h
    cases h

theorem readUntil_eq_error {c c' : Cursor} {e : CompileError} {required : Bool}
    (h : readUntil isDelimiter required c = .error e c') :
    ∃ position, e = .unexpectedEnd position := by
  simp only [readUntil] at h
  split at h
  · cases h
  · split at h <;> cases h
    exact ⟨_, rfl⟩

end ReadUntil

theorem gives_readTagString {text : Bytes} (h : Sign.quote ∉ text) (after : Bytes) :
    Gives readTagString (Sign.quote :: text ++ [Sign.quote]) after text := by
  have hplain : ∀ y ∈ text, (y == Sign.quote) = false := by
    intro y hy
    exact beq_eq_false_iff_ne.2 fun heq => h (heq ▸ hy)
  have hstring : Gives readString ([Sign.quote] ++ (text ++ [Sign.quote])) after text :=
    (gives_expectByte _ _).bind (gives_readUntil hplain (beq_self_eq_true _) true after)
  intro c hc
  obtain ⟨c', hok, hrest⟩ := hstring c hc
  have hend : c.atEnd = false := by rw [Cursor.atEnd, hc]; rfl
  refine ⟨c', ?_, hrest⟩
  simp only [readTagString, hend, hok, Bool.false_eq_true, if_false]

/-- A string ends with the first quote behind the one that begins it. -/
theorem readTagString_eq_ok {c c' : Cursor} {text : Bytes} (h : readTagString c = .ok text c') :
    c.rest = Sign.quote :: (text ++ Sign.quote :: c'.rest) ∧ Sign.quote ∉ text := by
  unfold readTagString at h
  split at h
  · cases h
  · split at h
    · cases h
    · obtain ⟨_, c₁, h₁, h₂⟩ := Reader.bind_eq_ok h
      obtain ⟨b, hrest, hb, hplain⟩ := readUntil_eq_ok h₂
      obtain rfl : b = Sign.quote := eq_of_beq hb
      refine ⟨by rw [expectByte_eq_ok h₁, hrest], ?_⟩
      intro hmem
      exact absurd rfl (beq_eq_false_iff_ne.1 (hplain _ hmem))

theorem takes_readTagString :
    Takes readTagString (fun taken text => taken = Sign.quote :: text ++ [Sign.quote]) Anywhere where
  ok := by
    intro c text c' h
    obtain ⟨hrest, hquote⟩ := readTagString_eq_ok h
    exact ⟨_, by rw [hrest]; simp, rfl, fun after _ => gives_readTagString hquote after⟩
  error := by
    intro c e c' h
    unfold readTagString at h
    split at h
    · cases h; trivial
    · split at h
      · cases h; trivial
      next hother =>
        simp only [readString, Bind.bind, EStateM.bind] at h
        split at h
        next h₁ =>
          obtain ⟨position, rfl⟩ := readUntil_eq_error h
          refine absurd ?_ (hother position c')
          simp only [readString, Bind.bind, EStateM.bind, h₁, h]
        next h₁ => cases h; exact (takes_expectByte _).error h₁

theorem gives_closeTag (after : Bytes) : Gives closeTag [Sign.parenClose] after () := by
  intro c hc
  have hend : c.atEnd = false := by rw [Cursor.atEnd, hc]; rfl
  rw [closeTag, hend]
  exact gives_expectByte _ _ c hc

theorem takes_closeTag : Takes closeTag (fun taken _ => taken = [Sign.parenClose]) Anywhere where
  ok := by
    intro c _ c' h
    unfold closeTag at h
    split at h
    · cases h
    · exact ⟨[Sign.parenClose], expectByte_eq_ok h, rfl, fun after _ => gives_closeTag after⟩
  error := by
    intro c e c' h
    unfold closeTag at h
    split at h
    · cases h; trivial
    · exact (takes_expectByte _).error h

/-- The bytes between the pound sign of a tag and its parenthesis. -/
theorem gives_readTagName {name : Bytes}
    (h : ∀ b ∈ name, Bytes.isBlank b = false ∧ b ≠ Sign.parenOpen) (after : Bytes) :
    Gives readTagName (name ++ [Sign.parenOpen]) after name := by
  have hname : ∀ b ∈ name, (!(Bytes.isBlank b || b == Sign.parenOpen)) = true := by
    intro b hb
    simp [(h b hb).1, (h b hb).2]
  intro c hc
  rw [List.append_assoc, List.singleton_append] at hc
  have htake : c.rest.takeWhile (fun b => !(Bytes.isBlank b || b == Sign.parenOpen)) = name := by
    rw [hc, List.takeWhile_append_of_pos hname]
    simp
  refine ⟨c.forward (name.length + 1), ?_, ?_⟩
  · simp only [readTagName, htake]
    rw [hc, List.drop_left]
    rfl
  · exact Cursor.rest_forward_of_append_cons hc

theorem readTagName_eq_ok {c c' : Cursor} {name : Bytes} (h : readTagName c = .ok name c') :
    c.rest = name ++ [Sign.parenOpen] ++ c'.rest ∧
      ∀ b ∈ name, Bytes.isBlank b = false ∧ b ≠ Sign.parenOpen := by
  simp only [readTagName] at h
  split at h
  · cases h
  next b bs hdrop =>
    split at h <;> cases h
    next hb =>
      subst hb
      obtain ⟨hrest, -, hplain⟩ := eq_append_of_drop hdrop
      constructor
      · show c.rest = _ ++ _ ++ c.rest.drop (_ + 1)
        rw [← List.drop_drop, hdrop, List.append_assoc]
        exact hrest
      · intro b hb
        simpa using hplain b hb

theorem takes_readTagName :
    Takes readTagName (fun taken name => taken = name ++ [Sign.parenOpen]) Anywhere where
  ok := by
    intro c name c' h
    obtain ⟨hrest, hname⟩ := readTagName_eq_ok h
    exact ⟨_, hrest, rfl, fun after _ => gives_readTagName hname after⟩
  error := by
    intro c e c' h
    simp only [readTagName] at h
    split at h
    · cases h; trivial
    · split at h <;> cases h
      trivial

theorem readArgumentsFrom_cons {found : Bytes} {c : Cursor} {b : UInt8} {bs : Bytes}
    (h : c.rest = b :: bs) : readArgumentsFrom found c =
      if b = Sign.parenClose then .ok found.reverse (c.past h)
      else if b = Sign.quote then
        match readTagString c with
        | .error e c' => .error e c'
        | .ok s c' => readArgumentsFrom (Sign.quote :: s.reverseAux (Sign.quote :: found)) c'
      else readArgumentsFrom (b :: found) (c.past h) := by
  rw [readArgumentsFrom]
  split
  next hend => cases hend.symm.trans h
  next hnext =>
    cases hnext.symm.trans h
    split
    · rfl
    · split
      · split <;> simp [*]
      · rfl

theorem takes_readArguments :
    Takes readArguments (fun taken raw => taken = raw ++ [Sign.parenClose]) Anywhere := by
  suffices ∀ found, Takes (readArgumentsFrom found)
    (fun taken raw => found.reverse ++ taken = raw ++ [Sign.parenClose]) Anywhere from this []
  intro found
  constructor
  · intro c a c' h
    fun_induction readArgumentsFrom found c with
    | case1 => cases h
    | case2 found c bs hc =>
        cases h
        refine ⟨[Sign.parenClose], hc, rfl, fun after _ d hd => ?_⟩
        exact ⟨_, by rw [readArgumentsFrom_cons hd, if_pos rfl], rfl⟩
    | case3 => cases h
    | case4 found c bs s c₁ hread hc hclose ih =>
        obtain ⟨_, hfirst, rfl, hgives₁⟩ := takes_readTagString.ok hread
        obtain ⟨second, hsecond, hraw, hgives₂⟩ := ih h
        rw [hsecond, ← List.append_assoc] at hfirst
        refine ⟨_, hfirst, ?_, fun after _ d hd => ?_⟩
        · simpa [List.reverseAux_eq] using hraw
        rw [List.append_assoc] at hd
        obtain ⟨d₁, hd₁, hrest₁⟩ := hgives₁ (second ++ after) trivial d hd
        obtain ⟨d₂, hd₂, hrest₂⟩ := hgives₂ after trivial d₁ hrest₁
        refine ⟨d₂, ?_, hrest₂⟩
        rw [readArgumentsFrom_cons hd, if_neg hclose, if_pos rfl, hd₁]
        exact hd₂
    | case5 found c b bs hc hclose hquote ih =>
        obtain ⟨taken, htaken, hraw, hgives⟩ := ih h
        refine ⟨b :: taken, ?_, ?_, fun after _ d hd => ?_⟩
        · rw [hc]
          exact congrArg (b :: ·) htaken
        · simpa using hraw
        · obtain ⟨d', hd', hrest⟩ := hgives after trivial (d.past hd) rfl
          refine ⟨d', ?_, hrest⟩
          rw [readArgumentsFrom_cons hd, if_neg hclose, if_neg hquote]
          exact hd'
  · intro c e c' h
    fun_induction readArgumentsFrom found c with
    | case1 => cases h; trivial
    | case2 => cases h
    | case3 => cases h; exact takes_readTagString.error (by assumption)
    | case4 _ _ _ _ _ _ _ _ ih => exact ih h
    | case5 _ _ _ _ _ _ _ ih => exact ih h

section ReadArguments

variable {found raw more after : Bytes}

/-- Bytes that neither close nor begin a string are read one by one. -/
theorem gives_readArgumentsFrom_plain {plain : Bytes}
    (h : ∀ b ∈ plain, b ≠ Sign.parenClose ∧ b ≠ Sign.quote)
    (hmore : Gives (readArgumentsFrom (plain.reverse ++ found)) more after raw) :
    Gives (readArgumentsFrom found) (plain ++ more) after raw := by
  induction plain generalizing found with
  | nil => exact hmore
  | cons b plain ih =>
      intro c hc
      obtain ⟨hclose, hquote⟩ := h b List.mem_cons_self
      rw [List.reverse_cons, List.append_assoc] at hmore
      obtain ⟨c', hok, hrest⟩ :=
        ih (fun b hb => h b (List.mem_cons_of_mem _ hb)) hmore (c.past hc) rfl
      refine ⟨c', ?_, hrest⟩
      rw [readArgumentsFrom_cons hc, if_neg hclose, if_neg hquote]
      exact hok

/-- A string is read as a whole. -/
theorem gives_readArgumentsFrom_string {text : Bytes} (h : Sign.quote ∉ text)
    (hmore : Gives (readArgumentsFrom (Sign.quote :: text.reverseAux (Sign.quote :: found))) more
      after raw) :
    Gives (readArgumentsFrom found) (Sign.quote :: text ++ [Sign.quote] ++ more) after raw := by
  intro c hc
  rw [List.append_assoc] at hc
  obtain ⟨c₁, hread, hrest₁⟩ := gives_readTagString h (more ++ after) c hc
  obtain ⟨c₂, hok, hrest₂⟩ := hmore c₁ hrest₁
  refine ⟨c₂, ?_, hrest₂⟩
  have hne : Sign.quote ≠ Sign.parenClose := by decide
  rw [readArgumentsFrom_cons hc, if_neg hne, if_pos rfl, hread]
  exact hok

/-- The parenthesis that closes ends them. -/
theorem gives_readArgumentsFrom_close (found after : Bytes) :
    Gives (readArgumentsFrom found) [Sign.parenClose] after found.reverse := by
  intro c hc
  exact ⟨c.past hc, by rw [readArgumentsFrom_cons hc, if_pos rfl], rfl⟩

end ReadArguments

/-- Arguments without strings end at the first parenthesis that closes. -/
theorem gives_readArguments {raw : Bytes}
    (h : ∀ b ∈ raw, b ≠ Sign.parenClose ∧ b ≠ Sign.quote) (after : Bytes) :
    Gives readArguments (raw ++ [Sign.parenClose]) after raw := by
  refine gives_readArgumentsFrom_plain h ?_
  have hclose := gives_readArgumentsFrom_close raw.reverse after
  rw [List.reverse_reverse] at hclose
  rwa [List.append_nil]

/-! ### Bodies -/

/-- One byte of a body: a brace opens or closes, if braces are counted, or the first that
closes ends the body. -/
theorem closingIndex?_cons (counting : Bool) (depth count : Nat) (b : UInt8) (bs : Bytes) :
    closingIndex? counting depth count (b :: bs) =
      if (b == Sign.braceOpen && counting) = true then
        closingIndex? counting (depth + 1) (count + 1) bs
      else if b = Sign.braceClose then
        match depth with
        | 0 => some count
        | depth + 1 => closingIndex? counting depth (count + 1) bs
      else closingIndex? counting depth (count + 1) bs := by
  cases depth <;> rfl

/-- A body ends with a brace, and what follows that does not matter. -/
theorem closingIndex?_eq_some {counting : Bool} {depth count n : Nat} {bs : Bytes}
    (h : closingIndex? counting depth count bs = some n) :
    ∃ body rest, bs = body ++ Sign.braceClose :: rest ∧ n = count + body.length ∧
      ∀ after, closingIndex? counting depth count (body ++ Sign.braceClose :: after) = some n := by
  induction bs generalizing depth count with
  | nil => cases h
  | cons b bs ih =>
      -- `b` is a byte of the body, and the rest of the body is read from another depth.
      have later : ∀ {d}, closingIndex? counting d (count + 1) bs = some n →
          (∀ bs, closingIndex? counting depth count (b :: bs) =
            closingIndex? counting d (count + 1) bs) →
          ∃ body rest, b :: bs = body ++ Sign.braceClose :: rest ∧ n = count + body.length ∧
            ∀ after,
              closingIndex? counting depth count (body ++ Sign.braceClose :: after) = some n := by
        intro d hd hstep
        obtain ⟨body, rest, rfl, rfl, hafter⟩ := ih hd
        refine ⟨b :: body, rest, rfl, by rw [List.length_cons]; omega, fun after => ?_⟩
        rw [List.cons_append, hstep]
        exact hafter after
      have hcons := closingIndex?_cons counting depth count b
      by_cases hopen : (b == Sign.braceOpen && counting) = true
      · simp only [hopen, if_true] at hcons
        exact later ((hcons bs).symm.trans h) hcons
      · simp only [if_neg hopen] at hcons
        by_cases hclose : b = Sign.braceClose
        · simp only [if_pos hclose] at hcons
          cases depth with
          | zero =>
              subst hclose
              cases (hcons bs).symm.trans h
              exact ⟨[], bs, rfl, rfl, hcons⟩
          | succ depth => exact later ((hcons bs).symm.trans h) hcons
        · simp only [if_neg hclose] at hcons
          exact later ((hcons bs).symm.trans h) hcons

/-- A body in its braces, with blanks in front of it. -/
theorem gives_readBody {counting : Bool} {blanks body : Bytes}
    (hblanks : ∀ b ∈ blanks, Bytes.isBlank b = true) (after : Bytes)
    (hbody : closingIndex? counting 0 0 (body ++ Sign.braceClose :: after) = some body.length) :
    Gives (readBody counting) (blanks ++ Sign.braceOpen :: (body ++ [Sign.braceClose])) after
      body := by
  intro c hc
  have hskip : c.skipBlanks.rest = [Sign.braceOpen] ++ (body ++ Sign.braceClose :: after) := by
    rw [rest_skipBlanks, hc, List.append_assoc, List.dropWhile_append_of_pos hblanks]
    simp [Bytes.isBlank, Sign.braceOpen]
  obtain ⟨c₁, hopen, hrest⟩ := gives_expectByte _ _ c.skipBlanks hskip
  refine ⟨c₁.forward (body.length + 1), ?_, ?_⟩
  · simp only [readBody, Bind.bind, EStateM.bind, skipBlanks, hopen, readBodyEnd, hrest, hbody,
      List.take_left]
  · exact Cursor.rest_forward_of_append_cons hrest

/-- A body that is read stands in its braces, behind the blanks ahead, and ends alike whatever
follows. -/
theorem readBody_eq_ok {counting : Bool} {c c' : Cursor} {body : Bytes}
    (h : readBody counting c = .ok body c') :
    ∃ blanks, (∀ b ∈ blanks, Bytes.isBlank b = true) ∧
      c.rest = blanks ++ Sign.braceOpen :: (body ++ Sign.braceClose :: c'.rest) ∧
      ∀ after, closingIndex? counting 0 0 (body ++ Sign.braceClose :: after) =
        some body.length := by
  obtain ⟨_, c₁, h₁, h₂⟩ := Reader.bind_eq_ok h
  obtain ⟨_, c₂, h₃, h₄⟩ := Reader.bind_eq_ok h₂
  cases h₁
  have hopen := expectByte_eq_ok h₃
  rw [rest_skipBlanks] at hopen
  unfold readBodyEnd at h₄
  split at h₄ <;> cases h₄
  next n hn =>
    obtain ⟨body, rest, hbody, hlen, hafter⟩ := closingIndex?_eq_some hn
    obtain rfl : n = body.length := hlen.trans (Nat.zero_add _)
    have htake : c₂.rest.take body.length = body := by rw [hbody, List.take_left]
    rw [htake, Cursor.rest_forward_of_append_cons hbody, ← hbody, ← hopen]
    exact ⟨c.rest.takeWhile Bytes.isBlank, List.all_eq_true.1 List.all_takeWhile,
      List.takeWhile_append_dropWhile.symm, hafter⟩

theorem takes_readBody (counting : Bool) :
    Takes (readBody counting) (fun taken body => PartOf body taken) Anywhere where
  ok := by
    intro c body c' h
    obtain ⟨blanks, hblanks, hrest, hafter⟩ := readBody_eq_ok h
    refine ⟨blanks ++ Sign.braceOpen :: (body ++ [Sign.braceClose]), ?_,
      ⟨⟨blanks ++ [Sign.braceOpen], [Sign.braceClose], ?_⟩, ?_⟩,
      fun after _ => gives_readBody hblanks after (hafter after)⟩
    · rw [hrest]
      simp
    · simp
    · simp
      omega
  error := by
    intro c e c' h
    simp only [readBody, Bind.bind, EStateM.bind, skipBlanks] at h
    split at h
    next h₁ =>
      unfold readBodyEnd at h
      split at h <;> cases h
      trivial
    next h₁ => cases h; exact (takes_expectByte _).error h₁

/-! ### Arguments -/

theorem takes_decodeText (data : Bytes) {ahead : Bytes → Bytes → Prop} :
    Takes (checked (decodeText data)) (fun _ text => Utf8.encode text = data) ahead := by
  refine .checked ?_ ?_ <;> intro x hx <;> unfold decodeText at hx <;> split at hx <;> cases hx
  · exact Utf8.decode?_eq_some_iff.1 (by assumption)
  · trivial

theorem decodeText_encode (s : String) : decodeText (Utf8.encode s) = .ok s := by
  rw [decodeText, Utf8.decode?_encode]

theorem isFault_of_parse {path : Bytes} {e : CompileError} (h : Path.parse path = .error e) :
    e.IsFault := by
  unfold Path.parse at h
  split at h
  · cases h; trivial
  · split at h
    · cases h; trivial
    · dsimp only at h
      split at h
      · cases h; trivial
      · split at h <;> cases h
        trivial

theorem takes_parseScoped (scope : Option Bytes) (path : Bytes) {ahead : Bytes → Bytes → Prop} :
    Takes (checked (parseScoped scope path))
      (fun _ segments => Path.parse (scopedPath scope path) = .ok segments) ahead :=
  .checked (fun _ h => h) fun _ h => isFault_of_parse h

theorem takes_parseArguments (tag : String) (raw : Bytes) {ahead : Bytes → Bytes → Prop} :
    Takes (checked (parseArguments tag raw)) Unrelated ahead := by
  refine .checked (fun _ _ => trivial) ?_
  intro e he
  unfold parseArguments at he
  cases htext : decodeText raw with
  | error d =>
      rw [htext] at he
      cases he
      unfold decodeText at htext
      split at htext <;> cases htext
      trivial
  | ok text =>
      rw [htext] at he
      change (Argument.readAll text).mapError _ = _ at he
      cases hread : Argument.readAll text <;> rw [hread] at he <;> cases he
      trivial

theorem takes_expectArguments (tag : String) (kinds : List ArgumentKind)
    (arguments : List Argument) {ahead : Bytes → Bytes → Prop} :
    Takes (checked (expectArguments tag kinds arguments)) Unrelated ahead := by
  refine .checked (fun _ _ => trivial) ?_
  intro e he
  unfold expectArguments at he
  cases hkinds : Argument.expect kinds arguments <;> rw [hkinds] at he <;> cases he
  trivial

theorem takes_readArgumentsOf (tag : String) (kinds : List ArgumentKind) :
    Takes (readArgumentsOf tag kinds) Unrelated Anywhere := by
  have hW : ∀ (before taken : Bytes) (values : List Bytes), Unrelated taken values →
      Unrelated (before ++ taken) values := fun _ _ _ _ => trivial
  refine .after takes_readArguments hW fun raw => ?_
  refine .after (takes_parseArguments tag raw) hW fun arguments => ?_
  exact .after (takes_expectArguments tag kinds arguments) hW fun arguments => .pure trivial

theorem gives_readArgumentsOf {tag : String} {raw taken after : Bytes}
    {arguments : List Argument} (hraw : Gives readArguments taken after raw)
    (harguments : parseArguments tag raw = .ok arguments) :
    Gives (readArgumentsOf tag (arguments.map Argument.kind)) taken after
      (arguments.map Argument.value) := by
  have hkinds : expectArguments tag (arguments.map Argument.kind) arguments = .ok arguments := by
    rw [expectArguments, Argument.expect, if_pos rfl]
    rfl
  refine hraw.bind_nil ?_
  rw [checked_bind harguments, checked_bind hkinds]
  exact .pure

theorem takes_readStringArgument :
    Takes readStringArgument (fun taken name => Quotes taken name) Anywhere := by
  refine .bind takes_readTagString fun data => ?_
  refine .bind takes_closeTag fun _ => (takes_decodeText data).imp ?_
  rintro taken name rfl _ rfl _ rfl
  exact ⟨[], Sign.parenClose :: taken, by simp⟩

theorem gives_readStringArgument {name : String} (h : Sign.quote ∉ Utf8.encode name)
    (after : Bytes) :
    Gives readStringArgument (Sign.quote :: Utf8.encode name ++ [Sign.quote] ++ [Sign.parenClose])
      after name := by
  have hclose : Gives (do closeTag; checked (decodeText (Utf8.encode name)))
      ([Sign.parenClose] ++ []) after name := by
    rw [decodeText_encode]
    exact (gives_closeTag _).bind .pure
  exact (gives_readTagString h _).bind hclose

/-! ### Tags -/

theorem takes_readGuarded (scope : Option Bytes) :
    Takes (readGuarded scope) (fun taken branch => PartOf branch.2 taken) Anywhere := by
  have hW : ∀ (before taken : Bytes) (branch : List String × Bytes), PartOf branch.2 taken →
      PartOf branch.2 (before ++ taken) := fun before _ _ h => h.append before
  refine .after (takes_readArgumentsOf _ _) hW fun values => ?_
  refine .after (takes_parseScoped scope _) hW fun condition => ?_
  refine .bind (takes_readBody true) fun body => .pure ?_
  intro before hbody
  rwa [List.append_nil]

/-- The body of a clause. -/
def Clause.source : Clause → Bytes
  | .elseIf _ body | .otherwise body => body

theorem takes_readClause (scope : Option Bytes) :
    Takes (readClause scope) (fun taken clause => PartOf clause.source taken) Anywhere := by
  have hW : ∀ (before taken : Bytes) (clause : Clause), PartOf clause.source taken →
      PartOf clause.source (before ++ taken) := fun before _ _ h => h.append before
  refine .after takes_readTagName hW fun name => ?_
  split
  · refine .bind (takes_readGuarded scope) fun branch => .pure ?_
    intro before hbranch
    rwa [List.append_nil]
  split
  · refine .after (takes_readArgumentsOf _ _) hW fun _ => ?_
    refine .bind (takes_readBody true) fun body => .pure ?_
    intro before hbody
    rwa [List.append_nil]
  · exact .throw trivial

theorem startsWith_clauseSign {c : Cursor} :
    c.startsWith clauseSign = true ↔ clauseSign <+: c.rest := by
  simp [Cursor.startsWith, clauseSign, List.isPrefixOf_iff_prefix]

/-- What lies ahead of a clause, and what lies behind its sign. -/
theorem rest_of_clauseAhead {c : Cursor} (h : c.skipBlanks.startsWith clauseSign = true) :
    c.rest = c.rest.takeWhile Bytes.isBlank ++ clauseSign ++
      (c.skipBlanks.forward clauseSign.length).rest := by
  obtain ⟨rest, hrest⟩ := startsWith_clauseSign.1 h
  show c.rest = _ ++ _ ++ c.skipBlanks.rest.drop clauseSign.length
  rw [← hrest, List.drop_left, List.append_assoc, hrest, rest_skipBlanks,
    List.takeWhile_append_dropWhile]

theorem clauseAhead_of_rest {c : Cursor} {blanks rest : Bytes}
    (hblanks : ∀ b ∈ blanks, Bytes.isBlank b = true) (h : c.rest = blanks ++ clauseSign ++ rest) :
    c.skipBlanks.startsWith clauseSign = true ∧
      (c.skipBlanks.forward clauseSign.length).rest = rest := by
  have hskip : c.skipBlanks.rest = clauseSign ++ rest := by
    rw [rest_skipBlanks, h, List.append_assoc, List.dropWhile_append_of_pos hblanks]
    simp [Bytes.isBlank, clauseSign, Sign.pound]
  exact ⟨startsWith_clauseSign.2 ⟨rest, hskip.symm⟩, Cursor.rest_forward_of_append hskip⟩

/-- Reads what is left of a chain behind one of its clauses. -/
def readBehind (scope : Option Bytes) (branches : List (List String × Bytes)) :
    Clause → SourceReader Piece
  | .elseIf condition body => readClauses scope ((condition, body) :: branches)
  | .otherwise body => pure (.conditional branches.reverse (some body))

section Clauses

variable {scope : Option Bytes} {branches : List (List String × Bytes)} {c : Cursor}

/-- Where a clause is ahead, it is read, and then what is left of the chain. -/
theorem readClauses_of_ahead (h : c.skipBlanks.startsWith clauseSign = true) :
    readClauses scope branches c =
      (readClause scope >>= readBehind scope branches)
        (c.skipBlanks.forward clauseSign.length) := by
  rw [Scope.readClauses_eq, if_pos h]
  simp only [Bind.bind, EStateM.bind]
  cases readClause scope (c.skipBlanks.forward clauseSign.length) with
  | error e c' => rfl
  | ok clause c' => cases clause <;> rfl

theorem gives_readClauses_clause {blanks taken more after : Bytes} {clause : Clause} {piece : Piece}
    (hblanks : ∀ b ∈ blanks, Bytes.isBlank b = true)
    (hclause : Gives (readClause scope) taken (more ++ after) clause)
    (hmore : Gives (readBehind scope branches clause) more after piece) :
    Gives (readClauses scope branches) (blanks ++ clauseSign ++ taken ++ more) after piece := by
  intro c hc
  have hsplit : c.rest = blanks ++ clauseSign ++ (taken ++ more ++ after) := by
    rw [hc]
    simp only [List.append_assoc]
  obtain ⟨hahead, hrest⟩ := clauseAhead_of_rest hblanks hsplit
  rw [readClauses_of_ahead hahead]
  exact hclause.bind hmore _ hrest

theorem gives_readClauses_none {after : Bytes}
    (hafter : ¬ clauseSign <+: after.dropWhile Bytes.isBlank) :
    Gives (readClauses scope branches) [] after (.conditional branches.reverse none) := by
  intro c hc
  have hnone : ¬ c.skipBlanks.startsWith clauseSign = true := by
    rw [startsWith_clauseSign, rest_skipBlanks, hc]
    exact hafter
  exact ⟨c, by rw [Scope.readClauses_eq, if_neg hnone], hc⟩

/-- The branches found are put in order at the end. -/
theorem partOf_reverse {before : Bytes} (h : ∀ branch ∈ branches, PartOf branch.2 before)
    (taken : Bytes) : ∀ branch ∈ branches.reverse, PartOf branch.2 (before ++ taken) := by
  intro branch hbranch
  exact (h branch (List.mem_reverse.1 hbranch)).mono (List.prefix_append _ _).isInfix

end Clauses

theorem takes_readClauses (scope : Option Bytes) (branches : List (List String × Bytes)) :
    Takes (readClauses scope branches) (fun taken piece => ∀ before,
      (∀ branch ∈ branches, PartOf branch.2 before) → piece.Within (before ++ taken)) Apart where
  ok := by
    intro c piece c' hok
    have hblanks : ∀ c : Cursor, ∀ b ∈ c.rest.takeWhile Bytes.isBlank, Bytes.isBlank b = true :=
      fun _ => List.all_eq_true.1 List.all_takeWhile
    fun_induction readClauses scope branches c with
    | case1 => cases hok
    | case2 branches c hahead condition body c₁ hread ih =>
        obtain ⟨first, hfirst, hbody, hclause⟩ := (takes_readClause scope).ok hread
        obtain ⟨second, hsecond, hwithin, hmore⟩ := ih hok
        have hrest := rest_of_clauseAhead hahead
        rw [hfirst, ← List.append_assoc] at hrest
        refine ⟨c.rest.takeWhile Bytes.isBlank ++ clauseSign ++ first ++ second, ?_, ?_, ?_⟩
        · rw [List.append_assoc, ← hsecond, ← hrest]
        · intro before h
          rw [← List.append_assoc]
          refine hwithin _ fun branch hbranch => ?_
          rcases List.mem_cons.1 hbranch with rfl | hbranch
          · exact (PartOf.append _ hbody).append before
          · exact (h branch hbranch).mono (List.prefix_append _ _).isInfix
        · intro after hapart
          exact gives_readClauses_clause (hblanks c) (hclause _ trivial) (hmore after hapart)
    | case3 branches c hahead body c₁ hread =>
        cases hok
        obtain ⟨first, hfirst, hbody, hclause⟩ := (takes_readClause scope).ok hread
        have hrest := rest_of_clauseAhead hahead
        rw [hfirst, ← List.append_assoc] at hrest
        refine ⟨_, hrest, ?_, ?_⟩
        · intro before h
          refine Piece.within_conditional (partOf_reverse h _) ?_
          rintro no ⟨⟩
          exact (PartOf.append _ hbody).append before
        · intro after _
          rw [← List.append_nil (_ ++ first)]
          exact gives_readClauses_clause (hblanks c) (hclause _ trivial) .pure
    | case4 branches c hahead =>
        cases hok
        refine ⟨[], rfl, ?_, ?_⟩
        · intro before h
          refine Piece.within_conditional (partOf_reverse h _) ?_
          rintro no ⟨⟩
        · intro after hapart
          rw [startsWith_clauseSign, rest_skipBlanks] at hahead
          exact gives_readClauses_none fun hclause => hahead (hapart.2 hclause)
  error := by
    intro c e c' herr
    fun_induction readClauses scope branches c with
    | case1 => cases herr; exact (takes_readClause scope).error (by assumption)
    | case2 _ _ _ _ _ _ _ ih => exact ih herr
    | case3 => cases herr
    | case4 => cases herr

theorem takes_readBranch (scope : Option Bytes) :
    Takes (readBranch scope) (fun taken piece => piece.Within taken) Apart := by
  refine .bind (takes_readGuarded scope) fun first => (takes_readClauses scope [first]).imp ?_
  intro taken piece hwithin before hfirst
  refine hwithin before fun branch hbranch => ?_
  obtain rfl := List.mem_singleton.1 hbranch
  exact hfirst

/-- What stands between the parentheses of a tag that prints. -/
def readPrinted (start : Nat) : SourceReader Bytes := fun c =>
  match readUntil (· == Sign.parenClose) true c with
  | .error _ c' => .error (.tagNotClosed start) c'
  | result => result

theorem readPrinted_eq_ok {start : Nat} {c c' : Cursor} {path : Bytes} :
    readPrinted start c = .ok path c' ↔ readUntil (· == Sign.parenClose) true c = .ok path c' := by
  unfold readPrinted
  split <;> simp [*]

theorem gives_readPrinted {path : Bytes} (h : Sign.parenClose ∉ path) (start : Nat)
    (after : Bytes) : Gives (readPrinted start) (path ++ [Sign.parenClose]) after path := by
  have hplain : ∀ b ∈ path, (b == Sign.parenClose) = false := by
    intro b hb
    exact beq_eq_false_iff_ne.2 fun heq => h (heq ▸ hb)
  intro c hc
  obtain ⟨c', hread, hrest⟩ := gives_readUntil hplain (beq_self_eq_true _) true after c hc
  exact ⟨c', readPrinted_eq_ok.2 hread, hrest⟩

theorem takes_readPrinted (start : Nat) : Takes (readPrinted start) Unrelated Anywhere where
  ok := by
    intro c path c' hok
    obtain ⟨b, hrest, hb, hpath⟩ := readUntil_eq_ok (readPrinted_eq_ok.1 hok)
    obtain rfl : b = Sign.parenClose := eq_of_beq hb
    refine ⟨path ++ [Sign.parenClose], by rw [hrest]; simp, trivial, ?_⟩
    refine fun after _ => gives_readPrinted (fun hmem => ?_) start after
    exact absurd rfl (beq_eq_false_iff_ne.1 (hpath _ hmem))
  error := by
    intro c e c' herr
    unfold readPrinted at herr
    split at herr
    · cases herr; trivial
    next hother => exact absurd herr (hother _ _)

/-- What a tag that prints has behind its parentheses. -/
def readPrintEnd (scope : Option Bytes) (path : Bytes) : SourceReader Piece := do
  if path.isEmpty then pure (.emit (.raw [Sign.pound] .done))
  else
    let segments ← checked (parseScoped scope path)
    if (← get).nextSignificant = some Sign.braceOpen then
      let body ← readBody true
      pure (.scopedBody (scopedPath scope path) body)
    else pure (.emit (.print (.path segments) .done))

theorem gives_readPrint {scope : Option Bytes} {path taken after : Bytes} {piece : Piece}
    (h : Sign.parenClose ∉ path) (hend : Gives (readPrintEnd scope path) taken after piece) :
    Gives (readPrint scope) (path ++ [Sign.parenClose] ++ taken) after piece := by
  intro c hc
  exact ((gives_readPrinted h c.position _).bind hend) c hc

theorem nextSignificant_eq (c : Cursor) :
    c.nextSignificant = (c.rest.dropWhile Bytes.isBlank).head? := by
  rw [← rest_skipBlanks, List.head?_eq_getElem?]
  rfl

theorem nextSignificant_of_readBody {counting : Bool} {c c' : Cursor} {body : Bytes}
    (h : readBody counting c = .ok body c') : c.nextSignificant = some Sign.braceOpen := by
  obtain ⟨_, c₁, h₁, h₂⟩ := Reader.bind_eq_ok h
  obtain ⟨_, c₂, h₃, -⟩ := Reader.bind_eq_ok h₂
  cases h₁
  rw [nextSignificant_eq, ← rest_skipBlanks, expectByte_eq_ok h₃]
  rfl

/-- Reads a body if one lies ahead, and else nothing. -/
def readBodyAhead {α : Type} (withBody : Bytes → α) (without : α) : SourceReader α := do
  if (← get).nextSignificant = some Sign.braceOpen then
    let body ← readBody true
    pure (withBody body)
  else pure without

section ReadBodyAhead

variable {α : Type} {withBody : Bytes → α} {without : α} {c : Cursor}

theorem readBodyAhead_of_brace (h : c.nextSignificant = some Sign.braceOpen) :
    readBodyAhead withBody without c = (withBody <$> readBody true) c := by
  show (if _ then _ else _ : SourceReader α) c = _
  rw [if_pos h]
  rfl

theorem readBodyAhead_of_none (h : c.nextSignificant ≠ some Sign.braceOpen) :
    readBodyAhead withBody without c = .ok without c := by
  show (if _ then _ else _ : SourceReader α) c = _
  rw [if_neg h]
  rfl

theorem gives_readBodyAhead_body {taken after body : Bytes}
    (h : Gives (readBody true) taken after body) :
    Gives (readBodyAhead withBody without) taken after (withBody body) := by
  intro c hc
  obtain ⟨c', hread, hrest⟩ := h c hc
  refine ⟨c', ?_, hrest⟩
  rw [readBodyAhead_of_brace (nextSignificant_of_readBody hread)]
  simp only [Functor.map, EStateM.map, hread]

theorem gives_readBodyAhead_none {after : Bytes}
    (h : (after.dropWhile Bytes.isBlank).head? ≠ some Sign.braceOpen) :
    Gives (readBodyAhead withBody without) [] after without := by
  intro c hc
  refine ⟨c, readBodyAhead_of_none ?_, hc⟩
  rw [nextSignificant_eq, hc]
  exact h

theorem takes_readBodyAhead {P : Bytes → α → Prop}
    (hbody : ∀ taken body, PartOf body taken → P taken (withBody body)) (hnone : P [] without) :
    Takes (readBodyAhead withBody without) P Apart := by
  constructor
  · intro c a c' hok
    by_cases hc : c.nextSignificant = some Sign.braceOpen
    · rw [readBodyAhead_of_brace hc] at hok
      simp only [Functor.map, EStateM.map] at hok
      split at hok <;> cases hok
      next body _ hread =>
        obtain ⟨taken, htaken, hpart, hgives⟩ := (takes_readBody true).ok hread
        refine ⟨taken, htaken, hbody _ _ hpart, fun after _ => ?_⟩
        exact gives_readBodyAhead_body (hgives after trivial)
    · rw [readBodyAhead_of_none hc] at hok
      cases hok
      refine ⟨[], rfl, hnone, fun after hapart => gives_readBodyAhead_none fun hbrace => ?_⟩
      rw [nextSignificant_eq] at hc
      exact hc (hapart.1 hbrace)
  · intro c e c' herr
    by_cases hc : c.nextSignificant = some Sign.braceOpen
    · rw [readBodyAhead_of_brace hc] at herr
      simp only [Functor.map, EStateM.map] at herr
      split at herr <;> cases herr
      exact (takes_readBody true).error (by assumption)
    · rw [readBodyAhead_of_none hc] at herr
      cases herr

end ReadBodyAhead

theorem takes_readPrintEnd (scope : Option Bytes) (path : Bytes) :
    Takes (readPrintEnd scope path) (fun taken piece => piece.Within taken) Apart := by
  unfold readPrintEnd
  split
  · exact .pure (Piece.within_emit _)
  · refine .bind (takes_parseScoped scope path) fun segments => ?_
    refine takes_readBodyAhead ?_ ?_
    · intro taken body hbody before hscope
      exact Piece.within_scopedBody (hbody.append before) hscope
    · exact fun _ _ => Piece.within_emit _

theorem within_append (before taken : Bytes) (piece : Piece) (h : piece.Within taken) :
    piece.Within (before ++ taken) :=
  h.mono (List.suffix_append before taken).isInfix

/-- The position where a tag that prints began is only reported. -/
theorem readPrint_of_start {scope : Option Bytes} {start start' : Nat} {c c' : Cursor}
    {piece : Piece} (h : (readPrinted start >>= readPrintEnd scope) c = .ok piece c') :
    (readPrinted start' >>= readPrintEnd scope) c = .ok piece c' := by
  obtain ⟨path, c₁, h₁, h₂⟩ := Reader.bind_eq_ok h
  have h₁' : readPrinted start' c = .ok path c₁ := readPrinted_eq_ok.2 (readPrinted_eq_ok.1 h₁)
  simp only [Bind.bind, EStateM.bind, h₁', h₂]

theorem takes_readPrint (scope : Option Bytes) :
    Takes (readPrint scope) (fun taken piece => piece.Within taken) Apart := by
  refine .positioned (f := fun start => readPrinted start >>= readPrintEnd scope) ?_
    readPrint_of_start
  exact fun start => .after (takes_readPrinted start) within_append (takes_readPrintEnd scope)

theorem takes_readLoop (scope : Option Bytes) :
    Takes (readLoop scope) (fun taken piece => piece.Within taken) Anywhere := by
  refine .after (takes_readArgumentsOf _ _) within_append fun values => ?_
  dsimp only
  split
  · refine .bind (takes_readBody true) fun body => ?_
    refine .bind (takes_parseScoped scope _) fun iterable => ?_
    refine .bind (takes_decodeText _) fun name => .pure ?_
    intro third _ second _ first hbody
    refine Piece.within_loop (hbody.mono ?_)
    rw [List.append_nil]
    exact (List.prefix_append _ _).isInfix
  · exact .throw trivial

/-- Raw text, in which there must be no zero byte. -/
def readRawBody (start : Nat) : SourceReader Piece := do
  let body ← readBody false
  match body.findIdx? (· == Opcode.stop) with
  | some index => throw (.nulByte (start + index))
  | none => pure (.emit (.raw body .done))

theorem takes_readRawBody (start : Nat) :
    Takes (readRawBody start) (fun taken piece => piece.Within taken) Anywhere := by
  refine .after (takes_readBody false) within_append fun body => ?_
  split
  · exact .throw trivial
  · exact .pure (Piece.within_emit _)

/-- The position where raw text began is only reported. -/
theorem readRawBody_of_start {start start' : Nat} {c c' : Cursor} {piece : Piece}
    (h : readRawBody start c = .ok piece c') : readRawBody start' c = .ok piece c' := by
  obtain ⟨body, c₁, h₁, h₂⟩ := Reader.bind_eq_ok h
  simp only [readRawBody, Bind.bind, EStateM.bind, h₁]
  cases hstop : body.findIdx? (· == Opcode.stop) with
  | some index => simp only [hstop] at h₂; cases h₂
  | none => simp only [hstop] at h₂; exact h₂

theorem takes_readRaw (scope : Option Bytes) :
    Takes (readRaw scope) (fun taken piece => piece.Within taken) Anywhere := by
  refine .after takes_readArguments within_append fun raw => ?_
  refine .after (takes_parseArguments _ raw) within_append fun arguments => ?_
  split
  · exact .positioned takes_readRawBody readRawBody_of_start
  · refine .after (takes_expectArguments _ _ _) within_append fun arguments => ?_
    exact .after (takes_parseScoped scope _) within_append fun _ => .pure (Piece.within_emit _)

theorem takes_readExport : Takes readExport (fun taken piece => piece.Within taken) Anywhere := by
  refine .bind takes_readStringArgument fun name => ?_
  refine .bind (takes_readBody true) fun body => .pure ?_
  intro second hbody first hname
  rw [List.append_nil]
  exact Piece.within_exportBody (hbody.append first) (hname.trans (List.prefix_append _ _).isInfix)

theorem takes_readTagRest (scope : Option Bytes) (tag : Tag) :
    Takes (readTagRest scope tag) (fun taken piece => piece.Within taken) Apart := by
  cases tag with
  | print => exact takes_readPrint scope
  | loop => exact (takes_readLoop scope).anywhere
  | branch => exact takes_readBranch scope
  | raw => exact (takes_readRaw scope).anywhere
  | exportBody => exact takes_readExport.anywhere
  | embedFile => exact (takes_readStringArgument.map fun _ _ => Piece.within_embedFile).anywhere
  | importBody => exact (takes_readStringArgument.map fun _ _ => Piece.within_importBody).anywhere
  | extendFile => exact (takes_readStringArgument.map fun _ _ => Piece.within_extendFile).anywhere

theorem gives_readTag {tags : TagTable} {scope : Option Bytes} {name taken after : Bytes}
    {piece : Piece} (tag : Tag) (hname : ∀ b ∈ name, Bytes.isBlank b = false ∧ b ≠ Sign.parenOpen)
    (htag : tags.find? name = some tag) (h : Gives (readTagRest scope tag) taken after piece) :
    Gives (readTag tags scope) (name ++ [Sign.parenOpen] ++ taken) after piece := by
  refine (gives_readTagName hname _).bind ?_
  simp only [htag]
  exact h

theorem takes_readTag (tags : TagTable) (scope : Option Bytes) :
    Takes (readTag tags scope) (fun taken piece => piece.Within taken) Apart := by
  refine .after takes_readTagName within_append fun name => ?_
  split
  · exact takes_readTagRest scope _
  · exact .throw trivial

end SourceReader

/-! ## Sources -/

namespace Reading

open SourceReader

variable {tags : TagTable} {scope : Option Bytes}

/-- Reading a source ends in no error but a fault of the source. -/
theorem isFault_of_fault {found : List Piece} {c : Cursor} {e : CompileError}
    (h : (ofCursor tags scope found c).fault = some e) : e.IsFault := by
  fun_induction ofCursor tags scope found c with
  | case1 => cases h; trivial
  | case2 => cases h
  | case3 _ _ _ _ _ _ _ _ _ _ hread => cases h; exact (takes_readTag tags scope).error hread
  | case4 _ _ _ _ _ _ _ _ _ _ _ ih => exact ih h

theorem within_literalPieces {text : Bytes} (whole : Bytes) :
    ∀ piece ∈ literalPieces text, piece.Within whole := by
  intro piece hpiece
  unfold literalPieces at hpiece
  split at hpiece
  · cases hpiece
  · cases List.mem_singleton.1 hpiece
    exact Piece.within_emit _

/-- The pieces of a source are read from it. -/
theorem within_ofCursor {whole : Bytes} {found : List Piece} {c : Cursor}
    (hfound : ∀ piece ∈ found, piece.Within whole) (hc : c.rest <:+ whole) :
    ∀ piece ∈ (ofCursor tags scope found c).pieces, piece.Within whole := by
  have hliteral : ∀ (text : Bytes) {found : List Piece}, (∀ piece ∈ found, piece.Within whole) →
      ∀ piece ∈ literalPieces text ++ found, piece.Within whole := by
    intro text found hfound piece hpiece
    rcases List.mem_append.1 hpiece with hpiece | hpiece
    · exact within_literalPieces whole piece hpiece
    · exact hfound piece hpiece
  fun_induction ofCursor tags scope found c with
  | case1 found => exact fun piece hpiece => hfound piece (List.mem_reverse.1 hpiece)
  | case2 found c text =>
      exact fun piece hpiece => hliteral text hfound piece (List.mem_reverse.1 hpiece)
  | case3 found c text =>
      exact fun piece hpiece => hliteral text hfound piece (List.mem_reverse.1 hpiece)
  | case4 found c text hplain _ b bs hnext piece c' hread ih =>
      obtain ⟨taken, htaken, hwithin, -⟩ := (takes_readTag tags scope).ok hread
      obtain rfl : bs = taken ++ c'.rest := htaken
      have hbehind : taken ++ c'.rest <:+ whole := by
        refine List.IsSuffix.trans ?_ hc
        exact (List.suffix_cons b _).trans (hnext ▸ List.drop_suffix text.length c.rest)
      refine ih ?_ ?_
      · intro other hother
        rcases List.mem_cons.1 hother with rfl | hother
        · exact hwithin.mono ((List.prefix_append taken c'.rest).isInfix.trans hbehind.isInfix)
        · exact hliteral text hfound other hother
      · exact (List.suffix_append taken c'.rest).trans hbehind

theorem within_ofBytes (source : Bytes) :
    ∀ piece ∈ (ofBytes tags scope source).pieces, piece.Within source := by
  have hnone : ∀ piece ∈ ([] : List Piece), piece.Within source := nofun
  exact within_ofCursor hnone (List.suffix_refl source)

end Reading

end Stencil
