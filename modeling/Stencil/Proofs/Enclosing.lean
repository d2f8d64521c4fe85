/-
# `Stencil.Proofs.Enclosing` — a body is what its braces enclose

Behind the parentheses of a tag stands its body, in braces and with blanks in front:

    blanks  {  body  }  rest

Where braces are counted, those in the body are balanced; where they are not, none of them closes
(`IsBody`).  So much is said about the bytes, without a reader, and it leaves no choice: the brace
that ends a body is the first one that closes more than has been opened, and no body goes beyond
it (`Encloses.unique`).

| what lies ahead | what reading a body comes to |
| :-- | :-- |
| blanks, a brace, a body, and the brace that ends it | the body, and the cursor behind that brace |
| blanks and a brace, and no body behind it | `tagNotClosed`, at the position behind the brace |
| blanks, and then no brace | `missingByte`, with the byte that is there |

The reader keeps the number of braces that are open.  What is left of a body when `depth` of them
are open closes that many more than it opens (`Closes depth`), and the induction is on what is
left of the body, with the depth generalised.

**Proved here**, for every byte string and every position in it:

    reading a body comes to what the table says, and to nothing else  (`SourceReader.readBody_iff`)
-/
import Stencil.Proofs.Advancing
import Stencil.Proofs.Exporting

namespace Stencil

/-! ## Closing braces -/

/-- The bytes close `depth` more braces than they open, and no first part of them closes more
than that. -/
def Closes (depth : Nat) (body : Bytes) : Prop :=
  depth + body.count Sign.braceOpen = body.count Sign.braceClose ∧
    ∀ front, front <+: body →
      front.count Sign.braceClose ≤ depth + front.count Sign.braceOpen

theorem closes_zero_iff {body : Bytes} : Closes 0 body ↔ Balanced body := by
  simp only [Closes, Balanced, Nat.zero_add]

theorem closes_nil : Closes 0 [] := by
  refine ⟨rfl, fun front hfront => ?_⟩
  rw [List.prefix_nil.1 hfront]
  exact Nat.le_refl _

section Cons

variable {depth : Nat} {b : UInt8} {body : Bytes}

/-- If each first part of the rest closes no more than allowed behind `b`, so does each first
part of the whole. -/
theorem closes_cons {depth' : Nat} (h : Closes depth' body)
    (hb : depth + [b].count Sign.braceOpen = depth' + [b].count Sign.braceClose) :
    Closes depth (b :: body) := by
  obtain ⟨htotal, hfront⟩ := h
  rw [← List.singleton_append]
  refine ⟨?_, fun front hprefix => ?_⟩
  · rw [List.count_append, List.count_append]
    omega
  · cases front with
    | nil => exact Nat.zero_le _
    | cons b' front =>
        obtain ⟨rfl, hrest⟩ := List.cons_prefix_cons.1 hprefix
        have := hfront front hrest
        rw [← List.singleton_append, List.count_append, List.count_append]
        omega

theorem closes_cons_open (h : Closes (depth + 1) body) :
    Closes depth (Sign.braceOpen :: body) :=
  closes_cons h rfl

theorem closes_cons_close (h : Closes depth body) :
    Closes (depth + 1) (Sign.braceClose :: body) :=
  closes_cons h rfl

theorem closes_cons_other (hopen : b ≠ Sign.braceOpen) (hclose : b ≠ Sign.braceClose)
    (h : Closes depth body) : Closes depth (b :: body) := by
  refine closes_cons h ?_
  rw [List.count_singleton, List.count_singleton, if_neg (by simpa using hopen),
    if_neg (by simpa using hclose)]

end Cons

/-! ## Bodies -/

/-- The bytes can stand in the braces of a body: their own braces are balanced, or, where braces
are not counted, none of them closes. -/
def IsBody (counting : Bool) (body : Bytes) : Prop :=
  if counting then Balanced body else Sign.braceClose ∉ body

/-- Blanks lie ahead, then a brace that opens, and then `after`. -/
structure BraceAhead (text blanks after : Bytes) : Prop where
  text_eq : text = blanks ++ Sign.braceOpen :: after
  blank : ∀ b ∈ blanks, Bytes.isBlank b = true

/-- Behind blanks the text has a body in its braces, and then the rest. -/
structure Encloses (counting : Bool) (text blanks body rest : Bytes) : Prop where
  ahead : BraceAhead text blanks (body ++ Sign.braceClose :: rest)
  isBody : IsBody counting body

namespace SourceReader

variable {counting : Bool} {depth count : Nat} {body after : Bytes}

/-- The reader ends a body at a brace exactly if the bytes in front of it close the braces that
are open, and no others. -/
theorem closingIndex?_counting_iff :
    closingIndex? true depth count (body ++ Sign.braceClose :: after) = some (count + body.length) ↔
      Closes depth body := by
  refine ⟨fun h => ?_, fun h => closingIndex?_of_closed after depth count h.1 h.2⟩
  induction body generalizing depth count with
  | nil =>
      cases depth with
      | zero => exact closes_nil
      | succ depth =>
          -- This brace closes another one, so that the body ends behind it.
          have hbehind : closingIndex? true depth (count + 1) after = some count := h
          obtain ⟨more, _, -, hcount, -⟩ := closingIndex?_eq_some hbehind
          omega
  | cons b body ih =>
      rw [List.cons_append, closingIndex?_cons, List.length_cons, Nat.add_comm body.length 1,
        ← Nat.add_assoc] at h
      by_cases hopen : b = Sign.braceOpen
      · subst hopen
        exact closes_cons_open (ih h)
      rw [beq_eq_false_iff_ne.2 hopen, Bool.false_and, if_neg Bool.false_ne_true] at h
      by_cases hclose : b = Sign.braceClose
      · subst hclose
        rw [if_pos rfl] at h
        cases depth with
        | zero =>
            have hends : count = count + 1 + body.length := Option.some.inj h
            omega
        | succ depth => exact closes_cons_close (ih h)
      · rw [if_neg hclose] at h
        exact closes_cons_other hopen hclose (ih h)

/-- Where braces are not counted, a body ends at the first one that closes. -/
theorem closingIndex?_plain_iff :
    closingIndex? false 0 count (body ++ Sign.braceClose :: after) = some (count + body.length) ↔
      Sign.braceClose ∉ body := by
  induction body generalizing count with
  | nil => exact ⟨fun _ => List.not_mem_nil, fun _ => rfl⟩
  | cons b body ih =>
      rw [List.cons_append, closingIndex?_cons, List.length_cons, Nat.add_comm body.length 1,
        ← Nat.add_assoc, Bool.and_false, if_neg Bool.false_ne_true, List.mem_cons, not_or]
      by_cases hclose : b = Sign.braceClose
      · rw [if_pos hclose]
        refine ⟨fun h => ?_, fun h => absurd hclose.symm h.1⟩
        have hends : count = count + 1 + body.length := Option.some.inj h
        omega
      · rw [if_neg hclose, ih]
        exact ⟨fun h => ⟨Ne.symm hclose, h⟩, And.right⟩

/-- The reader ends a body at a brace exactly if the bytes in front of it are one. -/
theorem closingIndex?_eq_length_iff :
    closingIndex? counting 0 0 (body ++ Sign.braceClose :: after) = some body.length ↔
      IsBody counting body := by
  cases counting with
  | true =>
      have h := @closingIndex?_counting_iff 0 0 body after
      rwa [Nat.zero_add, closes_zero_iff] at h
  | false =>
      have h := @closingIndex?_plain_iff 0 body after
      rwa [Nat.zero_add] at h

/-- There is no end of a body exactly if none of the first parts is a body. -/
theorem closingIndex?_eq_none_iff :
    closingIndex? counting 0 0 after = none ↔
      ∀ body rest, after = body ++ Sign.braceClose :: rest → ¬ IsBody counting body := by
  constructor
  · rintro hnone body rest rfl hbody
    cases hnone.symm.trans (closingIndex?_eq_length_iff.2 hbody)
  · intro h
    cases hn : closingIndex? counting 0 0 after with
    | none => rfl
    | some n =>
        obtain ⟨body, rest, rfl, rfl, -⟩ := closingIndex?_eq_some hn
        rw [Nat.zero_add] at hn
        exact absurd (closingIndex?_eq_length_iff.1 hn) (h body rest rfl)

end SourceReader

section Unique

variable {counting : Bool} {text blanks blanks' body body' rest rest' after after' : Bytes}

/-- A brace is no blank, so that the blanks in front of it are all blanks ahead. -/
theorem BraceAhead.takeWhile_eq (h : BraceAhead text blanks after) :
    text.takeWhile Bytes.isBlank = blanks := by
  have hbrace : Bytes.isBlank Sign.braceOpen = false := by decide
  rw [h.text_eq, List.takeWhile_append_of_pos h.blank, List.takeWhile_cons, hbrace,
    if_neg Bool.false_ne_true, List.append_nil]

theorem BraceAhead.unique (h : BraceAhead text blanks after) (h' : BraceAhead text blanks' after') :
    blanks = blanks' ∧ after = after' := by
  obtain rfl : blanks = blanks' := h.takeWhile_eq.symm.trans h'.takeWhile_eq
  have hsame := List.append_cancel_left (h.text_eq.symm.trans h'.text_eq)
  exact ⟨rfl, (List.cons.inj hsame).2⟩

/-- No body is the first part of another. -/
theorem IsBody.unique (h : IsBody counting body) (h' : IsBody counting body')
    (heq : body ++ Sign.braceClose :: rest = body' ++ Sign.braceClose :: rest') :
    body = body' ∧ rest = rest' := by
  have hlength : SourceReader.closingIndex? counting 0 0 (body ++ Sign.braceClose :: rest) =
      some body.length := SourceReader.closingIndex?_eq_length_iff.2 h
  rw [heq, SourceReader.closingIndex?_eq_length_iff.2 h'] at hlength
  obtain ⟨hbody, hrest⟩ := List.append_inj heq (Option.some.inj hlength).symm
  exact ⟨hbody, (List.cons.inj hrest).2⟩

/-- A text has one body at most. -/
theorem Encloses.unique (h : Encloses counting text blanks body rest)
    (h' : Encloses counting text blanks' body' rest') :
    blanks = blanks' ∧ body = body' ∧ rest = rest' := by
  obtain ⟨hblanks, hafter⟩ := h.ahead.unique h'.ahead
  exact ⟨hblanks, h.isBody.unique h'.isBody hafter⟩

end Unique

/-! ## Reading a body -/

namespace SourceReader

variable {counting : Bool} {c : Cursor} {blanks body rest after : Bytes}

/-- The reader goes on behind the brace ahead. -/
theorem readBody_of_ahead (counting : Bool) (h : BraceAhead c.rest blanks after) :
    readBody counting c = readBodyEnd counting (c.forward (blanks.length + 1)) ∧
      (c.forward (blanks.length + 1)).rest = after := by
  have hskip : c.skipBlanks = c.forward blanks.length := by
    rw [Cursor.skipBlanks, Cursor.skip, h.takeWhile_eq]
  have hrest : (c.forward blanks.length).rest = [Sign.braceOpen] ++ after := by
    show c.rest.drop blanks.length = _
    rw [h.text_eq, List.drop_left]
    rfl
  have hopen : expectByte Sign.braceOpen (c.forward blanks.length) =
      .ok () ((c.forward blanks.length).forward 1) :=
    (gives_expectByte _ _).exact (advances_expectByte _) hrest
  rw [Cursor.forward_forward] at hopen
  refine ⟨?_, ?_⟩
  · simp only [readBody, Bind.bind, EStateM.bind, skipBlanks, hskip, hopen]
  · exact Cursor.rest_forward_of_append_cons h.text_eq

theorem readBody_of_encloses (h : Encloses counting c.rest blanks body rest) :
    readBody counting c = .ok body (c.forward (blanks.length + 1 + (body.length + 1))) ∧
      (c.forward (blanks.length + 1 + (body.length + 1))).rest = rest := by
  obtain ⟨hread, hrest⟩ := readBody_of_ahead counting h.ahead
  rw [hread, ← c.forward_forward (blanks.length + 1)]
  refine ⟨?_, ?_⟩
  · rw [readBodyEnd, hrest, closingIndex?_eq_length_iff.2 h.isBody]
    simp only [List.take_left]
  · exact Cursor.rest_forward_of_append_cons hrest

theorem readBody_of_noBody (h : BraceAhead c.rest blanks after)
    (hnone : ∀ body rest, after = body ++ Sign.braceClose :: rest → ¬ IsBody counting body) :
    readBody counting c = .error (.tagNotClosed (c.position + (blanks.length + 1)))
      (c.forward c.rest.length) := by
  obtain ⟨hread, hrest⟩ := readBody_of_ahead counting h
  have hend : blanks.length + 1 + after.length = c.rest.length := by
    rw [h.text_eq, List.length_append, List.length_cons]
    omega
  rw [hread, readBodyEnd, hrest, closingIndex?_eq_none_iff.2 hnone, ← hend, Cursor.forward_forward]
  rfl

theorem readBody_of_noBrace (h : ∀ blanks after, ¬ BraceAhead c.rest blanks after) :
    readBody counting c = .error
      (.missingByte (c.rest.dropWhile Bytes.isBlank).head? (.ofByte Sign.braceOpen))
      c.skipBlanks := by
  have hpeek : c.skipBlanks.peek 0 = (c.rest.dropWhile Bytes.isBlank).head? := nextSignificant_eq c
  have hbrace : c.skipBlanks.peek 0 ≠ some Sign.braceOpen := by
    intro hbrace
    rw [hpeek] at hbrace
    obtain ⟨after, hafter⟩ := List.head?_eq_some_iff.1 hbrace
    refine h (c.rest.takeWhile Bytes.isBlank) after ⟨?_, List.all_eq_true.1 List.all_takeWhile⟩
    rw [← hafter, List.takeWhile_append_dropWhile]
  have hmissing : expectByte Sign.braceOpen c.skipBlanks =
      .error (.missingByte (c.skipBlanks.peek 0) (.ofByte Sign.braceOpen)) c.skipBlanks := by
    rw [expectByte, if_neg hbrace]
  simp only [readBody, Bind.bind, EStateM.bind, skipBlanks, hmissing, hpeek]

/-- Reading a body gives what stands in braces behind the blanks ahead, which is one body and no
other, and stops behind the brace that ends it.  If a brace is ahead and no body is behind it, the
tag is not closed, from the position behind the brace; and if no brace is ahead, that is what is
missing. -/
theorem readBody_iff (counting : Bool) (c : Cursor) :
    (∀ body c', readBody counting c = .ok body c' ↔
      ∃ blanks rest, Encloses counting c.rest blanks body rest ∧
        c' = c.forward (blanks.length + 1 + (body.length + 1)) ∧ c'.rest = rest) ∧
    (∀ blanks body rest, Encloses counting c.rest blanks body rest →
      ∀ blanks' body' rest', Encloses counting c.rest blanks' body' rest' → body' = body) ∧
    ∀ e c', readBody counting c = .error e c' ↔
      (∃ blanks after, BraceAhead c.rest blanks after ∧
        (∀ body rest, after = body ++ Sign.braceClose :: rest → ¬ IsBody counting body) ∧
        e = .tagNotClosed (c.position + (blanks.length + 1)) ∧ c' = c.forward c.rest.length) ∨
      ((∀ blanks after, ¬ BraceAhead c.rest blanks after) ∧
        e = .missingByte (c.rest.dropWhile Bytes.isBlank).head? (.ofByte Sign.braceOpen) ∧
        c' = c.skipBlanks) := by
  refine ⟨fun body c' => ⟨fun h => ?_, ?_⟩, ?_, fun e c' => ⟨fun h => ?_, ?_⟩⟩
  · obtain ⟨blanks, hblanks, hrest, hends⟩ := readBody_eq_ok h
    have hencloses : Encloses counting c.rest blanks body c'.rest :=
      ⟨⟨hrest, hblanks⟩, closingIndex?_eq_length_iff.1 (hends [])⟩
    cases h.symm.trans (readBody_of_encloses hencloses).1
    exact ⟨blanks, _, hencloses, rfl, rfl⟩
  · rintro ⟨blanks, rest, hencloses, rfl, -⟩
    exact (readBody_of_encloses hencloses).1
  · intro blanks body rest h blanks' body' rest' h'
    exact (h'.unique h).2.1
  · by_cases hbrace : ∃ blanks after, BraceAhead c.rest blanks after
    · obtain ⟨blanks, after, hahead⟩ := hbrace
      have hnone : ∀ body rest, after = body ++ Sign.braceClose :: rest →
          ¬ IsBody counting body := by
        rintro body rest rfl hbody
        cases h.symm.trans (readBody_of_encloses ⟨hahead, hbody⟩).1
      cases h.symm.trans (readBody_of_noBody hahead hnone)
      exact .inl ⟨blanks, after, hahead, hnone, rfl, rfl⟩
    · have hbrace : ∀ blanks after, ¬ BraceAhead c.rest blanks after :=
        fun blanks after hahead => hbrace ⟨blanks, after, hahead⟩
      cases h.symm.trans (readBody_of_noBrace hbrace)
      exact .inr ⟨hbrace, rfl, rfl⟩
  · rintro (⟨blanks, after, hahead, hnone, rfl, rfl⟩ | ⟨hbrace, rfl, rfl⟩)
    · exact readBody_of_noBody hahead hnone
    · exact readBody_of_noBrace hbrace

end SourceReader

end Stencil
