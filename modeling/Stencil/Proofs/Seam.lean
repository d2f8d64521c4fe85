/-
# `Stencil.Proofs.Seam` — one source behind another

The pieces of two sources, one written behind the other, are those of the first and then
those of the second, if nothing is read across the seam.  Two tags look one step beyond
their end, for a body and for a clause, so the second source must begin with neither
(`StandsAlone`).  And literal text goes on until the next tag: the text at the end of the
first source and that at the beginning of the second become one piece
(`Reading.ofBytes_append`).  If the second source begins with a tag, or is empty, nothing at
all changes (`StartsTag`).

`Through text after pieces` says that `text`, where `after` lies behind it, is read as
`pieces`, and that reading goes on with `after`.  It holds of single tags, of sources that
are read without a fault, and of what is put together from them.
-/
import Stencil.Proofs.Extent

namespace Stencil

namespace Reading

open SourceReader

variable {tags : TagTable} {scope : Option Bytes}

/-! ## The seam -/

/-- Nothing, or a text that begins with a pound sign, but not with the sign of a clause. -/
def StartsTag (text : Bytes) : Prop :=
  text = [] ∨ ∃ bs, text = Sign.pound :: bs ∧ bs.head? ≠ some Sign.pound

/-- A text that begins with no body and with no clause, after blanks. -/
structure StandsAlone (text : Bytes) : Prop where
  body : (text.dropWhile Bytes.isBlank).head? ≠ some Sign.braceOpen
  clause : ¬ clauseSign <+: text.dropWhile Bytes.isBlank

theorem StartsTag.standsAlone {text : Bytes} (h : StartsTag text) : StandsAlone text := by
  rcases h with rfl | ⟨bs, rfl, hbs⟩
  · exact ⟨nofun, fun hclause => nomatch List.prefix_nil.1 hclause⟩
  · have hpound : (Sign.pound :: bs).dropWhile Bytes.isBlank = Sign.pound :: bs := rfl
    refine ⟨by rw [hpound]; exact nofun, ?_⟩
    rw [hpound]
    rintro ⟨more, hmore⟩
    rw [← (List.cons.inj hmore).2] at hbs
    exact hbs rfl

/-- Such a text is empty, or its first byte is a pound sign. -/
theorem StartsTag.head? {text : Bytes} (h : StartsTag text) : ∀ b ∈ text.head?, b = Sign.pound := by
  rcases h with rfl | ⟨bs, rfl, -⟩
  · intro b hb
    cases hb
  · rintro _ ⟨⟩
    rfl

/-- Text up to a tag, or to the end. -/
theorem takeWhile_ne_pound {text after : Bytes} (htext : ∀ b ∈ text, b ≠ Sign.pound)
    (hafter : ∀ b ∈ after.head?, b = Sign.pound) :
    (text ++ after).takeWhile (· != Sign.pound) = text := by
  have hnone : after.takeWhile (· != Sign.pound) = [] := by
    cases after with
    | nil => rfl
    | cons b bs => simp [hafter b rfl]
  rw [List.takeWhile_append_of_pos fun b hb => bne_iff_ne.2 (htext b hb), hnone, List.append_nil]

/-- Text without a tag in it is one piece, or none if it is empty. -/
theorem ofCursor_literal {found : List Piece} {c : Cursor} {text after : Bytes}
    (hc : c.rest = text ++ after) (htext : ∀ b ∈ text, b ≠ Sign.pound ∧ b ≠ Opcode.stop)
    (hafter : ∀ b ∈ after.head?, b = Sign.pound) :
    ofCursor tags scope found c =
      ofCursor tags scope (literalPieces text ++ found) (c.forward text.length) := by
  have htake : c.rest.takeWhile (· != Sign.pound) = text :=
    hc ▸ takeWhile_ne_pound (fun b hb => (htext b hb).1) hafter
  have hplain : text.findIdx? (· == Opcode.stop) = none := by
    rw [List.findIdx?_eq_none_iff]
    exact fun b hb => beq_eq_false_iff_ne.2 (htext b hb).2
  have hrest : (c.forward text.length).rest = after := Cursor.rest_forward_of_append hc
  have hnone : ([] ++ after).takeWhile (· != Sign.pound) = [] := takeWhile_ne_pound nofun hafter
  have htake' : (c.forward text.length).rest.takeWhile (· != Sign.pound) = [] := hrest ▸ hnone
  have hzero : (c.forward text.length).forward ([] : Bytes).length = c.forward text.length :=
    Cursor.forward_zero _
  have hliteral : literalPieces [] ++ (literalPieces text ++ found) =
      literalPieces text ++ found := rfl
  cases hnext : (c.forward text.length).rest with
  | nil =>
      rw [Scope.ofCursor_end htake hplain hnext, Scope.ofCursor_end htake' rfl (hzero ▸ hnext),
        hliteral]
  | cons b bs =>
      have hnext' : ((c.forward text.length).forward ([] : Bytes).length).rest = b :: bs :=
        hzero ▸ hnext
      have hpast : ((c.forward text.length).forward ([] : Bytes).length).past hnext' =
          (c.forward text.length).past hnext := by
        congr 1
      cases hread : readTag tags scope ((c.forward text.length).past hnext) with
      | error e d =>
          rw [Scope.ofCursor_error htake hplain hnext hread,
            Scope.ofCursor_error htake' rfl hnext' (hpast ▸ hread), hliteral]
      | ok piece d =>
          rw [Scope.ofCursor_tag htake hplain hnext hread,
            Scope.ofCursor_tag htake' rfl hnext' (hpast ▸ hread), hliteral]

/-- The pieces found before come first, and change nothing else. -/
theorem ofCursor_append_found (found more : List Piece) (c : Cursor) :
    ofCursor tags scope (found ++ more) c =
      ⟨more.reverse ++ (ofCursor tags scope found c).pieces,
        (ofCursor tags scope found c).fault⟩ := by
  fun_induction ofCursor tags scope found c with
  | case1 found c text index hnul =>
      rw [Scope.ofCursor_nul rfl hnul, List.reverse_append]
  | case2 found c text hplain _ hend =>
      rw [Scope.ofCursor_end rfl hplain hend, ← List.append_assoc, List.reverse_append]
  | case3 found c text hplain _ b bs hnext e c' hread =>
      rw [Scope.ofCursor_error rfl hplain hnext hread, ← List.append_assoc, List.reverse_append]
  | case4 found c text hplain _ b bs hnext piece c' hread ih =>
      rw [Scope.ofCursor_tag rfl hplain hnext hread, ← List.append_assoc]
      exact ih

theorem ofCursor_found (found : List Piece) (c : Cursor) :
    ofCursor tags scope found c =
      ⟨found.reverse ++ (ofCursor tags scope [] c).pieces, (ofCursor tags scope [] c).fault⟩ :=
  ofCursor_append_found [] found c

theorem mem_takeWhile_ne_pound {bs : Bytes}
    (hplain : (bs.takeWhile (· != Sign.pound)).findIdx? (· == Opcode.stop) = none) :
    ∀ b ∈ bs.takeWhile (· != Sign.pound), b ≠ Sign.pound ∧ b ≠ Opcode.stop := by
  intro b hb
  have hpound := List.all_eq_true.1 List.all_takeWhile b hb
  have hstop := List.findIdx?_eq_none_iff.1 hplain b hb
  exact ⟨bne_iff_ne.1 hpound, beq_eq_false_iff_ne.1 hstop⟩

/-- A pound sign at the end of a source is a fault. -/
theorem fault_of_lonePound {found : List Piece} {c : Cursor} {text : Bytes}
    (hc : c.rest = text ++ [Sign.pound]) (htext : ∀ b ∈ text, b ≠ Sign.pound) :
    (ofCursor tags scope found c).fault ≠ none := by
  have htake : c.rest.takeWhile (· != Sign.pound) = text :=
    hc ▸ takeWhile_ne_pound htext (by simp)
  have hnext : (c.forward text.length).rest = [Sign.pound] :=
    Cursor.rest_forward_of_append hc
  cases hplain : text.findIdx? (· == Opcode.stop) with
  | some index =>
      rw [Scope.ofCursor_nul htake hplain]
      exact nofun
  | none =>
      obtain ⟨e, d, hread⟩ : ∃ e d,
          readTag tags scope ((c.forward text.length).past hnext) = .error e d := ⟨_, _, rfl⟩
      rw [Scope.ofCursor_error htake hplain hnext hread]
      exact nofun

/-- More text behind makes no body and no clause begin, unless there is nothing ahead but blanks
and perhaps the first sign of a clause. -/
theorem apart_append (before more : Bytes) :
    Apart before (before ++ more) ∨ before.dropWhile Bytes.isBlank <+: [Sign.pound] := by
  unfold Apart
  rw [List.dropWhile_append]
  match before.dropWhile Bytes.isBlank with
  | [] => exact .inr List.nil_prefix
  | [b] =>
      by_cases hb : b = Sign.pound
      · exact .inr (hb ▸ List.prefix_refl _)
      · refine .inl ⟨id, ?_⟩
        rintro ⟨_, hmore⟩
        exact absurd (List.cons.inj hmore).1.symm hb
  | b :: b' :: bs =>
      refine .inl ⟨id, ?_⟩
      rintro ⟨_, hmore⟩
      obtain ⟨rfl, htail⟩ := List.cons.inj hmore
      obtain ⟨rfl, -⟩ := List.cons.inj htail
      exact ⟨bs, rfl⟩

/-- What stands alone is no body and no clause of a source that is read without a fault. -/
theorem apart_of_standsAlone {found : List Piece} {c : Cursor} {after : Bytes}
    (h : (ofCursor tags scope found c).fault = none) (hafter : StandsAlone after) :
    Apart c.rest (c.rest ++ after) := by
  rcases apart_append c.rest after with hapart | hahead
  · exact hapart
  have hsplit := List.takeWhile_append_dropWhile (p := Bytes.isBlank) (l := c.rest)
  rcases List.prefix_cons_iff.1 hahead with hnil | ⟨_, hpound, hnil⟩
  · unfold Apart
    rw [List.dropWhile_append, hnil, List.isEmpty_nil, if_pos rfl]
    exact ⟨fun hbody => absurd hbody hafter.body, fun hclause => absurd hclause hafter.clause⟩
  · -- A pound sign at the end would be a fault.
    rw [hpound, List.prefix_nil.1 hnil] at hsplit
    refine absurd h (fault_of_lonePound hsplit.symm ?_)
    intro b hb hpound
    have hblank := List.all_eq_true.1 List.all_takeWhile b hb
    rw [hpound] at hblank
    cases hblank

/-- A source is its text up to the first tag, and what begins with the tag. -/
theorem rest_eq_append (c : Cursor) : c.rest = c.rest.takeWhile (· != Sign.pound) ++
    (c.forward (c.rest.takeWhile (· != Sign.pound)).length).rest :=
  (List.prefix_iff_eq_append.1 (List.takeWhile_prefix _)).symm

theorem head?_rest_forward (c : Cursor) :
    ∀ b ∈ (c.forward (c.rest.takeWhile (· != Sign.pound)).length).rest.head?, b = Sign.pound := by
  show ∀ b ∈ (c.rest.drop _).head?, b = Sign.pound
  rw [drop_length_takeWhile]
  intro b hb
  have hnot := List.head?_dropWhile_not (· != Sign.pound) c.rest
  rw [Option.mem_def.1 hb] at hnot
  simpa using hnot

theorem reverse_literalPieces (text : Bytes) :
    (literalPieces text).reverse = literalPieces text := by
  unfold literalPieces
  split
  · rfl
  · rfl

/-- A source that is read without a fault is read alike in front of what stands alone, but for
the text at its end, which may go on. -/
theorem ofCursor_before {found : List Piece} {c : Cursor} {after : Bytes}
    (hsound : (ofCursor tags scope found c).fault = none) (hafter : StandsAlone after) :
    ∃ front text, (∀ b ∈ text, b ≠ Sign.pound ∧ b ≠ Opcode.stop) ∧
      (ofCursor tags scope found c).pieces = front ++ literalPieces text ∧
      ∀ d : Cursor, d.rest = c.rest ++ after → ∃ d', d'.rest = text ++ after ∧
        ofCursor tags scope found d = ofCursor tags scope front.reverse d' := by
  fun_induction ofCursor tags scope found c with
  | case1 => cases hsound
  | case2 found c text hplain _ hend =>
      have hrest := rest_eq_append c
      rw [hend, List.append_nil] at hrest
      refine ⟨found.reverse, text, mem_takeWhile_ne_pound hplain, ?_, ?_⟩
      · rw [List.reverse_append, reverse_literalPieces]
      · intro d hd
        rw [hrest] at hd
        exact ⟨d, hd, by rw [List.reverse_reverse]⟩
  | case3 => cases hsound
  | case4 found c text hplain _ b bs hnext piece c' hread ih =>
      obtain ⟨taken, htaken, -, hgives⟩ := (takes_readTag tags scope).ok hread
      obtain rfl : bs = taken ++ c'.rest := htaken
      obtain ⟨front, last, hlast, hpieces, hbefore⟩ := ih hsound
      refine ⟨front, last, hlast, hpieces, ?_⟩
      intro d hd
      have hpound : b = Sign.pound := head?_rest_forward c b (by rw [hnext]; rfl)
      have hrest := rest_eq_append c
      rw [hnext] at hrest
      rw [hrest, List.append_assoc] at hd
      have hplain' := mem_takeWhile_ne_pound hplain
      have htext : d.rest.takeWhile (· != Sign.pound) = text := by
        rw [hd]
        refine takeWhile_ne_pound (fun b hb => (hplain' b hb).1) ?_
        rintro _ ⟨⟩
        exact hpound
      have hnext' : (d.forward text.length).rest = b :: (taken ++ (c'.rest ++ after)) := by
        rw [Cursor.rest_forward_of_append hd, List.cons_append, List.append_assoc]
      -- What follows the tag now is no body and no clause, so it takes the same bytes.
      obtain ⟨d', hread', hd'⟩ :=
        hgives _ (apart_of_standsAlone hsound hafter) ((d.forward text.length).past hnext') rfl
      rw [Scope.ofCursor_tag htext hplain hnext' hread']
      exact hbefore d' hd'

/-! ## Texts that are read through -/

/-- Wherever the text lies ahead, and then `after`, it is read as these pieces. -/
def Through (tags : TagTable) (scope : Option Bytes) (text after : Bytes)
    (pieces : List Piece) : Prop :=
  ∀ (found : List Piece) (c : Cursor), c.rest = text ++ after → ∃ c', c'.rest = after ∧
    ofCursor tags scope found c = ofCursor tags scope (pieces.reverse ++ found) c'

namespace Through

variable {text after : Bytes} {pieces : List Piece}

theorem nil : Through tags scope [] after [] := fun _ c hc => ⟨c, hc, rfl⟩

theorem append {more : Bytes} {further : List Piece}
    (h : Through tags scope text (more ++ after) pieces)
    (hmore : Through tags scope more after further) :
    Through tags scope (text ++ more) after (pieces ++ further) := by
  intro found c hc
  rw [List.append_assoc] at hc
  obtain ⟨c₁, hrest₁, h₁⟩ := h found c hc
  obtain ⟨c₂, hrest₂, h₂⟩ := hmore (pieces.reverse ++ found) c₁ hrest₁
  refine ⟨c₂, hrest₂, ?_⟩
  rw [h₁, h₂, List.reverse_append, List.append_assoc]

/-- A tag is one piece. -/
theorem tag {taken : Bytes} {piece : Piece}
    (h : Gives (readTag tags scope) taken after piece) :
    Through tags scope (Sign.pound :: taken) after [piece] := by
  intro found c hc
  have hforward : (c.forward ([] : Bytes).length).rest = Sign.pound :: (taken ++ after) := hc
  obtain ⟨c', hread, hrest⟩ := h ((c.forward ([] : Bytes).length).past hforward) rfl
  refine ⟨c', hrest, ?_⟩
  exact Scope.ofCursor_tag (by rw [hc]; rfl) rfl hforward hread

/-- Text without a tag in it, in front of a tag or at the end. -/
theorem literal (htext : ∀ b ∈ text, b ≠ Sign.pound ∧ b ≠ Opcode.stop)
    (hafter : ∀ b ∈ after.head?, b = Sign.pound) :
    Through tags scope text after (literalPieces text) := by
  intro found c hc
  refine ⟨c.forward text.length, ?_, ?_⟩
  · exact Cursor.rest_forward_of_append hc
  · rw [reverse_literalPieces]
    exact ofCursor_literal hc htext hafter

/-- What is read without a fault, in front of a tag or at the end. -/
theorem ahead {c : Cursor} (h : (ofCursor tags scope [] c).fault = none)
    (hafter : StartsTag after) :
    Through tags scope c.rest after (ofCursor tags scope [] c).pieces := by
  intro found d hd
  have hsound : (ofCursor tags scope found c).fault = none := by
    rw [ofCursor_found]
    exact h
  obtain ⟨front, last, hlast, hpieces, hbefore⟩ := ofCursor_before hsound hafter.standsAlone
  obtain ⟨d₁, hd₁, hread⟩ := hbefore d hd
  obtain ⟨d₂, hd₂, hread'⟩ := literal hlast hafter.head? front.reverse d₁ hd₁
  refine ⟨d₂, hd₂, ?_⟩
  rw [hread, hread', ← List.reverse_append, ← hpieces, ofCursor_found found c, List.reverse_append,
    List.reverse_reverse]

/-- A source that is read without a fault, in front of a tag or at the end. -/
theorem source (h : (ofBytes tags scope text).fault = none) (hafter : StartsTag after) :
    Through tags scope text after (ofBytes tags scope text).pieces :=
  .ahead h hafter

/-- What is read through to the end is read without a fault. -/
theorem ofCursor_eq (h : Through tags scope text [] pieces) (found : List Piece) {c : Cursor}
    (hc : c.rest = text) :
    ofCursor tags scope found c = ⟨found.reverse ++ pieces, none⟩ := by
  obtain ⟨d, hrest, hd⟩ := h found c (hc.trans (List.append_nil text).symm)
  have hend : (d.forward ([] : Bytes).length).rest = [] := hrest
  rw [hd, Scope.ofCursor_end (by rw [hrest]; rfl) rfl hend]
  simp [literalPieces]

theorem ofBytes_eq (h : Through tags scope text [] pieces) :
    ofBytes tags scope text = ⟨pieces, none⟩ :=
  h.ofCursor_eq [] rfl

end Through

/-! ## Two sources -/

/-- A source behind another, each read without a fault, is read as they are, but for the text
at the seam. -/
theorem ofBytes_append {first second : Bytes} (hfirst : (ofBytes tags scope first).fault = none)
    (hsecond : (ofBytes tags scope second).fault = none) (hstands : StandsAlone second) :
    ∃ front last text back,
      ofBytes tags scope first = ⟨front ++ literalPieces last, none⟩ ∧
        ofBytes tags scope second = ⟨literalPieces text ++ back, none⟩ ∧
        ofBytes tags scope (first ++ second) =
          ⟨front ++ (literalPieces (last ++ text) ++ back), none⟩ := by
  let text := second.takeWhile (· != Sign.pound)
  let behind := ((Cursor.ofBytes second).forward text.length).rest
  have hsplit : second = text ++ behind := rest_eq_append (.ofBytes second)
  have hpound : ∀ b ∈ behind.head?, b = Sign.pound := head?_rest_forward (.ofBytes second)
  have htext : ∀ b ∈ text, b ≠ Sign.pound ∧ b ≠ Opcode.stop := by
    cases hplain : text.findIdx? (· == Opcode.stop) with
    | none => exact mem_takeWhile_ne_pound hplain
    | some index =>
        rw [ofBytes, Scope.ofCursor_nul rfl hplain] at hsecond
        cases hsecond
  -- The second source is its text, and then what begins with its first tag.
  obtain ⟨tag, htag, hread⟩ : ∃ tag : Cursor, tag.rest = behind ∧ ofBytes tags scope second =
      ofCursor tags scope ((literalPieces text).reverse ++ []) tag :=
    Through.literal htext hpound [] (.ofBytes second) hsplit
  rw [List.append_nil, ofCursor_found, List.reverse_reverse] at hread
  have hsound : (ofCursor tags scope [] tag).fault = none := by
    rwa [hread] at hsecond
  have hback : Through tags scope behind [] (ofCursor tags scope [] tag).pieces :=
    htag ▸ .ahead hsound (.inl rfl)
  obtain ⟨front, last, hlast, hpieces, hbefore⟩ := ofCursor_before hfirst hstands
  obtain ⟨c, hc, hwhole⟩ := hbefore (.ofBytes (first ++ second)) rfl
  have hseam : ∀ b ∈ last ++ text, b ≠ Sign.pound ∧ b ≠ Opcode.stop := by
    intro b hb
    rcases List.mem_append.1 hb with hb | hb
    · exact hlast b hb
    · exact htext b hb
  rw [← List.append_nil behind] at hpound
  have hthrough := (Through.literal hseam hpound).append hback
  have hrest : c.rest = last ++ text ++ behind := by
    rw [hc, List.append_assoc, ← hsplit]
  refine ⟨front, last, text, (ofCursor tags scope [] tag).pieces, ?_, ?_, ?_⟩
  · rw [← hpieces, ← hfirst]
    rfl
  · rw [hread, hsound]
  · refine hwhole.trans ?_
    rw [hthrough.ofCursor_eq front.reverse hrest, List.reverse_reverse]

end Reading

end Stencil
