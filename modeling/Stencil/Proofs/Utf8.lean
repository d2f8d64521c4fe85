/-
# `Stencil.Proofs.Utf8` — texts survive encoding, and well-formed bytes decoding

    decode? bs = some s  ↔  encode s = bs

Read from right to left: what a text is encoded to is decoded to that text.  Read
from left to right: a byte string that is decoded at all is the encoding of the
text, so there is one spelling for each text, and whatever is known of the bytes (no
zero byte, not empty) is known of the encoding of the text.

Both directions come down to one piece.  `readPiece` is given in terms of its
conditions on bytes, the encoding of a character in terms of its number; the two are
brought together on natural numbers, where the four lengths of a character are four
intervals.

Bytes below 0x80 are characters, and part of no others.  So a text that is cut at such a
byte falls into texts (`IsText.cut`).
-/
import Stencil.Text.Utf8
import Mathlib.Data.Char
import Mathlib.Tactic.SplitIfs

namespace Stencil.Utf8

/-! ## Bytes and numbers as numbers -/

theorem toNat_ofNat_of_lt {n : Nat} (h : n < 256) : (UInt8.ofNat n).toNat = n := by
  rw [UInt8.toNat_ofNat']
  omega

theorem eq_ofNat_of_toNat {b : UInt8} {n : Nat} (h : b.toNat = n) : b = UInt8.ofNat n := by
  rw [← h, UInt8.ofNat_toNat]

/-- The cases of `readPiece`, with the first byte as a number. -/
theorem readPiece_eq (b : UInt8) (rest : Bytes) :
    readPiece b rest =
      if b.toNat < 0x80 then (.ok (Char.ofNat b.toNat), rest)
      else if b.toNat < 0xC2 then (.error ⟨1, .invalidStart⟩, rest)
      else if b.toNat < 0xE0 then readTail 1 1 (b.toNat % 32) (secondBounds b) rest
      else if b.toNat < 0xF0 then readTail 2 1 (b.toNat % 16) (secondBounds b) rest
      else if b.toNat < 0xF5 then readTail 3 1 (b.toNat % 8) (secondBounds b) rest
      else (.error ⟨1, .invalidStart⟩, rest) := by
  simp only [readPiece, UInt8.lt_iff_toNat_lt]
  rfl

/-- The cases of `secondBounds`, with the first byte as a number. -/
theorem secondBounds_eq (b : UInt8) :
    secondBounds b =
      if b.toNat = 0xE0 then (0xA0, 0xBF)
      else if b.toNat = 0xED then (0x80, 0x9F)
      else if b.toNat = 0xF0 then (0x90, 0xBF)
      else if b.toNat = 0xF4 then (0x80, 0x8F)
      else (0x80, 0xBF) := by
  simp only [secondBounds, ← UInt8.toNat_inj]
  rfl

/-- The cases of the encoding of a character, by its number. -/
theorem utf8EncodeChar_ofNat {n : Nat} (h : n < 0xD800 ∨ 0xDFFF < n ∧ n < 0x110000) :
    String.utf8EncodeChar (Char.ofNat n) =
      if n ≤ 0x7F then [UInt8.ofNat n]
      else if n ≤ 0x7FF then
        [UInt8.ofNat (n / 64 % 32 + 0xC0), UInt8.ofNat (n % 64 + 0x80)]
      else if n ≤ 0xFFFF then
        [UInt8.ofNat (n / 4096 % 16 + 0xE0), UInt8.ofNat (n / 64 % 64 + 0x80),
          UInt8.ofNat (n % 64 + 0x80)]
      else
        [UInt8.ofNat (n / 262144 % 8 + 0xF0), UInt8.ofNat (n / 4096 % 64 + 0x80),
          UInt8.ofNat (n / 64 % 64 + 0x80), UInt8.ofNat (n % 64 + 0x80)] := by
  have hn : (Char.ofNat n).toNat = n := by
    rw [Char.ofNat, dif_pos h]
    rfl
  rw [String.utf8EncodeChar]
  simp only [Char.toNat_val, hn]

/-! ## One step of a tail -/

/-- A byte within the bounds is read, and its six low bits are added. -/
theorem readTail_within {count size code n : Nat} {bounds : UInt8 × UInt8} {rest : Bytes}
    (h : bounds.1.toNat ≤ n % 64 + 0x80 ∧ n % 64 + 0x80 ≤ bounds.2.toNat) :
    readTail (count + 1) size code bounds (UInt8.ofNat (n % 64 + 0x80) :: rest) =
      readTail count (size + 1) (code * 64 + n % 64) (0x80, 0xBF) rest := by
  have hb : (UInt8.ofNat (n % 64 + 0x80)).toNat = n % 64 + 0x80 := toNat_ofNat_of_lt (by omega)
  have hw : isWithin bounds.1 bounds.2 (UInt8.ofNat (n % 64 + 0x80)) = true := by
    simpa only [isWithin, Bool.and_eq_true, decide_eq_true_eq, UInt8.le_iff_toNat_le, hb] using h
  have ht : tailBits (UInt8.ofNat (n % 64 + 0x80)) = n % 64 := by
    rw [tailBits, hb]
    omega
  rw [readTail, if_pos hw, ht]

/-- A tail that is read begins with a byte within the bounds. -/
theorem readTail_succ_eq_ok {count size code : Nat} {bounds : UInt8 × UInt8} {bs rest : Bytes}
    {c : Char} (h : readTail (count + 1) size code bounds bs = (.ok c, rest)) :
    ∃ b bs', bs = b :: bs' ∧ bounds.1.toNat ≤ b.toNat ∧ b.toNat ≤ bounds.2.toNat ∧
      readTail count (size + 1) (code * 64 + b.toNat % 64) (0x80, 0xBF) bs' = (.ok c, rest) := by
  cases bs with
  | nil => exact nomatch h
  | cons b bs' =>
      rw [readTail] at h
      split at h
      next hb =>
        simp only [isWithin, Bool.and_eq_true, decide_eq_true_eq, UInt8.le_iff_toNat_le] at hb
        exact ⟨b, bs', rfl, hb.1, hb.2, h⟩
      · exact nomatch h

/-! ## One piece -/

/-- The bytes of a character are read as that character. -/
theorem readPiece_utf8EncodeChar {c : Char} {b : UInt8} {tail : Bytes}
    (h : String.utf8EncodeChar c = b :: tail) (rest : Bytes) :
    readPiece b (tail ++ rest) = (.ok c, rest) := by
  have hv : c.toNat < 0xD800 ∨ 0xDFFF < c.toNat ∧ c.toNat < 0x110000 := c.valid
  have hc : Char.ofNat c.toNat = c := Char.ofNat_toNat c
  rw [← hc, utf8EncodeChar_ofNat hv] at h
  have later {n : Nat} :
      (0x80 : UInt8).toNat ≤ n % 64 + 0x80 ∧ n % 64 + 0x80 ≤ (0xBF : UInt8).toNat :=
    ⟨Nat.le_add_left .., by show _ ≤ 0xBF; omega⟩
  split_ifs at h with h₁ h₂ h₃
  · obtain ⟨rfl, rfl⟩ := List.cons.inj h
    rw [readPiece_eq, toNat_ofNat_of_lt (by omega), if_pos (by omega), hc]
    rfl
  · obtain ⟨rfl, rfl⟩ := List.cons.inj h
    have hb := toNat_ofNat_of_lt (n := c.toNat / 64 % 32 + 0xC0) (by omega)
    have value : (c.toNat / 64 % 32 + 0xC0) % 32 * 64 + c.toNat % 64 = c.toNat := by omega
    rw [readPiece_eq, secondBounds_eq, hb, if_neg (by omega), if_neg (by omega), if_pos (by omega),
      if_neg (by omega), if_neg (by omega), if_neg (by omega), if_neg (by omega),
      List.cons_append, readTail_within later, readTail, value, hc]
    rfl
  · obtain ⟨rfl, rfl⟩ := List.cons.inj h
    have hb := toNat_ofNat_of_lt (n := c.toNat / 4096 % 16 + 0xE0) (by omega)
    have value : ((c.toNat / 4096 % 16 + 0xE0) % 16 * 64 + c.toNat / 64 % 64) * 64 + c.toNat % 64 =
        c.toNat := by omega
    have second : (secondBounds (UInt8.ofNat (c.toNat / 4096 % 16 + 0xE0))).1.toNat ≤
          c.toNat / 64 % 64 + 0x80 ∧ c.toNat / 64 % 64 + 0x80 ≤
        (secondBounds (UInt8.ofNat (c.toNat / 4096 % 16 + 0xE0))).2.toNat := by
      rw [secondBounds_eq, hb]
      split_ifs <;> simp <;> omega
    rw [readPiece_eq, hb, if_neg (by omega), if_neg (by omega), if_neg (by omega),
      if_pos (by omega), List.cons_append, readTail_within second, List.cons_append,
      readTail_within later, readTail, value, hc]
    rfl
  · obtain ⟨rfl, rfl⟩ := List.cons.inj h
    have hb := toNat_ofNat_of_lt (n := c.toNat / 262144 % 8 + 0xF0) (by omega)
    have value : (((c.toNat / 262144 % 8 + 0xF0) % 8 * 64 + c.toNat / 4096 % 64) * 64 +
        c.toNat / 64 % 64) * 64 + c.toNat % 64 = c.toNat := by omega
    have second : (secondBounds (UInt8.ofNat (c.toNat / 262144 % 8 + 0xF0))).1.toNat ≤
          c.toNat / 4096 % 64 + 0x80 ∧ c.toNat / 4096 % 64 + 0x80 ≤
        (secondBounds (UInt8.ofNat (c.toNat / 262144 % 8 + 0xF0))).2.toNat := by
      rw [secondBounds_eq, hb]
      split_ifs <;> simp <;> omega
    rw [readPiece_eq, hb, if_neg (by omega), if_neg (by omega), if_neg (by omega),
      if_neg (by omega), if_pos (by omega), List.cons_append, readTail_within second,
      List.cons_append, readTail_within later, List.cons_append, readTail_within later,
      readTail, value, hc]
    rfl

/-- What is read as a character is the encoding of that character. -/
theorem eq_utf8EncodeChar_of_readPiece {b : UInt8} {rest rest' : Bytes} {c : Char}
    (h : readPiece b rest = (.ok c, rest')) : b :: rest = String.utf8EncodeChar c ++ rest' := by
  have hb : b.toNat < 256 := b.toNat_lt
  rw [readPiece_eq] at h
  split_ifs at h with h₁ h₂ h₃ h₄ h₅
  · obtain ⟨⟨⟩, rfl⟩ := Prod.mk.inj h
    rw [utf8EncodeChar_ofNat (by omega), if_pos (by omega), UInt8.ofNat_toNat]
    rfl
  · exact nomatch (Prod.mk.inj h).1
  · obtain ⟨b₂, r₂, rfl, lo₂, hi₂, h⟩ := readTail_succ_eq_ok h
    obtain ⟨⟨⟩, rfl⟩ := Prod.mk.inj h
    rw [secondBounds_eq, if_neg (by omega), if_neg (by omega), if_neg (by omega),
      if_neg (by omega)] at lo₂ hi₂
    simp only [UInt8.reduceToNat] at lo₂ hi₂
    rw [utf8EncodeChar_ofNat (by omega), if_neg (by omega), if_pos (by omega),
      ← eq_ofNat_of_toNat (b := b) (by omega), ← eq_ofNat_of_toNat (b := b₂) (by omega)]
    rfl
  · obtain ⟨b₂, r₂, rfl, lo₂, hi₂, h⟩ := readTail_succ_eq_ok h
    obtain ⟨b₃, r₃, rfl, lo₃, hi₃, h⟩ := readTail_succ_eq_ok h
    obtain ⟨⟨⟩, rfl⟩ := Prod.mk.inj h
    -- Overlong spellings and surrogates are what the bounds of the second byte exclude.
    have second : (b.toNat = 0xE0 → 0xA0 ≤ b₂.toNat) ∧ (b.toNat = 0xED → b₂.toNat ≤ 0x9F) ∧
        0x80 ≤ b₂.toNat ∧ b₂.toNat ≤ 0xBF := by
      rw [secondBounds_eq] at lo₂ hi₂
      split_ifs at lo₂ hi₂ <;> simp only [UInt8.reduceToNat] at lo₂ hi₂ <;> omega
    simp only [UInt8.reduceToNat] at lo₃ hi₃
    rw [utf8EncodeChar_ofNat (by omega), if_neg (by omega), if_neg (by omega), if_pos (by omega),
      ← eq_ofNat_of_toNat (b := b) (by omega), ← eq_ofNat_of_toNat (b := b₂) (by omega),
      ← eq_ofNat_of_toNat (b := b₃) (by omega)]
    rfl
  · obtain ⟨b₂, r₂, rfl, lo₂, hi₂, h⟩ := readTail_succ_eq_ok h
    obtain ⟨b₃, r₃, rfl, lo₃, hi₃, h⟩ := readTail_succ_eq_ok h
    obtain ⟨b₄, r₄, rfl, lo₄, hi₄, h⟩ := readTail_succ_eq_ok h
    obtain ⟨⟨⟩, rfl⟩ := Prod.mk.inj h
    have second : (b.toNat = 0xF0 → 0x90 ≤ b₂.toNat) ∧ (b.toNat = 0xF4 → b₂.toNat ≤ 0x8F) ∧
        0x80 ≤ b₂.toNat ∧ b₂.toNat ≤ 0xBF := by
      rw [secondBounds_eq] at lo₂ hi₂
      split_ifs at lo₂ hi₂ <;> simp only [UInt8.reduceToNat] at lo₂ hi₂ <;> omega
    simp only [UInt8.reduceToNat] at lo₃ hi₃ lo₄ hi₄
    rw [utf8EncodeChar_ofNat (by omega), if_neg (by omega), if_neg (by omega), if_neg (by omega),
      ← eq_ofNat_of_toNat (b := b) (by omega), ← eq_ofNat_of_toNat (b := b₂) (by omega),
      ← eq_ofNat_of_toNat (b := b₃) (by omega), ← eq_ofNat_of_toNat (b := b₄) (by omega)]
    rfl
  · exact nomatch (Prod.mk.inj h).1

/-! ## All pieces -/

theorem pieces_utf8EncodeChar_append (c : Char) (rest : Bytes) :
    pieces (String.utf8EncodeChar c ++ rest) = .ok c :: pieces rest := by
  cases hc : String.utf8EncodeChar c with
  | nil => exact absurd hc String.utf8EncodeChar_ne_nil
  | cons b tail => rw [List.cons_append, pieces_cons, readPiece_utf8EncodeChar hc]

theorem pieces_flatMap_utf8EncodeChar : ∀ cs : List Char,
    pieces (cs.flatMap String.utf8EncodeChar) = cs.map .ok
  | [] => pieces_nil
  | c :: cs => by
      rw [List.flatMap_cons, pieces_utf8EncodeChar_append, pieces_flatMap_utf8EncodeChar cs]
      rfl

/-- Bytes all of whose pieces are characters are the encodings of these. -/
theorem eq_flatMap_of_pieces (bs : Bytes) (cs : List Char) (h : pieces bs = cs.map .ok) :
    bs = cs.flatMap String.utf8EncodeChar := by
  match bs, cs with
  | [], [] => rfl
  | [], c :: cs =>
      rw [pieces_nil] at h
      exact nomatch h
  | b :: rest, [] =>
      rw [pieces_cons] at h
      exact nomatch h
  | b :: rest, c :: cs =>
      rw [pieces_cons, List.map_cons] at h
      obtain ⟨hc, hrest⟩ := List.cons.inj h
      have hp : readPiece b rest = (.ok c, (readPiece b rest).2) := Prod.ext hc rfl
      have shorter := length_readPiece_le b rest
      rw [eq_utf8EncodeChar_of_readPiece hp, eq_flatMap_of_pieces _ cs hrest, List.flatMap_cons]
termination_by bs.length
decreasing_by
  simp only [List.length_cons]
  omega

theorem gather_map_ok : ∀ (cs read : List Char) (start : Nat),
    gather read start (cs.map .ok) = .ok (read.reverse ++ cs)
  | [], read, _ => by rw [List.map_nil, gather, List.append_nil]
  | c :: cs, read, start => by
      rw [List.map_cons, gather, gather_map_ok cs (c :: read), List.reverse_cons, List.append_assoc]
      rfl

theorem eq_map_ok_of_gather : ∀ {ps : List Piece} {read cs : List Char} {start : Nat},
    gather read start ps = .ok cs → ∃ cs', cs = read.reverse ++ cs' ∧ ps = cs'.map .ok
  | [], read, cs, _, h => by
      cases h
      exact ⟨[], (List.append_nil _).symm, rfl⟩
  | .ok c :: ps, read, cs, start, h => by
      obtain ⟨cs', rfl, rfl⟩ := @eq_map_ok_of_gather ps (c :: read) cs _ h
      exact ⟨c :: cs', by rw [List.reverse_cons, List.append_assoc]; rfl, rfl⟩
  | .error _ :: _, _, _, _, h => nomatch h

/-! ## Texts -/

/-- A text is decoded from its encoding. -/
theorem decode?_encode (s : String) : decode? (encode s) = some s := by
  rw [decode?, decode, encode, pieces_flatMap_utf8EncodeChar, gather_map_ok]
  exact congrArg some (String.ofList_toList (s := s))

/-- A byte string is decoded to a text exactly if it is the encoding of the text. -/
theorem decode?_eq_some_iff {bs : Bytes} {s : String} : decode? bs = some s ↔ encode s = bs := by
  constructor
  · intro h
    rw [decode?, decode] at h
    cases hg : gather [] 0 (pieces bs) with
    | error e => rw [hg] at h; exact nomatch h
    | ok cs =>
        rw [hg] at h
        obtain rfl : String.ofList cs = s := Option.some.inj h
        obtain ⟨cs', hcs, hp⟩ := eq_map_ok_of_gather hg
        rw [encode, String.toList_ofList, hcs, eq_flatMap_of_pieces bs cs' hp]
        rfl
  · rintro rfl
    exact decode?_encode s

theorem encode_injective {s t : String} (h : encode s = encode t) : s = t :=
  Option.some.inj ((decode?_encode s).symm.trans (h ▸ decode?_encode t))

/-! ## Cutting -/

theorem encode_append (s t : String) : encode (s ++ t) = encode s ++ encode t := by
  rw [encode, String.toList_append, List.flatMap_append]
  rfl

/-- Bytes that are decoded to a text. -/
def IsText (bs : Bytes) : Prop := ∃ s, decode? bs = some s

theorem isText_iff {bs : Bytes} :
    IsText bs ↔ ∃ cs : List Char, cs.flatMap String.utf8EncodeChar = bs := by
  constructor
  · rintro ⟨s, hs⟩
    exact ⟨s.toList, decode?_eq_some_iff.1 hs⟩
  · rintro ⟨cs, rfl⟩
    refine ⟨String.ofList cs, decode?_eq_some_iff.2 ?_⟩
    rw [encode, String.toList_ofList]

theorem isText_encode (s : String) : IsText (encode s) := ⟨s, decode?_encode s⟩

theorem isText_nil : IsText [] := isText_encode ""

theorem IsText.append {x y : Bytes} (hx : IsText x) (hy : IsText y) : IsText (x ++ y) := by
  obtain ⟨cs, rfl⟩ := isText_iff.1 hx
  obtain ⟨ds, rfl⟩ := isText_iff.1 hy
  exact isText_iff.2 ⟨cs ++ ds, List.flatMap_append⟩

/-- A byte below 0x80 is no part of a longer character. -/
theorem utf8EncodeChar_eq_singleton {c : Char} {b : UInt8} (h : b ∈ String.utf8EncodeChar c)
    (hb : b < 0x80) : String.utf8EncodeChar c = [b] := by
  have hv : c.toNat < 0xD800 ∨ 0xDFFF < c.toNat ∧ c.toNat < 0x110000 := c.valid
  have hlater : ∀ n : Nat, n < 256 → b = UInt8.ofNat n → n < 0x80 := by
    rintro n hn rfl
    rwa [UInt8.lt_iff_toNat_lt, toNat_ofNat_of_lt hn] at hb
  rw [← Char.ofNat_toNat c, utf8EncodeChar_ofNat hv] at h ⊢
  split_ifs at h ⊢ with h₁ h₂ h₃
  · rw [List.mem_singleton.1 h]
  -- Every byte of a longer character has its high bit set.
  all_goals simp only [List.mem_cons, List.not_mem_nil, or_false] at h
  · rcases h with h | h <;> exact absurd (hlater _ (by omega) h) (by omega)
  · rcases h with h | h | h <;> exact absurd (hlater _ (by omega) h) (by omega)
  · rcases h with h | h | h | h <;> exact absurd (hlater _ (by omega) h) (by omega)

/-- A byte below 0x80 in a text is a character of it. -/
theorem ofNat_mem_of_mem_encode {s : String} {b : UInt8} (h : b ∈ encode s) (hb : b < 0x80) :
    Char.ofNat b.toNat ∈ s.toList := by
  obtain ⟨c, hc, hmem⟩ := List.mem_flatMap.1 h
  have hb : b.toNat < 0x80 := UInt8.lt_iff_toNat_lt.1 hb
  have hchar : String.utf8EncodeChar (Char.ofNat b.toNat) = [b] := by
    rw [utf8EncodeChar_ofNat (.inl (by omega)), if_pos (by omega), UInt8.ofNat_toNat]
  have hsame : encode (String.singleton c) = encode (String.singleton (Char.ofNat b.toNat)) := by
    simp [encode, hchar, utf8EncodeChar_eq_singleton hmem (UInt8.lt_iff_toNat_lt.2 hb)]
  have hlist := congrArg String.toList (encode_injective hsame)
  rw [String.toList_singleton, String.toList_singleton] at hlist
  rwa [← List.singleton_inj.1 hlist]

/-- A text that is cut at a byte below 0x80 is a text before the byte, and behind it. -/
theorem IsText.cut {x y : Bytes} {b : UInt8} (h : IsText (x ++ b :: y)) (hb : b < 0x80) :
    IsText x ∧ IsText y := by
  obtain ⟨cs, hcs⟩ := isText_iff.1 h
  clear h
  induction cs generalizing x with
  | nil => exact absurd hcs.symm (List.append_ne_nil_of_right_ne_nil _ (List.cons_ne_nil _ _))
  | cons c cs ih =>
      rw [List.flatMap_cons] at hcs
      rcases List.append_eq_append_iff.1 hcs with ⟨x', rfl, hrest⟩ | ⟨inside, hc, hrest⟩
      · obtain ⟨hx, hy⟩ := ih hrest
        exact ⟨(isText_iff.2 ⟨[c], List.flatMap_singleton ..⟩).append hx, hy⟩
      · cases inside with
        | nil =>
            rw [List.append_nil] at hc
            obtain ⟨-, hy⟩ := ih (x := []) hrest.symm
            exact ⟨isText_iff.2 ⟨[c], by rw [List.flatMap_singleton, hc]⟩, hy⟩
        | cons b' inside =>
            obtain ⟨rfl, rfl⟩ := List.cons.inj hrest
            -- The byte is a character, and the cut is in front of it and behind it.
            have hone : String.utf8EncodeChar c = [b] :=
              utf8EncodeChar_eq_singleton (hc ▸ List.mem_append_right _ List.mem_cons_self) hb
            obtain ⟨rfl, rfl⟩ : x = [] ∧ inside = [] := by
              rw [hone] at hc
              simpa using List.append_eq_singleton_iff.1 hc.symm
            exact ⟨isText_nil, isText_iff.2 ⟨cs, rfl⟩⟩

end Stencil.Utf8
