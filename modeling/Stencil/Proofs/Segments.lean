/-
# `Stencil.Proofs.Segments` — a path and its bytes in the code

A path of the source has its segments between dots.  In the code each of them is closed by a
zero byte, and one more closes the path:

    a.b.c    ⟼    a 0 b 0 c 0 0

So the code of a path is the path with its dots turned to zero bytes, and two more behind it
(`Path.written`); of the segments as texts nothing has to be said.  That a path is text as a
whole and that its segments are texts is the same, since no longer character has a dot in it
(`isText_iff_splitOn`).

The other way goes through the readers, one lemma for each: what they have read is the names
that they give, written as bytecode writes them (`readPath_eq_ok`).  There is a choice only in
the segments themselves, for those of bytecode may hold dots and blanks.

**Proved here**, for every path and every code:

    which paths have code, how they are read back from it, and that code which is
      read as segments without dots and blanks is the code of these     (`readPath_code`)
-/
import Mathlib.Data.List.TakeWhile
import Stencil.Proofs.Path
import Stencil.Proofs.Decoding

namespace Stencil

namespace Path

/-! ## Segments and texts -/

/-- Names joined by dots are encoded as their bytes joined by dots. -/
theorem encode_intercalate (names : List String) :
    Utf8.encode (".".intercalate names) = [dot].intercalate (names.map Utf8.encode) := by
  induction names with
  | nil => rfl
  | cons name names ih =>
      cases names with
      | nil => rw [String.intercalate_singleton, List.map_singleton, List.intercalate_singleton]
      | cons next names =>
          rw [String.intercalate_cons_cons, Utf8.encode_append, Utf8.encode_append, ih,
            List.map_cons, List.map_cons, List.map_cons, List.intercalate_cons_cons]
          rfl

/-- Pieces that are texts are the encodings of names. -/
theorem exists_map_encode {pieces : List Bytes} (h : ∀ piece ∈ pieces, Utf8.IsText piece) :
    ∃ names : List String, pieces = names.map Utf8.encode := by
  induction pieces with
  | nil => exact ⟨[], rfl⟩
  | cons piece pieces ih =>
      obtain ⟨name, hname⟩ := h piece List.mem_cons_self
      obtain ⟨names, rfl⟩ := ih fun p hp => h p (List.mem_cons_of_mem _ hp)
      exact ⟨name :: names, by rw [List.map_cons, Utf8.decode?_eq_some_iff.1 hname]⟩

/-- What stands between the dots of a text is text. -/
theorem isText_of_intercalate {pieces : List Bytes}
    (h : Utf8.IsText ([dot].intercalate pieces)) : ∀ piece ∈ pieces, Utf8.IsText piece := by
  induction pieces with
  | nil => exact fun _ hp => absurd hp List.not_mem_nil
  | cons piece pieces ih =>
      cases pieces with
      | nil =>
          rw [List.intercalate_singleton] at h
          exact fun p hp => List.mem_singleton.1 hp ▸ h
      | cons next pieces =>
          rw [List.intercalate_cons_cons, List.append_assoc, List.singleton_append] at h
          obtain ⟨hpiece, hrest⟩ := h.cut (by decide)
          intro p hp
          rcases List.mem_cons.1 hp with rfl | hp
          · exact hpiece
          · exact ih hrest p hp

/-- A path is text exactly if its segments are. -/
theorem isText_iff_splitOn (path : Bytes) :
    Utf8.IsText path ↔ ∀ segment ∈ path.splitOn dot, Utf8.IsText segment := by
  have hjoin : [dot].intercalate (path.splitOn dot) = path := List.intercalate_splitOn dot
  constructor
  · intro h
    rw [← hjoin] at h
    exact isText_of_intercalate h
  · intro h
    obtain ⟨names, hnames⟩ := exists_map_encode h
    rw [← hjoin, hnames, ← encode_intercalate]
    exact Utf8.isText_encode _

/-! ## The code of a path -/

/-- The code of a path, behind its opcode, or what is wrong with the path. -/
def code (path : Bytes) : Except CompileError Bytes := encodePath <$> parse path

theorem code_eq_ok {path bs : Bytes} :
    code path = .ok bs ↔ ∃ names, parse path = .ok names ∧ bs = encodePath names := by
  rw [code]
  cases parse path with
  | error e => exact ⟨nofun, fun ⟨_, h, _⟩ => nomatch h⟩
  | ok names =>
      constructor
      · rintro ⟨⟩
        exact ⟨names, rfl, rfl⟩
      · rintro ⟨_, ⟨⟩, rfl⟩
        rfl

/-- A path with its dots turned to zero bytes, and two zero bytes behind it. -/
def written (path : Bytes) : Bytes :=
  path.map (fun b => if b = dot then Opcode.stop else b) ++ [Opcode.stop, Opcode.stop]

/-- The segments of a path, each closed by a zero byte, and one more, are the path written. -/
theorem flatMap_splitOn (path : Bytes) :
    (path.splitOn dot).flatMap (· ++ [Opcode.stop]) ++ [Opcode.stop] = written path := by
  rw [List.splitOn_eq_splitOnP]
  induction path with
  | nil => rfl
  | cons b path ih =>
      rw [List.splitOnP_cons_eq_if_modifyHead]
      by_cases hb : b = dot
      · rw [if_pos (beq_iff_eq.2 hb), List.flatMap_cons, List.append_assoc, ih, written, written,
          List.map_cons, if_pos hb]
        rfl
      · obtain ⟨first, others, hpath⟩ :=
          List.exists_cons_of_ne_nil (List.splitOnP_ne_nil (· == dot) path)
        rw [hpath] at ih ⊢
        rw [if_neg fun h => hb (beq_iff_eq.1 h), written, List.map_cons, if_neg hb,
          List.cons_append, ← written, ← ih]
        rfl

/-- The segments of a path are written as the path is. -/
theorem encodePath_eq_written {path : Bytes} {names : List String}
    (h : path.splitOn dot = names.map Utf8.encode) : encodePath names = written path := by
  rw [← flatMap_splitOn, h, encodePath, List.flatMap_map]
  rfl

/-- A path has code exactly if it is text, without blanks and zero bytes, and no segment of it is
empty. -/
theorem exists_code_iff (path : Bytes) :
    (∃ bs, code path = .ok bs) ↔
      Utf8.IsText path ∧ (∀ b ∈ path, Bytes.isBlank b = false ∧ b ≠ Opcode.stop) ∧
        ∀ segment ∈ path.splitOn dot, segment ≠ [] := by
  constructor
  · rintro ⟨bs, hbs⟩
    obtain ⟨names, hparse, -⟩ := code_eq_ok.1 hbs
    obtain ⟨hplain, hsplit, hne⟩ := parse_eq_ok.1 hparse
    have hsegments : ∀ segment ∈ path.splitOn dot, ∃ name ∈ names, Utf8.encode name = segment := by
      rw [hsplit]
      exact fun segment => List.mem_map.1
    refine ⟨(isText_iff_splitOn path).2 fun segment h => ?_, hplain, fun segment h => ?_⟩
    · obtain ⟨name, -, rfl⟩ := hsegments segment h
      exact Utf8.isText_encode name
    · obtain ⟨name, hname, rfl⟩ := hsegments segment h
      exact hne name hname
  · rintro ⟨htext, hplain, hne⟩
    obtain ⟨names, hnames⟩ := exists_map_encode ((isText_iff_splitOn path).1 htext)
    refine ⟨encodePath names, code_eq_ok.2 ⟨names, parse_eq_ok.2 ⟨hplain, hnames, ?_⟩, rfl⟩⟩
    intro name hname
    exact hne _ (hnames ▸ List.mem_map_of_mem hname)

/-- A byte of a joined path is a dot or a byte of a segment. -/
theorem eq_dot_or_mem_of_intercalate {pieces : List Bytes} {b : UInt8}
    (h : b ∈ [dot].intercalate pieces) : b = dot ∨ ∃ piece ∈ pieces, b ∈ piece := by
  induction pieces with
  | nil => exact absurd h List.not_mem_nil
  | cons piece pieces ih =>
      cases pieces with
      | nil =>
          rw [List.intercalate_singleton] at h
          exact .inr ⟨piece, List.mem_cons_self, h⟩
      | cons next pieces =>
          rw [List.intercalate_cons_cons, List.append_assoc, List.singleton_append] at h
          rcases List.mem_append.1 h with h | h
          · exact .inr ⟨piece, List.mem_cons_self, h⟩
          rcases List.mem_cons.1 h with h | h
          · exact .inl h
          · exact (ih h).imp_right fun ⟨p, hp, hb⟩ => ⟨p, List.mem_cons_of_mem _ hp, hb⟩

/-- A name without dots and blanks has no byte that is a dot or a blank. -/
theorem plain_of_mem_encode {name : String} {b : UInt8}
    (hplain : ∀ x ∈ name.toList, x ∉ ['.', ' ', '\t', '\r', '\n']) (hb : b ∈ Utf8.encode name) :
    b ≠ dot ∧ Bytes.isBlank b = false := by
  -- What is left out are single bytes, and as such they are no part of another character.
  have hout : b < 0x80 → Char.ofNat b.toNat ∉ ['.', ' ', '\t', '\r', '\n'] := fun hsmall =>
    hplain _ (Utf8.ofNat_mem_of_mem_encode hb hsmall)
  constructor
  · rintro rfl
    exact hout (by decide) (by decide)
  · rw [Bool.eq_false_iff]
    intro hblank
    simp only [Bytes.isBlank, Bool.or_eq_true, beq_iff_eq] at hblank
    rcases hblank with ((rfl | rfl) | rfl) | rfl <;> exact hout (by decide) (by decide)

/-- Names that can stand in a path of the source are the segments of the path that they make. -/
theorem parse_intercalate {names : List String} (hpath : IsPath names)
    (hplain : ∀ name ∈ names, ∀ x ∈ name.toList, x ∉ ['.', ' ', '\t', '\r', '\n']) :
    parse (Utf8.encode (".".intercalate names)) = .ok names := by
  obtain ⟨hne, hnames⟩ := hpath
  rw [encode_intercalate]
  refine parse_eq_ok.2 ⟨fun b hb => ?_, ?_, fun name hname => (hnames name hname).1⟩
  · rcases eq_dot_or_mem_of_intercalate hb with rfl | ⟨piece, hpiece, hb⟩
    · decide
    · obtain ⟨name, hname, rfl⟩ := List.mem_map.1 hpiece
      refine ⟨(plain_of_mem_encode (hplain name hname) hb).2, ?_⟩
      rintro rfl
      exact (hnames name hname).2 hb
  · refine List.splitOn_intercalate dot (fun piece hpiece hdot => ?_) fun hnil =>
      hne (List.map_eq_nil_iff.1 hnil)
    obtain ⟨name, hname, rfl⟩ := List.mem_map.1 hpiece
    exact (plain_of_mem_encode (hplain name hname) hdot).1 rfl

end Path

/-! ## What has been read -/

/-- A cursor that has bytes ahead stands within its byte string. -/
theorem Cursor.faces_of_ne_nil {c : Cursor} {bs : Bytes} (h : c.rest = bs) (hne : bs ≠ []) :
    c.Faces bs := by
  refine ⟨Nat.le_of_not_lt fun hout => hne ?_, h⟩
  rw [← h, c.rest_eq, List.drop_eq_nil_iff]
  exact Nat.le_of_lt hout

namespace CodeReader

variable {c c' : Cursor}

/-- Bytes that are read up to a zero byte are those in front of the first one. -/
theorem readClosed_eq_ok {data : Bytes} (h : readClosed c = .ok data c') :
    Opcode.stop ∉ data ∧ c.rest = data ++ Opcode.stop :: c'.rest := by
  by_cases hstop : Opcode.stop ∈ c.rest
  · obtain ⟨front, after, hrest, hfront⟩ := List.eq_append_cons_of_mem hstop
    have hfaces : c.Faces (front ++ [Opcode.stop] ++ after) :=
      Cursor.faces_of_ne_nil (by rw [hrest, List.append_assoc]; rfl) (by simp)
    obtain ⟨⟨⟩, rfl⟩ := (yields_readClosed hfront).eq_ok hfaces h
    exact ⟨hfront, by rw [hfaces.forward.2, hrest]⟩
  · have htake : c.rest.takeWhile (· != Opcode.stop) = c.rest :=
      List.takeWhile_eq_self_iff.2 fun b hb => bne_iff_ne.2 fun hb' => hstop (hb' ▸ hb)
    simp only [readClosed, htake, List.drop_length] at h
    cases h

theorem readName_eq_ok {name : String} (h : readName c = .ok name c') :
    Opcode.stop ∉ Utf8.encode name ∧ c.rest = encodeName name ++ c'.rest := by
  obtain ⟨data, c₁, hread, hdecode⟩ := Reader.bind_eq_ok h
  obtain ⟨hstop, hrest⟩ := readClosed_eq_ok hread
  cases hname : Utf8.decode? data with
  | none =>
      rw [hname] at hdecode
      cases hdecode
  | some found =>
      rw [hname] at hdecode
      cases hdecode
      obtain rfl := Utf8.decode?_eq_some_iff.1 hname
      exact ⟨hstop, by rw [encodeName_append, hrest]⟩

/-- What is read as names is their code, the names found before apart. -/
theorem readNames_eq_ok {found names : List String} (h : readNames found c = .ok names c') :
    ∃ more, names = found.reverse ++ more ∧ (∀ name ∈ more, IsName name) ∧
      c.rest = encodePath more ++ c'.rest := by
  fun_induction readNames found c with
  | case1 => cases h
  | case2 found c rest hc =>
      cases h
      exact ⟨[], (List.append_nil _).symm, fun _ hname => absurd hname List.not_mem_nil, hc⟩
  | case3 => cases h
  | case4 found c b rest hc hne name c₁ hread ih =>
      obtain ⟨more, rfl, hnames, hmore⟩ := ih h
      obtain ⟨hstop, hname⟩ := readName_eq_ok hread
      refine ⟨name :: more, by rw [List.reverse_cons, List.append_assoc]; rfl, ?_, ?_⟩
      · refine List.forall_mem_cons.2 ⟨⟨fun hnil => hne ?_, hstop⟩, hnames⟩
        rw [hc, encodeName, hnil] at hname
        exact (List.cons.inj hname).1
      · rw [hname, hmore, encodePath_cons_append]

/-- What is read as a path is the code of its segments. -/
theorem readPath_eq_ok {names : List String} (h : readPath c = .ok names c') :
    IsPath names ∧ c.rest = encodePath names ++ c'.rest ∧
      c' = c.forward (encodePath names).length := by
  have hahead := advances_readPath.ok h
  obtain ⟨found, c₁, hread, hpure⟩ := Reader.bind_eq_ok h
  obtain ⟨segments, hfound, hnames, hrest⟩ := readNames_eq_ok hread
  cases hempty : found.isEmpty with
  | true =>
      rw [hempty] at hpure
      cases hpure
  | false =>
      rw [hempty] at hpure
      cases hpure
      obtain rfl : names = segments := hfound
      exact ⟨⟨List.isEmpty_eq_false_iff.1 hempty, hnames⟩, hrest, hahead.eq_forward hrest⟩

/-- The code of a path is the path with its dots turned to zero bytes, and wherever it lies ahead
it is read as the segments of the path, to its last byte. -/
theorem readPath_of_code {path bs : Bytes} (h : Path.code path = .ok bs) :
    bs = Path.written path ∧ ∃ names, names.map Utf8.encode = path.splitOn Path.dot ∧
      ∀ (c : Cursor) (after : Bytes), c.rest = bs ++ after →
        ∃ c', readPath c = .ok names c' ∧ c'.rest = after ∧ c' = c.forward bs.length := by
  obtain ⟨names, hparse, rfl⟩ := Path.code_eq_ok.1 h
  obtain ⟨-, hsplit, -⟩ := Path.parse_eq_ok.1 hparse
  refine ⟨Path.encodePath_eq_written hsplit, names, hsplit.symm, fun c after hc => ?_⟩
  have hfaces : c.Faces (encodePath names ++ after) :=
    Cursor.faces_of_ne_nil hc (by simp [encodePath])
  exact ⟨_, yields_readPath (Path.isPath_of_parse hparse) c hfaces, hfaces.forward.2, rfl⟩

/-- Which paths have code, how it is read, and what has been read where the segments of a path
come out. -/
theorem readPath_code :
    (∀ path : Bytes, (∃ bs, Path.code path = .ok bs) ↔
      Utf8.IsText path ∧ (∀ b ∈ path, Bytes.isBlank b = false ∧ b ≠ Opcode.stop) ∧
        ∀ segment ∈ path.splitOn Path.dot, segment ≠ []) ∧
    (∀ path bs : Bytes, Path.code path = .ok bs →
      bs = Path.written path ∧ ∃ names, names.map Utf8.encode = path.splitOn Path.dot ∧
        ∀ (c : Cursor) (after : Bytes), c.rest = bs ++ after →
          ∃ c', readPath c = .ok names c' ∧ c'.rest = after ∧ c' = c.forward bs.length) ∧
    ∀ (c c' : Cursor) (names : List String), readPath c = .ok names c' →
      (∀ name ∈ names, ∀ x ∈ name.toList, x ∉ ['.', ' ', '\t', '\r', '\n']) →
        ∃ bs, Path.code (Utf8.encode (".".intercalate names)) = .ok bs ∧
          c.rest = bs ++ c'.rest ∧ c' = c.forward bs.length := by
  refine ⟨Path.exists_code_iff, fun _ _ => readPath_of_code, fun c c' names hread hplain => ?_⟩
  obtain ⟨hpath, hrest, hforward⟩ := readPath_eq_ok hread
  have hparse := Path.parse_intercalate hpath hplain
  exact ⟨encodePath names, Path.code_eq_ok.2 ⟨names, hparse, rfl⟩, hrest, hforward⟩

end CodeReader

end Stencil
