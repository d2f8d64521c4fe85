/-
# `Stencil.Proofs.Path` — what paths are read as, and how scopes change them

A path is read as its segments, and nothing of it is lost: the segments are names, and
their bytes are the pieces between the dots.  So a dot between two paths joins their
segments.

Within a scope, `self` at the front of a path stands for the path of the scope.  For the
segments that means: `self` at their front is replaced by the segments of the scope
(`Path.parse_scopedPath`).  A scope within a scope is one scope (`scopedPath_scopedPath`).
-/
import Stencil.Proofs.Format
import Stencil.Source.Piece

namespace Stencil

namespace Path

theorem mapM_decode?_eq_some {pieces : List Bytes} {names : List String} :
    pieces.mapM Utf8.decode? = some names ↔ pieces = names.map Utf8.encode := by
  induction pieces generalizing names with
  | nil => cases names <;> simp
  | cons piece pieces ih =>
      rw [List.mapM_cons]
      cases names with
      | nil => cases hd : Utf8.decode? piece <;> cases hm : pieces.mapM Utf8.decode? <;> simp
      | cons name names =>
          simp only [Option.bind_eq_bind, Option.bind_eq_some_iff, Utf8.decode?_eq_some_iff, ih]
          constructor
          · rintro ⟨s, hs, ss, rfl, h⟩
            cases h
            rw [List.map_cons, hs]
          · intro h
            obtain ⟨rfl, rfl⟩ := List.cons.inj h
            exact ⟨name, rfl, names, rfl, rfl⟩

/-- A path is read as these names exactly if they are what stands between its dots, none
is empty, and there is neither a blank nor a zero byte in it. -/
theorem parse_eq_ok {path : Bytes} {names : List String} :
    parse path = .ok names ↔
      (∀ b ∈ path, Bytes.isBlank b = false ∧ b ≠ Opcode.stop) ∧
        path.splitOn dot = names.map Utf8.encode ∧ ∀ name ∈ names, Utf8.encode name ≠ [] := by
  have hplain : (∀ b ∈ path, Bytes.isBlank b = false ∧ b ≠ Opcode.stop) ↔
      path.any Bytes.isBlank = false ∧ path.findIdx? (· == Opcode.stop) = none := by
    simp only [List.any_eq_false, List.findIdx?_eq_none_iff, Bool.not_eq_true, beq_eq_false_iff_ne]
    exact ⟨fun h => ⟨fun b hb => (h b hb).1, fun b hb => (h b hb).2⟩,
      fun h b hb => ⟨h.1 b hb, h.2 b hb⟩⟩
  rw [hplain, parse]
  cases hblank : path.any Bytes.isBlank with
  | true => simp
  | false =>
      cases hnul : path.findIdx? (· == Opcode.stop) with
      | some position => simp
      | none =>
          simp only [Bool.false_eq_true, if_false, true_and]
          cases hempty : (path.splitOn dot).any List.isEmpty with
          | true =>
              obtain ⟨piece, hpiece, hnil⟩ := List.any_eq_true.1 hempty
              simp only [if_true, reduceCtorEq, false_iff, not_and]
              intro hsplit hne
              rw [hsplit] at hpiece
              obtain ⟨name, hname, rfl⟩ := List.mem_map.1 hpiece
              exact hne name hname (List.isEmpty_iff.1 hnil)
          | false =>
              have hnonempty : path.splitOn dot = names.map Utf8.encode →
                  ∀ name ∈ names, Utf8.encode name ≠ [] := by
                intro hsplit name hname hnil
                refine List.any_eq_false.1 hempty (Utf8.encode name) ?_ (List.isEmpty_iff.2 hnil)
                rw [hsplit]
                exact List.mem_map_of_mem hname
              have hread : (path.splitOn dot).mapM Utf8.decode? = some names ↔
                  path.splitOn dot = names.map Utf8.encode := mapM_decode?_eq_some
              cases hm : (path.splitOn dot).mapM Utf8.decode? with
              | none =>
                  rw [hm] at hread
                  simp only [Bool.false_eq_true, if_false, reduceCtorEq, false_iff, not_and]
                  exact fun hsplit => nomatch hread.2 hsplit
              | some found =>
                  rw [hm, Option.some.injEq] at hread
                  simp only [Bool.false_eq_true, if_false, Except.ok.injEq, hread]
                  exact ⟨fun h => ⟨h, hnonempty h⟩, And.left⟩

/-- The bytes of the segments of a path are bytes of the path. -/
theorem mem_of_splitOn {path piece : Bytes} {b : UInt8} (hpiece : piece ∈ path.splitOn dot)
    (hb : b ∈ piece) : b ∈ path := by
  rw [List.splitOn_eq_splitOnP] at hpiece
  induction path generalizing piece with
  | nil =>
      obtain rfl := List.mem_singleton.1 hpiece
      exact absurd hb List.not_mem_nil
  | cons x xs ih =>
      rw [List.splitOnP_cons_eq_if_modifyHead] at hpiece
      split at hpiece
      · rcases List.mem_cons.1 hpiece with rfl | hpiece
        · exact absurd hb List.not_mem_nil
        · exact List.mem_cons_of_mem _ (ih hpiece hb)
      · obtain ⟨first, others, hxs⟩ :=
          List.exists_cons_of_ne_nil (List.splitOnP_ne_nil (· == dot) xs)
        rw [hxs] at hpiece ih
        rcases List.mem_cons.1 hpiece with rfl | hpiece
        · rcases List.mem_cons.1 hb with rfl | hb
          · exact List.mem_cons_self
          · exact List.mem_cons_of_mem _ (ih List.mem_cons_self hb)
        · exact List.mem_cons_of_mem _ (ih (List.mem_cons_of_mem _ hpiece) hb)

/-- The segments of a path make a path that bytecode can hold. -/
theorem isPath_of_parse {path : Bytes} {names : List String} (h : parse path = .ok names) :
    IsPath names := by
  obtain ⟨hplain, hsplit, hne⟩ := parse_eq_ok.1 h
  refine ⟨?_, fun name hname => ⟨hne name hname, fun hstop => ?_⟩⟩
  · rintro rfl
    exact List.splitOn_ne_nil dot path hsplit
  · have hpiece : Utf8.encode name ∈ path.splitOn dot := hsplit ▸ List.mem_map_of_mem hname
    exact (hplain _ (mem_of_splitOn hpiece hstop)).2 rfl

theorem splitOn_append_dot (p q : Bytes) :
    (p ++ dot :: q).splitOn dot = p.splitOn dot ++ q.splitOn dot := by
  simp only [List.splitOn_eq_splitOnP]
  exact List.splitOnP_append_cons p q (beq_self_eq_true dot)

/-- A dot joins the segments of two paths. -/
theorem parse_append_dot {p q : Bytes} {ps ns : List String} (hp : parse p = .ok ps) :
    parse (p ++ dot :: q) = .ok ns ↔ ∃ qs, parse q = .ok qs ∧ ns = ps ++ qs := by
  obtain ⟨hplain, hsplit, hne⟩ := parse_eq_ok.1 hp
  constructor
  · intro h
    obtain ⟨hplain', hsplit', hne'⟩ := parse_eq_ok.1 h
    rw [splitOn_append_dot, hsplit] at hsplit'
    obtain ⟨ps', qs, rfl, hps, hqs⟩ := List.map_eq_append_iff.1 hsplit'.symm
    obtain rfl : ps' = ps := (List.map_inj_right fun _ _ => Utf8.encode_injective).1 hps
    refine ⟨qs, parse_eq_ok.2 ⟨?_, hqs.symm, ?_⟩, rfl⟩
    · intro b hb
      exact hplain' b (List.mem_append_right _ (List.mem_cons_of_mem _ hb))
    · intro name hname
      exact hne' name (List.mem_append_right _ hname)
  · rintro ⟨qs, hq, rfl⟩
    obtain ⟨hplain', hsplit', hne'⟩ := parse_eq_ok.1 hq
    refine parse_eq_ok.2 ⟨fun b hb => ?_, ?_, fun name hname => ?_⟩
    · rcases List.mem_append.1 hb with hb | hb
      · exact hplain b hb
      · rcases List.mem_cons.1 hb with rfl | hb
        · decide
        · exact hplain' b hb
    · rw [splitOn_append_dot, hsplit, hsplit', List.map_append]
    · rcases List.mem_append.1 hname with hname | hname
      · exact hne name hname
      · exact hne' name hname

/-- `parse_eq_ok`, with conditions that compute. -/
theorem parse_of_all {path : Bytes} {names : List String}
    (hplain : (path.all fun b => !Bytes.isBlank b && b != Opcode.stop) = true)
    (hsplit : path.splitOn dot = names.map Utf8.encode)
    (hne : (names.all fun name => !(Utf8.encode name).isEmpty) = true) :
    parse path = .ok names := by
  refine parse_eq_ok.2 ⟨fun b hb => ?_, hsplit, fun name hname hnil => ?_⟩
  · have hb := List.all_eq_true.1 hplain b hb
    rw [Bool.and_eq_true, Bool.not_eq_true'] at hb
    exact ⟨hb.1, bne_iff_ne.1 hb.2⟩
  · have hempty := List.all_eq_true.1 hne name hname
    rw [hnil] at hempty
    cases hempty

theorem parse_selfPath : parse selfPath = .ok ["self"] :=
  parse_of_all (by decide) (by decide) (by decide)

end Path

/-! ## Scopes -/

/-- The name that stands for the value of a scope. -/
def selfName : String := "self"

/-- The segments of a path, `self` at their front replaced by those of a scope. -/
def bindSelf (segments : List String) : List String → List String
  | [] => []
  | name :: rest => if name = selfName then segments ++ rest else name :: rest

/-- A path is `self`, or starts with it, or has nothing to do with it. -/
theorem selfPath_cases (x : Bytes) :
    x = selfPath ∨ (∃ q, x = selfPath ++ Path.dot :: q) ∨
      x ≠ selfPath ∧ ∀ q, x ≠ selfPath ++ Path.dot :: q := by
  by_cases hself : x = selfPath
  · exact .inl hself
  by_cases hdot : ∃ q, x = selfPath ++ Path.dot :: q
  · exact .inr (.inl hdot)
  · exact .inr (.inr ⟨hself, fun q hq => hdot ⟨q, hq⟩⟩)

theorem scopedPath_self (p : Bytes) : scopedPath (some p) selfPath = p := by
  rw [scopedPath, if_pos rfl]

theorem self_dot_ne_self (q : Bytes) : selfPath ++ Path.dot :: q ≠ selfPath := by
  intro h
  have hlen := congrArg List.length h
  rw [List.length_append, List.length_cons] at hlen
  omega

theorem scopedPath_self_dot (p q : Bytes) :
    scopedPath (some p) (selfPath ++ Path.dot :: q) = p ++ Path.dot :: q := by
  have hfront : (selfPath ++ [Path.dot]).isPrefixOf (selfPath ++ Path.dot :: q) = true := by
    rw [List.isPrefixOf_iff_prefix]
    exact ⟨q, List.append_assoc _ _ _⟩
  rw [scopedPath, if_neg (self_dot_ne_self q), if_pos hfront, List.drop_left]

theorem scopedPath_other (p : Bytes) {x : Bytes} (hself : x ≠ selfPath)
    (hdot : ∀ q, x ≠ selfPath ++ Path.dot :: q) : scopedPath (some p) x = x := by
  have hfront : ¬(selfPath ++ [Path.dot]).isPrefixOf x = true := by
    rw [List.isPrefixOf_iff_prefix]
    rintro ⟨q, hq⟩
    exact hdot q (by rw [← hq, List.append_assoc]; rfl)
  rw [scopedPath, if_neg hself, if_neg hfront]

/-- A path that does not start with `self` does not with a dot and more behind it. -/
theorem append_dot_ne_self {x : Bytes} (hself : x ≠ selfPath)
    (hdot : ∀ q, x ≠ selfPath ++ Path.dot :: q) (r q : Bytes) :
    x ++ Path.dot :: r ≠ selfPath ++ Path.dot :: q := by
  intro h
  have hmem : Path.dot ∉ selfPath := by decide
  rcases List.append_eq_append_iff.1 h with ⟨y, hy, hr⟩ | ⟨y, hy, hr⟩
  · cases y with
    | nil => exact hself (by rw [hy, List.append_nil])
    | cons b y =>
        obtain ⟨rfl, -⟩ := List.cons.inj hr
        exact hmem (hy ▸ List.mem_append_right _ List.mem_cons_self)
  · cases y with
    | nil => exact hself (by rw [hy, List.append_nil])
    | cons b y =>
        obtain ⟨rfl, -⟩ := List.cons.inj hr
        exact hdot y hy

/-- A scope within a scope is one scope. -/
theorem scopedPath_scopedPath (p q x : Bytes) :
    scopedPath (some (scopedPath (some p) q)) x = scopedPath (some p) (scopedPath (some q) x) := by
  rcases selfPath_cases x with rfl | ⟨r, rfl⟩ | ⟨hself, hdot⟩
  · rw [scopedPath_self, scopedPath_self]
  · rw [scopedPath_self_dot, scopedPath_self_dot]
    rcases selfPath_cases q with rfl | ⟨t, rfl⟩ | ⟨hself, hdot⟩
    · rw [scopedPath_self, scopedPath_self_dot]
    · rw [scopedPath_self_dot, List.append_assoc, List.append_assoc, List.cons_append,
        scopedPath_self_dot]
    · rw [scopedPath_other p hself hdot, scopedPath_other p ?_ (append_dot_ne_self hself hdot r)]
      intro h
      have hmem : Path.dot ∈ selfPath := h ▸ List.mem_append_right _ List.mem_cons_self
      exact absurd hmem (by decide)
  · rw [scopedPath_other _ hself hdot, scopedPath_other _ hself hdot, scopedPath_other _ hself hdot]

/-- A path within a scope is read as its own segments, with those of the scope in the
place of `self`. -/
theorem parse_scopedPath {p : Bytes} {segments : List String} (hp : Path.parse p = .ok segments)
    (x : Bytes) {names : List String} :
    Path.parse (scopedPath (some p) x) = .ok names ↔
      ∃ own, Path.parse x = .ok own ∧ names = bindSelf segments own := by
  rcases selfPath_cases x with rfl | ⟨q, rfl⟩ | ⟨hself, hdot⟩
  · rw [scopedPath_self, hp, Path.parse_selfPath]
    constructor
    · rintro ⟨⟩
      exact ⟨_, rfl, (List.append_nil segments).symm⟩
    · rintro ⟨_, ⟨⟩, rfl⟩
      exact congrArg _ (List.append_nil segments).symm
  · rw [scopedPath_self_dot, Path.parse_append_dot hp]
    constructor
    · rintro ⟨qs, hq, rfl⟩
      exact ⟨"self" :: qs, (Path.parse_append_dot Path.parse_selfPath).2 ⟨qs, hq, rfl⟩, rfl⟩
    · rintro ⟨own, hown, rfl⟩
      obtain ⟨qs, hq, rfl⟩ := (Path.parse_append_dot Path.parse_selfPath).1 hown
      exact ⟨qs, hq, rfl⟩
  · rw [scopedPath_other p hself hdot]
    have hkeep : ∀ own, Path.parse x = .ok own → bindSelf segments own = own := by
      intro own hown
      cases own with
      | nil => rfl
      | cons name rest =>
          refine if_neg ?_
          rintro rfl
          obtain ⟨-, hsplit, -⟩ := Path.parse_eq_ok.1 hown
          have hx : [Path.dot].intercalate (x.splitOn Path.dot) = x :=
            List.intercalate_splitOn Path.dot
          rw [hsplit] at hx
          cases rest with
          | nil => exact hself (hx.symm.trans List.intercalate_singleton)
          | cons next rest =>
              rw [List.map_cons, List.map_cons, List.intercalate_cons_cons] at hx
              exact hdot _ (hx.symm.trans (List.append_assoc _ _ _))
    constructor
    · intro h
      exact ⟨names, h, (hkeep names h).symm⟩
    · rintro ⟨own, hown, rfl⟩
      rw [hkeep own hown]
      exact hown

end Stencil
