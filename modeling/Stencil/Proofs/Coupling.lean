/-
# `Stencil.Proofs.Coupling` — two compilations side by side

Most that can be said about a whole compilation compares it with another: with one that
has more levels of nesting to spend, with one that starts from another table of exports,
or with itself.  `Couples R F V m n` runs `m` and `n` from states that `R` relates.  Both
give the same value, which has the property `V`, or fail alike, and `R` relates the states
that they leave.  Some errors of `m` may be ruled out, and after others `n` may do
anything (`Faults`).

The states of two coupled compilations have each a bookkeeping of its own, and tables of
exports that an `X` relates (`CompileState.Beside`).  Mostly the bookkeeping is the same
(`CompileState.At`).  So a coupling says of each part of a compilation that it puts back the
bookkeeping that it found, be it after an error.

What a source asks to be compiled stands in its pieces (`Piece.requests`).  If each
request is answered alike by two ways to compile bodies and files, the source is compiled
alike (`Compiler.couples_passes`).  What a proof by induction on the levels of nesting has
to supply is no more than that.
-/
import Mathlib.Data.List.Forall2
import Stencil.Proofs.Extent

namespace Stencil

open EStateM (Result)

/-! ## Coupled computations -/

/-- The errors that may occur, and those after which two computations may part. -/
structure Faults (ε : Type) where
  allowed : ε → Prop
  parting : ε → Prop

/-- Every error may occur, and whatever comes after it is left open. -/
def Faults.any {ε : Type} : Faults ε := ⟨fun _ => True, fun _ => True⟩

section Agree

variable {ε σ α β : Type}

/-- The second result is the first, but for the state. -/
def Agree (R : σ → σ → Prop) (F : Faults ε) (V : α → Prop) :
    Result ε σ α → Result ε σ α → Prop
  | .ok a s, y => V a ∧ ∃ t, y = .ok a t ∧ R s t
  | .error e s, y => F.allowed e ∧ (F.parting e ∨ ∃ t, y = .error e t ∧ R s t)

/-- From related states both computations give the same, and related states. -/
def Couples (R : σ → σ → Prop) (F : Faults ε) (V : α → Prop) (m n : EStateM ε σ α) : Prop :=
  ∀ s t, R s t → Agree R F V (m s) (n t)

/-- Results that agree on equal states are equal, if nothing lets them part. -/
theorem Agree.eq {R : σ → σ → Prop} {F : Faults ε} {V : α → Prop} {x y : Result ε σ α}
    (h : Agree R F V x y) (hR : ∀ s t, R s t → s = t) (hF : ∀ e, ¬ F.parting e) : x = y := by
  cases x with
  | ok a s =>
      obtain ⟨-, t, rfl, hst⟩ := h
      rw [hR s t hst]
  | error e s =>
      obtain ⟨-, hpart | ⟨t, rfl, hst⟩⟩ := h
      · exact absurd hpart (hF e)
      · rw [hR s t hst]

namespace Couples

variable {R : σ → σ → Prop} {F : Faults ε} {V : α → Prop} {W : β → Prop} {m n : EStateM ε σ α}

theorem ok (h : Couples R F V m n) {s s' t : σ} {a : α} (hst : R s t) (hm : m s = .ok a s') :
    V a ∧ ∃ t', n t = .ok a t' ∧ R s' t' := by
  have hagree := h s t hst
  rw [hm] at hagree
  exact hagree

theorem error (h : Couples R F V m n) {s s' t : σ} {e : ε} (hst : R s t)
    (hm : m s = .error e s') :
    F.allowed e ∧ (F.parting e ∨ ∃ t', n t = .error e t' ∧ R s' t') := by
  have hagree := h s t hst
  rw [hm] at hagree
  exact hagree

theorem pure {a : α} (h : V a) : Couples R F V (Pure.pure a) (Pure.pure a : EStateM ε σ α) :=
  fun _ t hst => ⟨h, t, rfl, hst⟩

theorem throw {e : ε} (h : F.allowed e) :
    Couples R F V (throw e) (throw e : EStateM ε σ α) :=
  fun _ t hst => ⟨h, .inr ⟨t, rfl, hst⟩⟩

/-- Where the first has failed, the second may do anything. -/
theorem part {e : ε} (h : F.allowed e) (hpart : F.parting e) :
    Couples R F V (MonadExcept.throw e) n :=
  fun _ _ _ => ⟨h, .inl hpart⟩

theorem imp {V' : α → Prop} (h : Couples R F V m n) (hV : ∀ a, V a → V' a) :
    Couples R F V' m n := by
  intro s t hst
  cases hm : m s with
  | ok a s' =>
      obtain ⟨ha, hn⟩ := h.ok hst hm
      exact ⟨hV a ha, hn⟩
  | error e s' => exact h.error hst hm

theorem bind {p q : α → EStateM ε σ β} (hmn : Couples R F V m n)
    (hpq : ∀ a, V a → Couples R F W (p a) (q a)) : Couples R F W (m >>= p) (n >>= q) := by
  intro s t hst
  simp only [Bind.bind, EStateM.bind]
  cases hm : m s with
  | ok a s' =>
      obtain ⟨ha, t', hn, hst'⟩ := hmn.ok hst hm
      rw [hn]
      exact hpq a ha s' t' hst'
  | error e s' =>
      obtain ⟨hallowed, hpart | ⟨t', hn, hst'⟩⟩ := hmn.error hst hm
      · exact ⟨hallowed, .inl hpart⟩
      · rw [hn]
        exact ⟨hallowed, .inr ⟨t', rfl, hst'⟩⟩

/-- Both look at their states. -/
theorem get {p q : σ → EStateM ε σ β} (h : ∀ s t, R s t → Couples R F W (p s) (q t)) :
    Couples R F W (MonadState.get >>= p) (MonadState.get >>= q) :=
  fun s t hst => h s t hst s t hst

theorem map {f : α → β} (h : Couples R F (fun a => W (f a)) m n) :
    Couples R F W (f <$> m) (f <$> n) := by
  intro s t hst
  simp only [Functor.map, EStateM.map]
  cases hm : m s with
  | ok a s' =>
      obtain ⟨ha, t', hn, hst'⟩ := h.ok hst hm
      rw [hn]
      exact ⟨ha, t', rfl, hst'⟩
  | error e s' =>
      obtain ⟨hallowed, hpart | ⟨t', hn, hst'⟩⟩ := h.error hst hm
      · exact ⟨hallowed, .inl hpart⟩
      · rw [hn]
        exact ⟨hallowed, .inr ⟨t', rfl, hst'⟩⟩

/-- Element by element. -/
theorem mapM {V : α → β → Prop} {p q : α → EStateM ε σ β} :
    ∀ {xs : List α}, (∀ x ∈ xs, Couples R F (V x) (p x) (q x)) →
      Couples R F (fun ys => List.Forall₂ V xs ys) (xs.mapM p) (xs.mapM q)
  | [], _ => by
      rw [List.mapM_nil, List.mapM_nil]
      exact pure .nil
  | x :: xs, h => by
      rw [List.mapM_cons, List.mapM_cons]
      refine bind (h x List.mem_cons_self) ?_
      intro y hy
      refine bind (mapM fun x hx => h x (List.mem_cons_of_mem _ hx)) ?_
      intro ys hys
      exact pure (.cons hy hys)

/-- Element by element, where the facts do not depend on what is given. -/
theorem mapM_fact {V : α → Prop} {p q : α → EStateM ε σ β} {xs : List α}
    (h : ∀ x ∈ xs, Couples R F (fun _ => V x) (p x) (q x)) :
    Couples R F (fun _ => ∀ x ∈ xs, V x) (xs.mapM p) (xs.mapM q) := by
  refine (mapM (V := fun x _ => V x) h).imp ?_
  intro ys hys
  exact ((List.forall₂_and_left xs ys).1 (hys.imp fun _ _ hx => ⟨hx, trivial⟩)).1

theorem optionMapM {V : α → Prop} {p q : α → EStateM ε σ β} :
    ∀ {x : Option α}, (∀ y ∈ x, Couples R F (fun _ => V y) (p y) (q y)) →
      Couples R F (fun _ => ∀ y ∈ x, V y) (x.mapM p) (x.mapM q)
  | none, _ => pure nofun
  | some x, h => by
      refine map ((h x rfl).imp ?_)
      rintro _ hx _ ⟨⟩
      exact hx

end Couples

end Agree

/-! ## States -/

namespace CompileState

/-- The state with another table of exports. -/
def withExports (s : CompileState) (exports : Table String Bytes) : CompileState :=
  { s with exports := exports }

@[simp]
theorem exports_withExports (s : CompileState) (exports : Table String Bytes) :
    (s.withExports exports).exports = exports :=
  rfl

@[simp]
theorem scope_withExports (s : CompileState) (exports : Table String Bytes) :
    (s.withExports exports).scope = s.scope :=
  rfl

/-- Two states, each with the bookkeeping of another, and with tables of exports that `X`
relates. -/
inductive Beside (b c : CompileState) (X : Table String Bytes → Table String Bytes → Prop) :
    CompileState → CompileState → Prop where
  | intro {E G : Table String Bytes} (h : X E G) :
      Beside b c X (b.withExports E) (c.withExports G)

/-- Two states with the bookkeeping of a third. -/
abbrev At (b : CompileState) (X : Table String Bytes → Table String Bytes → Prop) :
    CompileState → CompileState → Prop :=
  b.Beside b X

theorem At.eq {b s t : CompileState} {X : Table String Bytes → Table String Bytes → Prop}
    (h : b.At X s t) (hX : ∀ E G, X E G → E = G) : s = t := by
  obtain @⟨E, G, hEG⟩ := h
  rw [hX E G hEG]

end CompileState

section Compilation

variable {α : Type} {b c : CompileState} {X : Table String Bytes → Table String Bytes → Prop}
  {F : Faults CompileError} {V : α → Prop} {m n : CompileM α}

/-- What is entered is left again. -/
theorem Couples.within {enter : CompileState → CompileState}
    {leave : CompileState → CompileState → CompileState}
    (henter : ∀ s E, enter (s.withExports E) = (enter s).withExports E)
    (hleave : ∀ s E G, leave (s.withExports E) ((enter s).withExports G) = s.withExports G)
    (h : Couples ((enter b).Beside (enter c) X) F V m n) :
    Couples (b.Beside c X) F V (CompileM.within enter leave m) (CompileM.within enter leave n) := by
  rintro _ _ ⟨hX⟩
  unfold CompileM.within
  rw [henter, henter]
  cases hm : m ((enter b).withExports _) with
  | ok a s' =>
      obtain ⟨ha, t', hn, ⟨hX'⟩⟩ := h.ok (.intro hX) hm
      rw [hn]
      refine ⟨ha, _, rfl, ?_⟩
      rw [hleave, hleave]
      exact .intro hX'
  | error e s' =>
      obtain ⟨hallowed, hpart | ⟨t', hn, ⟨hX'⟩⟩⟩ := h.error (.intro hX) hm
      · exact ⟨hallowed, .inl hpart⟩
      · rw [hn]
        refine ⟨hallowed, .inr ⟨_, rfl, ?_⟩⟩
        rw [hleave, hleave]
        exact .intro hX'

theorem Couples.underScope {scope : Option Bytes}
    (h : Couples (CompileState.Beside { b with scope := scope } { c with scope := scope } X)
      F V m n) :
    Couples (b.Beside c X) F V (CompileM.underScope scope m) (CompileM.underScope scope n) :=
  .within (fun _ _ => rfl) (fun _ _ _ => rfl) h

theorem Couples.including {location : String}
    (h : Couples (CompileState.Beside { b with including := b.including ++ [location] }
      { c with including := c.including ++ [location] } X) F V m n) :
    Couples (b.Beside c X) F V (CompileM.including location m) (CompileM.including location n) := by
  refine .within (fun _ _ => rfl) ?_ h
  intro s E G
  simp only [CompileState.withExports, List.dropLast_concat]

theorem Couples.importing {name : String}
    (h : Couples (CompileState.Beside { b with importing := b.importing ++ [name] }
      { c with importing := c.importing ++ [name] } X) F V m n) :
    Couples (b.Beside c X) F V (CompileM.importing name m) (CompileM.importing name n) := by
  refine .within (fun _ _ => rfl) ?_ h
  intro s E G
  simp only [CompileState.withExports, List.dropLast_concat]

theorem Couples.keep {name : String} {body : Bytes}
    (h : ∀ E G, X E G → X (E.insert name body) (G.insert name body)) :
    Couples (b.Beside c X) F (fun _ => True) (CompileM.keep name body)
      (CompileM.keep name body) := by
  rintro _ _ ⟨hX⟩
  exact ⟨trivial, _, rfl, .intro (h _ _ hX)⟩

end Compilation

/-! ## Requests -/

/-- The scope of the bodies in a piece that is read under a scope. -/
def Piece.bodyScope (scope : Option Bytes) : Piece → Option Bytes
  | .scopedBody inner _ => some inner
  | _ => scope

/-- The state in which further locations are being included, before its own. -/
def CompileState.behind (s : CompileState) (ahead : List String) : CompileState :=
  { s with including := ahead ++ s.including }

@[simp]
theorem CompileState.scope_behind (s : CompileState) (ahead : List String) :
    (s.behind ahead).scope = s.scope :=
  rfl

/-- Two ways to compile what a source asks for, seen from a directory, and how they
are compared.  On the left the locations `ahead` are being included as well. -/
structure Comparison where
  left : Nested
  right : Nested
  extension : String
  path : String
  ahead : List String
  exports : Table String Bytes → Table String Bytes → Prop
  faults : Faults CompileError

namespace Comparison

variable (cmp : Comparison)

/-- Both ways compile alike, and if they succeed, the fact holds. -/
abbrev Alike {α : Type} (b : CompileState) (fact : Prop) (m n : CompileM α) : Prop :=
  Couples ((b.behind cmp.ahead).Beside b cmp.exports) cmp.faults (fun _ => fact) m n

/-- A request is answered alike; and if it is answered, the fact holds. -/
def Answers (b : CompileState) (fact : Prop) : Request → Prop
  | .body source =>
      cmp.Alike b fact (cmp.left.block source cmp.path) (cmp.right.block source cmp.path)
  | .file name =>
      cmp.Alike b fact (cmp.left.file (name ++ cmp.extension) cmp.path)
        (cmp.right.file (name ++ cmp.extension) cmp.path)
  | .imported name => ∀ E G, cmp.exports E G →
      (E.find? name = none → cmp.faults.allowed (.notExported name) ∧
        (cmp.faults.parting (.notExported name) ∨ G.find? name = none)) ∧
      ∀ body, E.find? name = some body → G.find? name = some body ∧
        (name ∈ b.importing → cmp.faults.allowed (.circularImport name)) ∧
        (name ∉ b.importing → cmp.Alike { b with importing := b.importing ++ [name] } fact
          (cmp.left.block body cmp.path) (cmp.right.block body cmp.path))

/-- The requests of a piece are answered alike, which makes their facts hold, and what it
exports goes into both tables. -/
structure Follows (b : CompileState) (fact : Request → Prop) (piece : Piece) : Prop where
  answers : ∀ r ∈ piece.requests,
    cmp.Answers { b with scope := piece.bodyScope b.scope } (fact r) r
  exports : ∀ name body, piece = .exportBody name body → ∀ E G, cmp.exports E G →
    cmp.exports (E.insert name body) (G.insert name body)

/-- What the first pass leaves of a piece: an action that is resolved alike, which answers
the requests of the piece. -/
def Leaves (b : CompileState) (fact : Request → Prop) (piece : Piece) (action : Action) : Prop :=
  cmp.Alike b (∀ r ∈ piece.requests, fact r) (Action.resolve cmp.left action)
    (Action.resolve cmp.right action)

variable {cmp} {b : CompileState} {fact : Request → Prop}

/-- Where the tables are the same, and every error may occur, a name that is imported is
answered alike if the bodies that may be kept under it are compiled alike. -/
theorem answers_imported_of_eq {name : String} {fact : Prop} (hexports : cmp.exports = Eq)
    (hallowed : ∀ e, cmp.faults.allowed e)
    (h : name ∉ b.importing → ∀ body,
      cmp.Alike { b with importing := b.importing ++ [name] } fact
        (cmp.left.block body cmp.path) (cmp.right.block body cmp.path)) :
    cmp.Answers b fact (.imported name) := by
  intro E G hEG
  rw [hexports] at hEG
  subst hEG
  refine ⟨fun hnone => ⟨hallowed _, .inr hnone⟩, ?_⟩
  intro body hfind
  exact ⟨hfind, fun _ => hallowed _, fun hfresh => h hfresh body⟩

/-- Where the tables are the same, a piece is followed alike if its requests are answered
alike. -/
theorem follows_of_eq {piece : Piece} (hexports : cmp.exports = Eq)
    (h : ∀ r ∈ piece.requests,
      cmp.Answers { b with scope := piece.bodyScope b.scope } (fact r) r) :
    cmp.Follows b fact piece := by
  refine ⟨h, ?_⟩
  intro name body _ E G hEG
  rw [hexports] at hEG ⊢
  rw [hEG]

/-- What is imported under a scope. -/
theorem alike_importBody (cmp : Comparison) {scope : Option Bytes} {name : String} {fact : Prop}
    (h : cmp.Answers { b with scope := scope } fact (.imported name)) :
    cmp.Alike b fact (Action.resolveDeferral cmp.left cmp.path scope (.importBody name))
      (Action.resolveDeferral cmp.right cmp.path scope (.importBody name)) := by
  refine .get fun _ _ hst => ?_
  obtain @⟨E, G, hX⟩ := hst
  obtain ⟨hnone, hsome⟩ := h E G hX
  simp only [CompileState.exports_withExports]
  cases hfind : E.find? name with
  | none =>
      obtain ⟨hallowed, hpart | hmissing⟩ := hnone hfind
      · exact .part hallowed hpart
      · rw [hmissing]
        exact .throw hallowed
  | some body =>
      obtain ⟨hfound, hcircular, hnew⟩ := hsome body hfind
      rw [hfound]
      refine .get fun _ _ hst => ?_
      obtain ⟨-⟩ := hst
      show Couples _ _ _ (if name ∈ b.importing then _ else _) (if name ∈ b.importing then _ else _)
      by_cases hmem : name ∈ b.importing
      · rw [if_pos hmem, if_pos hmem]
        exact .throw (hcircular hmem)
      · rw [if_neg hmem, if_neg hmem]
        exact .importing (.underScope (hnew hmem))

/-- What a chain of conditions decides about. -/
theorem alike_conditional (cmp : Comparison) (fact : Request → Prop) {scope : Option Bytes}
    {branches : List (List String × Bytes)} {otherwise : Option Bytes}
    (hbranches : ∀ branch ∈ branches,
      cmp.Answers { b with scope := scope } (fact (.body branch.2)) (.body branch.2))
    (hno : ∀ source ∈ otherwise,
      cmp.Answers { b with scope := scope } (fact (.body source)) (.body source)) :
    cmp.Alike b (∀ r ∈ (Piece.conditional branches otherwise).requests, fact r)
      (Action.resolveDeferral cmp.left cmp.path scope (.conditional branches otherwise))
      (Action.resolveDeferral cmp.right cmp.path scope (.conditional branches otherwise)) := by
  have hbranch : ∀ branch ∈ branches,
      cmp.Alike b (fact (.body branch.2))
        (do
          let block ← CompileM.underScope scope (cmp.left.block branch.2 cmp.path)
          pure (branch.1, block))
        (do
          let block ← CompileM.underScope scope (cmp.right.block branch.2 cmp.path)
          pure (branch.1, block)) := by
    intro branch hmem
    exact .bind (.underScope (hbranches branch hmem)) fun _ hfact => .pure hfact
  refine .bind (.mapM_fact hbranch) fun blocks hyes => ?_
  refine .bind (.optionMapM (V := fun source => fact (.body source)) ?_) fun no hotherwise => .pure ?_
  · exact fun source hmem => .underScope (hno source hmem)
  · intro r hr
    rcases List.mem_append.1 hr with hr | hr
    · obtain ⟨branch, hmem, rfl⟩ := List.mem_map.1 hr
      exact hyes branch hmem
    · obtain ⟨source, hmem, rfl⟩ := List.mem_map.1 hr
      exact hotherwise source (Option.mem_toList.1 hmem)

/-- The first pass over a piece leaves an action, and the second answers for it. -/
theorem couples_ofPiece {piece : Piece} (h : cmp.Follows b fact piece) :
    Couples ((b.behind cmp.ahead).Beside b cmp.exports) cmp.faults (cmp.Leaves b fact piece)
      (Action.ofPiece cmp.left cmp.extension cmp.path piece)
      (Action.ofPiece cmp.right cmp.extension cmp.path piece) := by
  have hsingle : ∀ {r : Request}, fact r → ∀ other ∈ [r], fact other := by
    intro r hr other hother
    cases List.mem_singleton.1 hother
    exact hr
  refine .get fun _ _ hst => ?_
  obtain ⟨-⟩ := hst
  -- Only embedded files are compiled in the first pass, and only they are answered there.
  cases piece with
  | emit code => exact .pure (.pure nofun)
  | scopedBody inner body =>
      have hbody := h.answers _ List.mem_cons_self
      exact .pure (.underScope (hbody.imp fun _ hfact => hsingle hfact))
  | loop name iterable body =>
      have hbody := h.answers _ List.mem_cons_self
      exact .pure (.bind (.underScope hbody) fun _ hfact => .pure (hsingle hfact))
  | conditional branches otherwise =>
      refine .pure (alike_conditional cmp fact ?_ ?_)
      · intro branch hmem
        exact h.answers _ (List.mem_append_left _ (List.mem_map_of_mem hmem))
      · intro source hmem
        have hsource := List.mem_map_of_mem (f := Request.body) (Option.mem_toList.2 hmem)
        exact h.answers _ (List.mem_append_right _ hsource)
  | embedFile name =>
      have hfile := h.answers _ List.mem_cons_self
      exact .map (hfile.imp fun _ hfact => .pure (hsingle hfact))
  | exportBody name body =>
      exact .bind (.keep (h.exports name body rfl)) fun _ _ => .pure (.pure nofun)
  | importBody name =>
      have hbody := h.answers _ List.mem_cons_self
      exact .pure ((alike_importBody cmp hbody).imp fun _ hfact => hsingle hfact)
  | extendFile name =>
      have hfile := h.answers _ List.mem_cons_self
      exact .pure (.underScope (hfile.imp fun _ hfact => hsingle hfact))

theorem couples_scan {tags : TagTable} {source : Bytes}
    (hfault : ∀ e : CompileError, e.IsFault → cmp.faults.allowed e)
    (h : ∀ piece ∈ (Reading.ofBytes tags b.scope source).pieces, cmp.Follows b fact piece) :
    Couples ((b.behind cmp.ahead).Beside b cmp.exports) cmp.faults
      (List.Forall₂ (cmp.Leaves b fact) (Reading.ofBytes tags b.scope source).pieces)
      (Action.scan cmp.left tags cmp.extension source cmp.path)
      (Action.scan cmp.right tags cmp.extension source cmp.path) := by
  refine .get fun _ _ hst => ?_
  obtain ⟨-⟩ := hst
  simp only [CompileState.scope_withExports, CompileState.scope_behind]
  refine .bind (.mapM (V := cmp.Leaves b fact) fun piece hpiece => couples_ofPiece (h piece hpiece))
    fun actions hactions => ?_
  cases hread : (Reading.ofBytes tags b.scope source).fault with
  | some e => exact .throw (hfault e (Reading.isFault_of_fault hread))
  | none => exact .pure hactions

/-- The second pass over what the first has left. -/
theorem couples_resolve {pieces : List Piece} {actions : List Action}
    (h : List.Forall₂ (cmp.Leaves b fact) pieces actions) :
    cmp.Alike b (∀ piece ∈ pieces, ∀ r ∈ piece.requests, fact r)
      (actions.mapM (Action.resolve cmp.left)) (actions.mapM (Action.resolve cmp.right)) := by
  induction h with
  | nil =>
      rw [List.mapM_nil, List.mapM_nil]
      exact .pure nofun
  | @cons piece action pieces actions haction hrest ih =>
      rw [List.mapM_cons, List.mapM_cons]
      refine .bind haction fun block hpiece => .bind ih fun blocks hpieces => .pure ?_
      exact List.forall_mem_cons.2 ⟨hpiece, hpieces⟩

end Comparison

namespace Compiler

variable (compiler : Compiler)

/-- The two passes over a source. -/
def passes (nested : Nested) (source : Bytes) (path : String) : CompileM Block := do
  let actions ← Action.scan nested compiler.tags compiler.extension source path
  Block.concat <$> actions.mapM (Action.resolve nested)

/-- A level of compilation is two passes over its source. -/
theorem compileBlock_succ (levels : Nat) (source : Bytes) (path : String) :
    compiler.compileBlock (levels + 1) source path =
      compiler.passes (compiler.nestedWith (compiler.compileBlock levels)) source path :=
  rfl

variable {compiler} {b : CompileState}

/-- A file that is not ahead is compiled alike if both stores have the same source for it, and
the source is compiled alike while the file is included. -/
theorem couples_compileFileBehind {compiler' : Compiler}
    {X : Table String Bytes → Table String Bytes → Prop}
    {F : Faults CompileError} {V : Block → Prop} {block block' : Bytes → String → CompileM Block}
    {name path : String} {ahead : List String} (hahead : Location.join path name ∉ ahead)
    (hcircular : Location.join path name ∈ b.including →
      F.allowed (.circularInclude (Location.join path name)))
    (hmissing : compiler.store.load (Location.join path name) = none →
      F.allowed (.fileDoesNotExist (Location.join path name)) ∧
        (F.parting (.fileDoesNotExist (Location.join path name)) ∨
          compiler'.store.load (Location.join path name) = none))
    (hfound : Location.join path name ∉ b.including → ∀ source,
      compiler.store.load (Location.join path name) = some source →
      compiler'.store.load (Location.join path name) = some source ∧
        Couples (CompileState.Beside
            (CompileState.behind { b with including := b.including ++ [Location.join path name] }
              ahead)
            { b with including := b.including ++ [Location.join path name] } X)
          F V (block source path) (block' source path)) :
    Couples ((b.behind ahead).Beside b X) F V (compiler.compileFileWith block name path)
      (compiler'.compileFileWith block' name path) := by
  refine .get fun _ _ hst => ?_
  obtain ⟨-⟩ := hst
  show Couples _ _ _ (if Location.join path name ∈ ahead ++ b.including then _ else _)
    (if Location.join path name ∈ b.including then _ else _)
  by_cases hmem : Location.join path name ∈ b.including
  · rw [if_pos hmem, if_pos (List.mem_append_right _ hmem)]
    exact .throw (hcircular hmem)
  · rw [if_neg hmem, if_neg fun h => (List.mem_append.1 h).elim hahead hmem]
    cases hload : compiler.store.load (Location.join path name) with
    | none =>
        obtain ⟨hallowed, hpart | hload'⟩ := hmissing hload
        · exact .part hallowed hpart
        · rw [hload']
          exact .throw hallowed
    | some source =>
        obtain ⟨hload', hsource⟩ := hfound hmem source hload
        rw [hload']
        refine .including ?_
        unfold CompileState.behind at hsource ⊢
        rwa [← List.append_assoc] at hsource

theorem couples_compileFileWith {X : Table String Bytes → Table String Bytes → Prop}
    {F : Faults CompileError} {V : Block → Prop} {block block' : Bytes → String → CompileM Block}
    {name path : String}
    (hcircular : Location.join path name ∈ b.including →
      F.allowed (.circularInclude (Location.join path name)))
    (hmissing : F.allowed (.fileDoesNotExist (Location.join path name)))
    (hfound : Location.join path name ∉ b.including → ∀ source,
      compiler.store.load (Location.join path name) = some source →
      Couples (CompileState.At { b with including := b.including ++ [Location.join path name] } X)
        F V (block source path) (block' source path)) :
    Couples (b.At X) F V (compiler.compileFileWith block name path)
      (compiler.compileFileWith block' name path) :=
  couples_compileFileBehind List.not_mem_nil hcircular (fun hload => ⟨hmissing, .inr hload⟩)
    fun hmem source hload => ⟨hload, hfound hmem source hload⟩

/-- If the requests of a source are answered alike, the source is compiled alike. -/
theorem couples_passes (cmp : Comparison) (fact : Request → Prop) {source : Bytes}
    (hextension : cmp.extension = compiler.extension)
    (hfault : ∀ e : CompileError, e.IsFault → cmp.faults.allowed e)
    (h : ∀ piece ∈ (Reading.ofBytes compiler.tags b.scope source).pieces, cmp.Follows b fact piece) :
    cmp.Alike b (∀ piece ∈ (Reading.ofBytes compiler.tags b.scope source).pieces,
        ∀ r ∈ piece.requests, fact r)
      (compiler.passes cmp.left source cmp.path) (compiler.passes cmp.right source cmp.path) := by
  unfold passes
  rw [← hextension]
  refine .bind (Comparison.couples_scan hfault h) fun actions hactions => ?_
  exact .map (Comparison.couples_resolve hactions)

end Compiler

end Stencil
