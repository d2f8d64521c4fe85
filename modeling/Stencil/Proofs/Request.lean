/-
# `Stencil.Proofs.Request` — what a piece asks for, and where it stands

A piece of a source asks for other things to be compiled: the bodies in it, the files and
the exports that it names (`Piece.requests`).  All of them are spelled in the source.  A
body is a part of it, and shorter; a name stands in it between quotes.  `Piece.Within`
says so of one piece, with one lemma for each kind.
-/
import Stencil.Source.Piece

namespace Stencil

/-- What has to be compiled for a piece: a source in its body, a file, or the body that
is kept under a name. -/
inductive Request where
  | body (source : Bytes)
  | file (name : String)
  | imported (name : String)
deriving DecidableEq, Repr

namespace Piece

/-- What has to be compiled for a piece, in order. -/
def requests : Piece → List Request
  | .emit _ | .exportBody .. => []
  | .scopedBody _ body => [.body body]
  | .loop _ _ body => [.body body]
  | .conditional branches otherwise =>
      branches.map (fun branch => .body branch.2) ++ otherwise.toList.map .body
  | .embedFile name | .extendFile name => [.file name]
  | .importBody name => [.imported name]

end Piece

/-- The text lies within another, and is shorter. -/
def PartOf (text whole : Bytes) : Prop := text <:+: whole ∧ text.length < whole.length

/-- The name stands in the text, between quotes. -/
def Quotes (text : Bytes) (name : String) : Prop :=
  Sign.quote :: Utf8.encode name ++ [Sign.quote] <:+: text

theorem PartOf.mono {text whole wider : Bytes} (h : PartOf text whole) (hw : whole <:+: wider) :
    PartOf text wider :=
  ⟨h.1.trans hw, Nat.lt_of_lt_of_le h.2 hw.length_le⟩

theorem PartOf.append {text taken : Bytes} (before : Bytes) (h : PartOf text taken) :
    PartOf text (before ++ taken) :=
  h.mono (List.suffix_append before taken).isInfix

/-- The bodies and the names of a piece are parts of the text, and the scope in it is a
path. -/
structure Piece.Within (text : Bytes) (piece : Piece) : Prop where
  body : ∀ source, .body source ∈ piece.requests → PartOf source text
  file : ∀ name, .file name ∈ piece.requests → Quotes text name
  imported : ∀ name, .imported name ∈ piece.requests → Quotes text name
  kept : ∀ name source, piece = .exportBody name source → PartOf source text ∧ Quotes text name
  scope : ∀ inner source, piece = .scopedBody inner source →
    ∃ segments, Path.parse inner = .ok segments

namespace Piece

variable {text whole : Bytes}

theorem Within.mono {piece : Piece} (h : piece.Within text) (hw : text <:+: whole) :
    piece.Within whole where
  body source hsource := (h.body source hsource).mono hw
  file name hname := (h.file name hname).trans hw
  imported name hname := (h.imported name hname).trans hw
  kept name source heq := ⟨(h.kept name source heq).1.mono hw, (h.kept name source heq).2.trans hw⟩
  scope := h.scope

theorem within_emit (code : Block) : (emit code).Within text :=
  ⟨nofun, nofun, nofun, nofun, nofun⟩

theorem within_scopedBody {inner body : Bytes} {segments : List String} (h : PartOf body text)
    (hinner : Path.parse inner = .ok segments) : (scopedBody inner body).Within text := by
  refine ⟨?_, nofun, nofun, nofun, ?_⟩
  · intro source hsource
    cases List.mem_singleton.1 hsource
    exact h
  · rintro _ _ ⟨⟩
    exact ⟨segments, hinner⟩

theorem within_loop {name : String} {iterable : List String} {body : Bytes}
    (h : PartOf body text) : (loop name iterable body).Within text := by
  refine ⟨?_, nofun, nofun, nofun, nofun⟩
  intro source hsource
  cases List.mem_singleton.1 hsource
  exact h

theorem within_conditional {branches : List (List String × Bytes)} {otherwise : Option Bytes}
    (h : ∀ branch ∈ branches, PartOf branch.2 text) (hno : ∀ no ∈ otherwise, PartOf no text) :
    (conditional branches otherwise).Within text := by
  have hbody : ∀ r ∈ (conditional branches otherwise).requests,
      ∃ source, r = .body source ∧ PartOf source text := by
    intro r hr
    rcases List.mem_append.1 hr with hr | hr
    · obtain ⟨branch, hbranch, rfl⟩ := List.mem_map.1 hr
      exact ⟨_, rfl, h branch hbranch⟩
    · obtain ⟨no, hsome, rfl⟩ := List.mem_map.1 hr
      exact ⟨_, rfl, hno no (Option.mem_toList.1 hsome)⟩
  refine ⟨?_, ?_, ?_, nofun, nofun⟩
  · intro source hsource
    obtain ⟨_, ⟨⟩, hpart⟩ := hbody _ hsource
    exact hpart
  · intro name hname
    obtain ⟨_, ⟨⟩, _⟩ := hbody _ hname
  · intro name hname
    obtain ⟨_, ⟨⟩, _⟩ := hbody _ hname

theorem within_embedFile {name : String} (h : Quotes text name) : (embedFile name).Within text := by
  refine ⟨nofun, ?_, nofun, nofun, nofun⟩
  intro other hother
  cases List.mem_singleton.1 hother
  exact h

theorem within_extendFile {name : String} (h : Quotes text name) :
    (extendFile name).Within text := by
  refine ⟨nofun, ?_, nofun, nofun, nofun⟩
  intro other hother
  cases List.mem_singleton.1 hother
  exact h

theorem within_importBody {name : String} (h : Quotes text name) :
    (importBody name).Within text := by
  refine ⟨nofun, nofun, ?_, nofun, nofun⟩
  intro other hother
  cases List.mem_singleton.1 hother
  exact h

theorem within_exportBody {name : String} {body : Bytes} (h : PartOf body text)
    (hname : Quotes text name) : (exportBody name body).Within text := by
  refine ⟨nofun, nofun, nofun, ?_, nofun⟩
  rintro _ _ ⟨⟩
  exact ⟨h, hname⟩

end Piece

end Stencil
