/-
# `Stencil.Proofs.Packaging` — packages are the images of bytecode

A package has four parts: a header, a seal, a length and the bytecode.

    byte string                                           opens as
    does not begin with the header                        a bad header
    begins with it, too short for a seal and a length     truncated
    the length is not that of what lies behind it         a wrong length
    the seal is not the digest of what lies behind        a wrong seal
    all of it fits                                        the bytecode

The table is complete (`Package.exists_parts`), so that a byte string opens if it is the
package of some bytecode, and else not.  The length is what makes no package the beginning
of another, for the digest might be the same.

**Proved here**, for bytecode shorter than 2 ^ 32:

    packages open as what they are made of, and nothing else opens   (`Template.ofPackage_package_iff`)

Of the digest it is used only that it is a function, and that it has 32 bytes.
-/
import Stencil.Package.Basic
import Stencil.Proofs.Format

namespace Stencil

/-- Four bytes are the field of the number that they spell, and of no other. -/
theorem Bytes.ofLittleEndian_eq_iff {field : Bytes} (h : field.length = lengthFieldSize) {n : Nat} :
    ofLittleEndian field = n ↔ n < lengthBound ∧ field = lengthField n := by
  constructor
  · rintro rfl
    obtain ⟨a, b, c, d, rfl⟩ : ∃ a b c d, field = [a, b, c, d] := by
      match field, h with
      | [a, b, c, d], _ => exact ⟨a, b, c, d, rfl⟩
    have ha := a.toNat_lt
    have hb := b.toNat_lt
    have hc := c.toNat_lt
    have hd := d.toNat_lt
    simp only [ofLittleEndian, lengthField, lengthBound, List.cons.injEq, ← UInt8.toNat_inj,
      UInt8.toNat_ofNat', Nat.reducePow, and_true]
    omega
  · rintro ⟨hn, rfl⟩
    exact ofLittleEndian_lengthField hn

namespace Package

variable {front stamp field code : Bytes}

/-! ## The parts of a package -/

/-- A byte string in four parts. -/
def ofParts (front stamp field code : Bytes) : Bytes := front ++ (stamp ++ (field ++ code))

theorem package_eq_ofParts (t : Template) : t.package =
    ofParts header (Sha256.digest t.code) (Bytes.lengthField t.code.length) t.code := by
  simp only [Template.package, ofParts, List.append_assoc]

/-- The parts of a package can be told from its bytes. -/
theorem parts_of_eq_package {t : Template} (hfront : front.length = header.length)
    (hstamp : stamp.length = Sha256.digestSize) (hfield : field.length = Bytes.lengthFieldSize)
    (h : ofParts front stamp field code = t.package) :
    front = header ∧ stamp = Sha256.digest t.code ∧
      field = Bytes.lengthField t.code.length ∧ code = t.code := by
  rw [package_eq_ofParts] at h
  obtain ⟨hheader, h⟩ := List.append_inj h hfront
  obtain ⟨hdigest, h⟩ := List.append_inj h (hstamp.trans (Sha256.length_digest _).symm)
  obtain ⟨hlength, hcode⟩ := List.append_inj h (hfield.trans (Bytes.length_lengthField _).symm)
  exact ⟨hheader, hdigest, hlength, hcode⟩

/-! ## What a byte string opens as -/

theorem ofPackage_badHeader {d : Bytes} (h : ¬ header <+: d) :
    Template.ofPackage d = .error .badHeader := by
  have hbad : header.isPrefixOf d = false := by
    rwa [← Bool.not_eq_true, List.isPrefixOf_iff_prefix]
  simp only [Template.ofPackage, hbad, Bool.not_false, if_true]

theorem ofPackage_truncated {d : Bytes} (h : header <+: d)
    (hshort : d.length < header.length + Sha256.digestSize + Bytes.lengthFieldSize) :
    Template.ofPackage d = .error .truncated := by
  have hgood : header.isPrefixOf d = true := List.isPrefixOf_iff_prefix.2 h
  have hbody : (d.drop (header.length + Sha256.digestSize)).length < Bytes.lengthFieldSize := by
    rw [List.length_drop]
    have hpos : 0 < Bytes.lengthFieldSize := by decide
    omega
  simp only [Template.ofPackage, hgood, Bool.not_true, Bool.false_eq_true, if_false, hbody, if_true]

theorem ofPackage_ofParts (hstamp : stamp.length = Sha256.digestSize)
    (hfield : field.length = Bytes.lengthFieldSize) :
    Template.ofPackage (ofParts header stamp field code) =
      if code.length ≠ Bytes.ofLittleEndian field then
        .error (.wrongLength (Bytes.ofLittleEndian field) code.length)
      else if Sha256.digest code ≠ stamp then .error .wrongSeal
      else .ok ⟨code⟩ := by
  have hgood : header.isPrefixOf (ofParts header stamp field code) = true :=
    List.isPrefixOf_iff_prefix.2 (List.prefix_append _ _)
  have hafter : (ofParts header stamp field code).drop header.length = stamp ++ (field ++ code) :=
    List.drop_left
  have hsealOf : Template.sealOf (ofParts header stamp field code) = stamp := by
    rw [Template.sealOf, hafter, ← hstamp, List.take_left]
  have hbody : (ofParts header stamp field code).drop (header.length + Sha256.digestSize) =
      field ++ code := by
    rw [← List.drop_drop, hafter, ← hstamp, List.drop_left]
  have hlong : ¬ (field ++ code).length < Bytes.lengthFieldSize := by
    rw [List.length_append, hfield]
    omega
  have htake : (field ++ code).take Bytes.lengthFieldSize = field := by
    rw [← hfield, List.take_left]
  have hdrop : (field ++ code).drop Bytes.lengthFieldSize = code := by
    rw [← hfield, List.drop_left]
  simp only [Template.ofPackage, hgood, Bool.not_true, Bool.false_eq_true, if_false, hsealOf, hbody,
    hlong, htake, hdrop]

/-- Behind the header, and if it is long enough, a byte string has the parts of a package. -/
theorem exists_parts {d : Bytes} (h : header <+: d)
    (hlong : header.length + Sha256.digestSize + Bytes.lengthFieldSize ≤ d.length) :
    ∃ stamp field code, stamp.length = Sha256.digestSize ∧ field.length = Bytes.lengthFieldSize ∧
      d = ofParts header stamp field code := by
  obtain ⟨rest, rfl⟩ := h
  rw [List.length_append] at hlong
  refine ⟨rest.take Sha256.digestSize,
    (rest.drop Sha256.digestSize).take Bytes.lengthFieldSize,
    (rest.drop Sha256.digestSize).drop Bytes.lengthFieldSize, ?_, ?_, ?_⟩
  · rw [List.length_take]
    omega
  · rw [List.length_take, List.length_drop]
    omega
  · rw [ofParts, List.take_append_drop, List.take_append_drop]

/-- What opens has the parts of a package, and all of them fit. -/
theorem parts_of_ofPackage {d : Bytes} {t : Template} (h : Template.ofPackage d = .ok t) :
    t.code.length < Bytes.lengthBound ∧ d = t.package := by
  by_cases hheader : header <+: d
  · by_cases hlong : header.length + Sha256.digestSize + Bytes.lengthFieldSize ≤ d.length
    · obtain ⟨stamp, field, code, hstamp, hfield, rfl⟩ := exists_parts hheader hlong
      rw [ofPackage_ofParts hstamp hfield] at h
      split at h
      · cases h
      next hlength =>
        split at h
        · cases h
        next hdigest =>
          cases h
          have hcode := (Bytes.ofLittleEndian_eq_iff hfield).1 (not_not.1 hlength).symm
          refine ⟨hcode.1, ?_⟩
          rw [package_eq_ofParts, ← hcode.2, not_not.1 hdigest]
    · cases (ofPackage_truncated hheader (Nat.lt_of_not_le hlong)).symm.trans h
  · cases (ofPackage_badHeader hheader).symm.trans h

end Package

namespace Template

open Package

variable {t t' : Template}

/-- A package opens as what it is made of. -/
theorem open_package (ht : t.code.length < Bytes.lengthBound) : ofPackage t.package = .ok t := by
  rw [package_eq_ofParts, ofPackage_ofParts (Sha256.length_digest _) (Bytes.length_lengthField _),
    Bytes.ofLittleEndian_lengthField ht, if_neg (not_not.2 rfl), if_neg (not_not.2 rfl)]

/-- No package begins another. -/
theorem eq_of_package_prefix (ht : t.code.length < Bytes.lengthBound)
    (ht' : t'.code.length < Bytes.lengthBound) (h : t.package <+: t'.package) : t = t' := by
  obtain ⟨rest, hrest⟩ := h
  have hparts : ofParts header (Sha256.digest t.code) (Bytes.lengthField t.code.length)
      (t.code ++ rest) = t'.package := by
    rw [← hrest, package_eq_ofParts]
    simp only [ofParts, List.append_assoc]
  obtain ⟨-, -, hfields, hcode⟩ :=
    parts_of_eq_package rfl (Sha256.length_digest _) (Bytes.length_lengthField _) hparts
  have hlength : t.code.length = t'.code.length := by
    rw [← Bytes.ofLittleEndian_lengthField ht, hfields, Bytes.ofLittleEndian_lengthField ht']
  rw [← List.append_nil t'.code] at hcode
  obtain ⟨hsame, -⟩ := List.append_inj hcode hlength
  cases t
  cases t'
  exact congrArg Template.mk hsame

/-- What becomes of a package if bytes are missing at its end or added there, or if one of its
parts is replaced, the bytecode by such of another digest. -/
inductive Damaged (t : Template) : Bytes → Prop where
  | cut {d rest : Bytes} (hrest : rest ≠ []) (h : d ++ rest = t.package) : Damaged t d
  | extended {rest : Bytes} (hrest : rest ≠ []) : Damaged t (t.package ++ rest)
  | front {front : Bytes} (hlength : front.length = header.length) (h : front ≠ header) :
      Damaged t (ofParts front (Sha256.digest t.code) (Bytes.lengthField t.code.length) t.code)
  | stamp {stamp : Bytes} (hlength : stamp.length = Sha256.digestSize) (h : stamp ≠ Sha256.digest t.code) :
      Damaged t (ofParts header stamp (Bytes.lengthField t.code.length) t.code)
  | length {field : Bytes} (hlength : field.length = Bytes.lengthFieldSize)
      (h : field ≠ Bytes.lengthField t.code.length) :
      Damaged t (ofParts header (Sha256.digest t.code) field t.code)
  | code {code : Bytes} (h : Sha256.digest code ≠ Sha256.digest t.code) :
      Damaged t (ofParts header (Sha256.digest t.code) (Bytes.lengthField t.code.length) code)

/-- A damaged package is not the package of anything. -/
theorem Damaged.ne_package {d : Bytes} (h : Damaged t d) (ht : t.code.length < Bytes.lengthBound)
    (ht' : t'.code.length < Bytes.lengthBound) : d ≠ t'.package := by
  have hdigest := Sha256.length_digest t.code
  have hlength := Bytes.length_lengthField t.code.length
  intro hd
  cases h with
  | @cut d rest hrest hcut =>
      have hsame : t' = t := eq_of_package_prefix ht' ht ⟨rest, by rw [← hd, hcut]⟩
      rw [hd, hsame] at hcut
      exact hrest (List.append_right_eq_self.1 hcut)
  | @extended rest hrest =>
      have hsame : t = t' := eq_of_package_prefix ht ht' ⟨rest, hd⟩
      rw [← hsame] at hd
      exact hrest (List.append_right_eq_self.1 hd)
  | front hfront hne =>
      obtain ⟨hsame, -⟩ := parts_of_eq_package hfront hdigest hlength hd
      exact hne hsame
  | stamp hstamp hne =>
      obtain ⟨-, hsame, -, hcode⟩ := parts_of_eq_package rfl hstamp hlength hd
      rw [hcode] at hne
      exact hne hsame
  | length hfield hne =>
      obtain ⟨-, -, hsame, hcode⟩ := parts_of_eq_package rfl hdigest hfield hd
      rw [hcode] at hne
      exact hne hsame
  | code hne =>
      obtain ⟨-, hsame, -, hcode⟩ := parts_of_eq_package rfl hdigest hlength hd
      rw [hcode] at hne
      exact hne hsame.symm

/-- Packages are the images of bytecode: they open as what they are made of, a byte string
opens as a template exactly if it is its package, and every other one is refused, the damaged
packages among them. -/
theorem ofPackage_package_iff :
    (∀ t : Template, t.code.length < Bytes.lengthBound → ofPackage t.package = .ok t) ∧
      (∀ d t, ofPackage d = .ok t ↔ t.code.length < Bytes.lengthBound ∧ d = t.package) ∧
      (∀ d, (∀ t : Template, t.code.length < Bytes.lengthBound → d ≠ t.package) →
        ∃ e, ofPackage d = .error e) ∧
      ∀ t d, t.code.length < Bytes.lengthBound → Damaged t d → ∃ e, ofPackage d = .error e := by
  have hrefused : ∀ d, (∀ t : Template, t.code.length < Bytes.lengthBound → d ≠ t.package) →
      ∃ e, ofPackage d = .error e := by
    intro d hd
    cases hopen : ofPackage d with
    | error e => exact ⟨e, rfl⟩
    | ok t =>
        obtain ⟨hlength, hpackage⟩ := parts_of_ofPackage hopen
        exact absurd hpackage (hd t hlength)
  refine ⟨fun t ht => open_package ht, ?_, hrefused, ?_⟩
  · intro d t
    constructor
    · exact parts_of_ofPackage
    · rintro ⟨ht, rfl⟩
      exact open_package ht
  · intro t d ht hd
    exact hrefused d fun t' ht' => hd.ne_package ht ht'

/-- The package of the template that writes nothing, and what is left of it without its last
byte. -/
theorem ofPackage_package_iff_idle :
    let t := Template.mk Block.done.code
    t.code.length < Bytes.lengthBound ∧ ofPackage t.package = .ok t ∧
      Damaged t t.package.dropLast ∧ ∃ e, ofPackage t.package.dropLast = .error e := by
  intro t
  obtain ⟨hopens, -, -, hdamaged⟩ := ofPackage_package_iff
  have ht : t.code.length < Bytes.lengthBound := by decide
  have hcut : Damaged t t.package.dropLast := by
    have hrest : t.package.dropLast ++ Block.done.code = t.package := by
      rw [package_eq_ofParts]
      simp [t, ofParts, Block.code, Block.encodeBefore]
    exact .cut (by decide) hrest
  exact ⟨ht, hopens t ht, hcut, hdamaged t _ ht hcut⟩

end Template

end Stencil
