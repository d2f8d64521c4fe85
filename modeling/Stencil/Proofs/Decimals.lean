/-
# `Stencil.Proofs.Decimals` — the decimal text of an integer

An integer is written in decimal digits, with a dash in front if it is below zero, and is read
from such a text again (`Integer.read_toString`).  The one thing that stands between the two is
the number of digits: more than `maxDigits` are not read, and those are counted without the dash
(`Integer.IsShort`).
-/
import Stencil.Proofs.Following

namespace Stencil

namespace Integer

/-- The decimal digits of an integer are not more than are read. -/
def IsShort (n : Int) : Prop := (toString n.natAbs).length ≤ maxDigits

instance (n : Int) : Decidable (IsShort n) := inferInstanceAs (Decidable (_ ≤ _))

/-- The decimal text of an integer: a dash in front of the negative ones, and the digits of its
distance from zero. -/
theorem toList_toString (n : Int) :
    (toString n).toList = (if n < 0 then ['-'] else []) ++ (toString n.natAbs).toList := by
  simp only [Int.toString_eq_repr, Int.repr_eq_if, Nat.toString_eq_repr]
  rcases Int.lt_or_le n 0 with hneg | hpos
  · have hdistance : (-n).toNat = n.natAbs := by omega
    rw [if_neg (by omega), if_pos hneg, hdistance, String.toList_append]
    rfl
  · have hdistance : n.toNat = n.natAbs := by omega
    rw [if_pos hpos, if_neg (by omega), hdistance, List.nil_append]

/-- The digits of a natural number, of which there is one at least. -/
theorem exists_digits (m : Nat) :
    ∃ d ds, (toString m).toList = d :: ds ∧ ∀ c ∈ d :: ds, c.isDigit = true := by
  rw [Nat.toString_eq_repr, Nat.toList_repr]
  obtain ⟨d, ds, hcons⟩ := List.exists_cons_of_ne_nil (Nat.toDigits_ne_nil (n := m) (b := 10))
  refine ⟨d, ds, hcons, fun c hc => ?_⟩
  rw [← hcons] at hc
  exact Nat.isDigit_of_mem_toDigits (by decide) (by decide) hc

theorem digitValue?_of_isDigit {c : Char} (h : c.isDigit = true) :
    CharClass.digitValue? c = some (c.toNat - 0x30) := by
  obtain ⟨hlow, hhigh⟩ := (isDigit_iff c).1 h
  have hlow' : 0x30 ≤ c.toNat := hlow
  have hhigh' : c.toNat ≤ 0x30 + 9 := hhigh
  rw [CharClass.digitValue?, CharClass.zeros, List.find?_cons_of_pos]
  · rfl
  · exact Bool.and_eq_true_iff.2 ⟨decide_eq_true hlow', decide_eq_true hhigh'⟩

theorem not_isMargin_of_isDigit {c : Char} (h : c.isDigit = true) : isMargin c = false := by
  obtain ⟨hlow, hhigh⟩ := (isDigit_iff c).1 h
  have hlow' : 0x30 ≤ c.toNat := hlow
  have hhigh' : c.toNat ≤ 0x30 + 9 := hhigh
  have hspace : c ≠ ' ' := by
    rintro rfl
    exact absurd hlow' (by decide)
  have hcontrol : ¬ c ≤ '\r' := fun (hle : c.toNat ≤ 0xD) => by omega
  have hascii : ¬ 0x80 ≤ c.toNat := by omega
  simp only [isMargin, hspace, hcontrol, hascii, decide_false, Bool.false_or, Bool.and_false,
    Bool.false_and]

theorem readDigits_of_isDigit {c : Char} {cs : List Char} (afterDigit : Bool)
    (h : ∀ d ∈ c :: cs, d.isDigit = true) :
    readDigits afterDigit (c :: cs) = some ((c :: cs).map fun d => d.toNat - 0x30, []) := by
  obtain ⟨hc, hcs⟩ := List.forall_mem_cons.1 h
  rw [readDigits, digitValue?_of_isDigit hc]
  induction cs generalizing c afterDigit with
  | nil => rfl
  | cons d ds ih =>
      obtain ⟨hd, hds⟩ := List.forall_mem_cons.1 hcs
      simp only [readDigits, digitValue?_of_isDigit hd] at ih ⊢
      simp only [ih true hcs hd hds, Option.map_some, List.map_cons]

theorem ofDigits_toString (m : Nat) :
    ofDigits ((toString m).toList.map fun c => c.toNat - 0x30) = m := by
  rw [Nat.toString_eq_repr, Nat.toList_repr]
  calc ofDigits ((Nat.toDigits 10 m).map fun c => c.toNat - 0x30)
      = (Nat.toDigits 10 m).foldl (fun n c => 10 * n + (c.toNat - 0x30)) 0 := by
        simp only [ofDigits_eq_foldl, List.foldl_map, Nat.add_comm]
    _ = Nat.ofDigitChars 10 (Nat.toDigits 10 m) 0 := Nat.ofDigitChars_eq_foldl.symm
    _ = m := Nat.ofDigitChars_ten_toDigits

/-- An integer text of a dash, or of nothing, and digits. -/
theorem read_of_digits {s : String} {d : Char} {ds : List Char} (negative : Bool)
    (h : s.toList = (if negative then ['-'] else []) ++ d :: ds)
    (hdigits : ∀ c ∈ d :: ds, c.isDigit = true) :
    read s = match naturalOfDigits ((d :: ds).map fun c => c.toNat - 0x30) with
      | .ok n => .ok (if negative then -(n : Int) else n)
      | .error e => .error (.tooManyDigits e) := by
  have hd := hdigits d List.mem_cons_self
  have hread := readDigits_of_isDigit false hdigits
  cases negative with
  | true =>
      have hbody : s.toList.dropWhile isMargin = '-' :: d :: ds := by
        rw [h]
        rfl
      simp only [read, hbody, hread]
      cases naturalOfDigits _ <;> rfl
  | false =>
      have hbody : s.toList.dropWhile isMargin = d :: ds := by
        rw [h, if_neg Bool.false_ne_true, List.nil_append, List.dropWhile_cons,
          not_isMargin_of_isDigit hd, if_neg Bool.false_ne_true]
      have hsign : ∀ c, c.isDigit = false → ∀ cs, d :: ds ≠ c :: cs := by
        rintro c hc cs ⟨⟩
        cases hd.symm.trans hc
      have hminus := hsign '-' (by decide)
      have hplus := hsign '+' (by decide)
      simp only [read, hbody, hread]
      cases naturalOfDigits _ <;> rfl

/-- The decimal text of an integer is read as that integer, if it is not too long. -/
theorem read_toString (n : Int) :
    read (toString n) =
      if IsShort n then .ok n
      else .error (.tooManyDigits ⟨some (toString n.natAbs).length⟩) := by
  obtain ⟨d, ds, hcons, hdigits⟩ := exists_digits n.natAbs
  have hnumber := ofDigits_toString n.natAbs
  have htext := toList_toString n
  have hlength : ((d :: ds).map fun c => c.toNat - 0x30).length = (toString n.natAbs).length := by
    rw [List.length_map, ← hcons, String.length_toList]
  rw [hcons] at hnumber htext
  have hsign : (if decide (n < 0) then -(n.natAbs : Int) else n.natAbs) = n := by
    simp only [decide_eq_true_eq]
    split <;> omega
  rw [read_of_digits (decide (n < 0)) (by simpa only [decide_eq_true_eq] using htext) hdigits,
    naturalOfDigits, hlength, hnumber]
  by_cases hshort : IsShort n
  · have hle : (toString n.natAbs).length ≤ maxDigits := hshort
    rw [if_pos hshort, if_pos hle]
    exact congrArg _ hsign
  · have hnot : ¬ (toString n.natAbs).length ≤ maxDigits := hshort
    rw [if_neg hshort, if_neg hnot]

end Integer

end Stencil
