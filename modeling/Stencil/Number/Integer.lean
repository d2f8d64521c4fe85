/-
# `Stencil.Number.Integer` — integers as decimal text

Integers have any size, but their decimal text is kept to `maxDigits` digits in
both directions: a longer one is neither written nor read.

An integer text is read with white space around it, a sign, decimal digits of
any script, and single underscores between digits.
-/
import Stencil.Text.CharClass

namespace Stencil

def maxDigits : Nat := 4300

/-- A decimal text is too long: `count` is its number of digits, where they have
been counted. -/
structure TooManyDigits where
  count : Option Nat
deriving DecidableEq, Repr

namespace TooManyDigits

def message (e : TooManyDigits) : String :=
  let counted := match e.count with
    | none => ""
    | some n => s!": value has {n} digits"
  s!"Exceeds the limit ({maxDigits} digits) for integer string conversion" ++ counted ++
    "; use sys.set_int_max_str_digits() to increase the limit"

end TooManyDigits

namespace Integer

def toText (i : Int) : Except TooManyDigits String :=
  if (toString i.natAbs).length ≤ maxDigits then .ok (toString i) else .error ⟨none⟩

/-- Joins neighbouring digits of a base, the least significant first, to digits of the
square of the base. -/
def joinPairs (base : Nat) : List Nat → List Nat
  | low :: high :: rest => (low + base * high) :: joinPairs base rest
  | rest => rest

theorem length_joinPairs_le (base : Nat) : ∀ digits, (joinPairs base digits).length ≤ digits.length
  | [] | [_] => Nat.le_refl _
  | _ :: _ :: rest => by
    have := length_joinPairs_le base rest
    simp only [joinPairs, List.length_cons]
    omega

/-- The number that digits of a base spell, the least significant first.  Neighbours are
joined until one digit is left; so of many digits, only few steps are on long numbers. -/
def ofLowDigits (base : Nat) (digits : List Nat) : Nat :=
  match digits with
  | [] => 0
  | [digit] => digit
  | low :: high :: rest => ofLowDigits (base * base) ((low + base * high) :: joinPairs base rest)
termination_by digits.length
decreasing_by
  have := length_joinPairs_le base rest
  simp only [List.length_cons]
  omega

/-- Joining neighbours keeps the number: a digit counts once, those behind it count
`base` times. -/
theorem foldr_joinPairs (base : Nat) : ∀ digits,
    (joinPairs base digits).foldr (fun d n => d + base * base * n) 0 =
      digits.foldr (fun d n => d + base * n) 0
  | [] => rfl
  | [_] => by simp [joinPairs]
  | low :: high :: rest => by
    rw [joinPairs, List.foldr_cons, List.foldr_cons, List.foldr_cons, foldr_joinPairs base rest,
      Nat.mul_add, Nat.mul_assoc, Nat.add_assoc]

theorem ofLowDigits_eq_foldr (base : Nat) (digits : List Nat) :
    ofLowDigits base digits = digits.foldr (fun d n => d + base * n) 0 := by
  fun_induction ofLowDigits base digits with
  | case1 => rfl
  | case2 => simp
  | case3 base low high rest ih =>
    exact ih.trans (foldr_joinPairs base (low :: high :: rest))

def ofDigits (digits : List Nat) : Nat := ofLowDigits 10 digits.reverse

/-- A digit more at the end makes the number ten times as large, and adds itself. -/
theorem ofDigits_eq_foldl (digits : List Nat) :
    ofDigits digits = digits.foldl (fun n d => d + 10 * n) 0 := by
  rw [ofDigits, ofLowDigits_eq_foldr, List.foldr_reverse]

def naturalOfDigits (digits : List Nat) : Except TooManyDigits Nat :=
  if digits.length ≤ maxDigits then .ok (ofDigits digits) else .error ⟨some digits.length⟩

/-- The values of ASCII digits only; none if the text is empty or holds anything
else. -/
def asciiDigits? (s : String) : Option (List Nat) :=
  if s.toList.isEmpty || !s.toList.all (·.isDigit) then none
  else some (s.toList.map fun c => c.toNat - 0x30)

inductive ReadError where
  | malformed
  | tooManyDigits (e : TooManyDigits)
deriving DecidableEq, Repr

/-- The white space that may stand around an integer: of the ASCII characters,
only the space and the controls from tab to carriage return. -/
def isMargin (c : Char) : Bool :=
  c = ' ' || ('\t' ≤ c && c ≤ '\r') || (c.toNat ≥ 0x80 && CharClass.isSpace c)

/-- Reads digits with single underscores between them, to the first character
that is neither; gives the digits and what follows them.  `afterDigit` says
whether a digit stands right before, where an underscore may follow. -/
def readDigits (afterDigit : Bool) : List Char → Option (List Nat × List Char)
  | [] => if afterDigit then some ([], []) else none
  | c :: cs =>
    match CharClass.digitValue? c with
    | some d => (readDigits true cs).map fun r => (d :: r.1, r.2)
    | none =>
      if !afterDigit then none
      else if c = '_' then readDigits false cs
      else some ([], c :: cs)

def read (s : String) : Except ReadError Int :=
  let body := s.toList.dropWhile isMargin
  let (negative, unsigned) := match body with
    | '-' :: cs => (true, cs)
    | '+' :: cs => (false, cs)
    | cs => (false, cs)
  match readDigits false unsigned with
  | none => .error .malformed
  | some (digits, after) =>
    match naturalOfDigits digits with
    | .error e => .error (.tooManyDigits e)
    | .ok n =>
      if after.all isMargin then .ok (if negative then -(n : Int) else n)
      else .error .malformed

end Integer

end Stencil
