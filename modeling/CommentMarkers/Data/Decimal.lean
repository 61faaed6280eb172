/-!
# Decimal fractions

A decimal fraction is a whole number, its coefficient, times a power of ten. It is written with
the fewest digits: positionally while the first digit stands less than five places behind the point
and less than seventeen places in front of it, and with an exponent otherwise.

Main results:

- Theorem `stripZeros_spec`: dropping the zeros at the end keeps the number.
-/

namespace CommentMarkers

/-- The number `coefficient * 10 ^ exponent`, or its negative. -/
structure Decimal where
  negative : Bool
  coefficient : Nat
  exponent : Int
  deriving DecidableEq, Repr

namespace Decimal

/-- Drops the zeros at the end of a coefficient, and counts them into the exponent. -/
def stripZeros (coefficient : Nat) (exponent : Int) : Nat × Int :=
  if coefficient = 0 then (0, 0)
  else if coefficient % 10 = 0 then stripZeros (coefficient / 10) (exponent + 1)
  else (coefficient, exponent)
termination_by coefficient
decreasing_by omega

/-- The dropped zeros are counted into the exponent, and no other zero is left at the end. -/
theorem stripZeros_spec (coefficient : Nat) (exponent : Int) (hne : coefficient ≠ 0) :
    ∃ zeros : Nat, coefficient = (stripZeros coefficient exponent).1 * Nat.pow 10 zeros ∧
      (stripZeros coefficient exponent).2 = exponent + zeros ∧
        (stripZeros coefficient exponent).1 % 10 ≠ 0 := by
  fun_induction stripZeros coefficient exponent with
  | case1 => exact absurd rfl hne
  | case2 coefficient exponent _ hdivides ih =>
    obtain ⟨zeros, hshorter, hcounted, hends⟩ := ih (by omega)
    refine ⟨zeros + 1, ?_, by omega, hends⟩
    calc coefficient = coefficient / 10 * 10 := by omega
      _ = (stripZeros (coefficient / 10) (exponent + 1)).1 * Nat.pow 10 zeros * 10 := by
          rw [← hshorter]
      _ = (stripZeros (coefficient / 10) (exponent + 1)).1 * Nat.pow 10 (zeros + 1) :=
          Nat.mul_assoc _ _ _
  | case3 coefficient exponent _ hends => exact ⟨0, by simp, by simp, hends⟩

/-- The same number without zeros at the end of the coefficient. -/
def normal (number : Decimal) : Decimal :=
  let (coefficient, exponent) := stripZeros number.coefficient number.exponent
  ⟨number.negative, coefficient, exponent⟩

/-- Holds of zero. -/
def isZero (number : Decimal) : Bool :=
  number.coefficient == 0

/-- The text of an exponent: its sign and at least two digits. -/
def exponentText (exponent : Int) : String :=
  let digits := toString exponent.natAbs
  (if exponent < 0 then "e-" else "e+") ++ (if digits.length < 2 then "0" ++ digits else digits)

/-- The text of a number with digits `digits` whose point stands `point` places behind the first
digit's left edge. -/
def positional (digits : String) (point : Int) : String :=
  if point ≤ 0 then "0." ++ String.ofList (List.replicate (-point).toNat '0') ++ digits
  else
    let chars := digits.toList
    let whole := chars.take point.toNat
    let fraction := chars.drop point.toNat
    let zeros := List.replicate (point.toNat - chars.length) '0'
    String.ofList (whole ++ zeros) ++ "." ++
      (if fraction.isEmpty then "0" else String.ofList fraction)

/-- The text of a number with an exponent. -/
def scientific (digits : String) (point : Int) : String :=
  let lead := String.ofList (digits.toList.take 1)
  let more := String.ofList (digits.toList.drop 1)
  lead ++ (if more = "" then "" else "." ++ more) ++ exponentText (point - 1)

/-- The text of a number. -/
def text (number : Decimal) : String :=
  let short := number.normal
  let digits := toString short.coefficient
  let point := short.exponent + digits.length
  let size :=
    if short.coefficient = 0 then "0.0"
    else if -4 < point && point ≤ 16 then positional digits point
    else scientific digits point
  (if number.negative then "-" else "") ++ size

end Decimal

end CommentMarkers
