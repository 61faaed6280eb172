import CommentMarkers.Data.Data

/-!
# Numbers in documents

Which plain scalars are numbers, and which numbers they are. Whole numbers are written in base ten,
two (`0b1`), eight (`017`), sixteen (`0x1F`) or sixty (`1:30`), and fractions with a point.
Underscores between the digits do not count.

Main results:

- Theorem `numberIn_ten`: decimal digits name the number that they are the digits of.
- Theorem `wholeNumber?_toString`: a whole number written in base ten is read as itself.
-/

namespace CommentMarkers.Yaml

/-! ## Digits -/

/-- The sign in front of a number, and what follows it. -/
def splitSign : List Char → Bool × List Char
  | '-' :: rest => (true, rest)
  | '+' :: rest => (false, rest)
  | rest => (false, rest)

/-- The value of a digit in any base up to sixteen. -/
def digitValue? (char : Char) : Option Nat :=
  if char.isDigit then some (char.toNat - 48)
  else if 'a' ≤ char && char ≤ 'f' then some (char.toNat - 87)
  else if 'A' ≤ char && char ≤ 'F' then some (char.toNat - 55)
  else none

/-- Holds of the digits of a base and of underscores. -/
def isDigitOf (base : Nat) (char : Char) : Bool :=
  char == '_' || (digitValue? char).any (· < base)

/-- The digits without the underscores among them. -/
def withoutUnderscores (chars : List Char) : List Char :=
  chars.filter (· != '_')

/-- The number that digits and underscores name in a base. -/
def numberIn (base : Nat) (chars : List Char) : Nat :=
  (withoutUnderscores chars).foldl (fun value char => value * base + (digitValue? char).getD 0) 0

/-- Holds of a digit followed by digits and underscores. -/
def isDecimalRun : List Char → Bool
  | [] => false
  | first :: rest => first.isDigit && rest.all (isDigitOf 10)

/-- Holds of one or two digits that name a number below sixty. -/
def isSixtieth : List Char → Bool
  | [last] => last.isDigit
  | [first, last] => '0' ≤ first && first ≤ '5' && last.isDigit
  | _ => false

/-! ## Whole numbers -/

/-- The size of a whole number without its sign. -/
def wholeSize? : List Char → Option Nat
  | [] => none
  | '0' :: 'b' :: digits =>
    if !digits.isEmpty && digits.all (isDigitOf 2) && !(withoutUnderscores digits).isEmpty then
      some (numberIn 2 digits)
    else none
  | '0' :: 'x' :: digits =>
    if !digits.isEmpty && digits.all (isDigitOf 16) && !(withoutUnderscores digits).isEmpty then
      some (numberIn 16 digits)
    else none
  | '0' :: digits => if digits.all (isDigitOf 8) then some (numberIn 8 digits) else none
  | digits =>
    if isDecimalRun digits then some (numberIn 10 digits)
    else
      match digits.splitOn ':' with
      | first :: second :: more =>
        if isDecimalRun first && (second :: more).all isSixtieth then
          some ((second :: more).foldl (fun value part => value * 60 + numberIn 10 part)
            (numberIn 10 first))
        else none
      | _ => none

/-- The whole number that a plain scalar is. -/
def wholeNumber? (text : List Char) : Option Int :=
  let (negative, digits) := splitSign text
  (wholeSize? digits).map fun size => if negative then -(size : Int) else size

/-! ## Decimal numbers -/

private theorem digitValue?_of_isDigit {char : Char} (hdigit : char.isDigit = true) :
    digitValue? char = some (char.toNat - 48) :=
  if_pos hdigit

private theorem isDigitOf_ten {char : Char} (hdigit : char.isDigit = true) :
    isDigitOf 10 char = true := by
  have hbound : char.toNat ≤ 57 := by
    simp only [Char.isDigit, Bool.and_eq_true, decide_eq_true_eq, UInt32.le_iff_toNat_le] at hdigit
    exact hdigit.2
  have hsmall : char.toNat - 48 < 10 := by omega
  simp [isDigitOf, digitValue?_of_isDigit hdigit, hsmall]

/-- Decimal digits name the number that they are the digits of. -/
theorem numberIn_ten {digits : List Char} (hdigits : ∀ char ∈ digits, char.isDigit = true) :
    numberIn 10 digits = Nat.ofDigitChars 10 digits 0 := by
  have hsolid : withoutUnderscores digits = digits := by
    refine List.filter_eq_self.2 fun char hmem => bne_iff_ne.2 ?_
    rintro rfl
    cases hdigits '_' hmem
  have hfold : ∀ start, digits.foldl (fun value char => value * 10 + (digitValue? char).getD 0)
      start = Nat.ofDigitChars 10 digits start := by
    clear hsolid
    induction digits with
    | nil => exact fun start => rfl
    | cons char rest ih =>
      intro start
      obtain ⟨hdigit, hmore⟩ := List.forall_mem_cons.1 hdigits
      rw [List.foldl_cons, Nat.ofDigitChars_cons, digitValue?_of_isDigit hdigit, Nat.mul_comm]
      exact ih hmore _
  rw [numberIn, hsolid]
  exact hfold 0

/-- Only zero is written with a zero in front, which would be the sign of base eight. -/
private theorem head?_toDigits_ne {number : Nat} (hne : number ≠ 0) :
    (Nat.toDigits 10 number).head? ≠ some '0' := by
  induction number using Nat.strongRecOn with
  | ind number ih =>
    rcases Nat.lt_or_ge number 10 with hsmall | hlarge
    · rw [Nat.toDigits_of_lt_base hsmall]
      intro hzero
      have hsame := congrArg (fun char => char.toNat - 48) (Option.some.inj hzero)
      simp only [Nat.toNat_digitChar_sub_48_of_lt_ten hsmall] at hsame
      exact hne hsame
    · obtain ⟨first, rest, hfront⟩ :=
        List.exists_cons_of_ne_nil (Nat.toDigits_ne_nil (n := number / 10) (b := 10))
      have hsmaller := ih (number / 10) (by omega) (by omega)
      rw [Nat.toDigits_of_base_le (by decide) hlarge, hfront]
      rwa [hfront] at hsmaller

private theorem wholeSize?_toDigits (number : Nat) :
    wholeSize? (Nat.toDigits 10 number) = some number := by
  by_cases hzero : number = 0
  · subst hzero
    rfl
  · have hdigits : ∀ char ∈ Nat.toDigits 10 number, char.isDigit = true :=
      fun char hmem => Nat.isDigit_of_mem_toDigits (by decide) (by decide) hmem
    have hhead := head?_toDigits_ne hzero
    have hvalue := numberIn_ten hdigits
    rw [Nat.ofDigitChars_ten_toDigits] at hvalue
    cases htext : Nat.toDigits 10 number with
    | nil => exact absurd htext Nat.toDigits_ne_nil
    | cons first rest =>
      rw [htext] at hdigits hhead hvalue
      obtain ⟨hdigit, hmore⟩ := List.forall_mem_cons.1 hdigits
      have hrun : isDecimalRun (first :: rest) = true := by
        rw [isDecimalRun, hdigit, Bool.true_and, List.all_eq_true]
        exact fun char hmem => isDigitOf_ten (hmore char hmem)
      -- The other bases begin with a zero.
      unfold wholeSize?
      split
      · contradiction
      · simp_all
      · simp_all
      · simp_all
      · rw [if_pos hrun, hvalue]

private theorem splitSign_of_isDigit {text : List Char}
    (hdigits : ∀ char ∈ text, char.isDigit = true) :
    splitSign text = (false, text) := by
  unfold splitSign
  split
  · cases hdigits '-' List.mem_cons_self
  · cases hdigits '+' List.mem_cons_self
  · rfl

/-- A whole number written in base ten is read as itself. -/
theorem wholeNumber?_toString (value : Int) :
    wholeNumber? (toString value).toList = some value := by
  rw [Int.toString_eq_repr, Int.repr_eq_if]
  split
  · next hnonneg =>
    have hdigits : ∀ char ∈ Nat.toDigits 10 value.toNat, char.isDigit = true :=
      fun char hmem => Nat.isDigit_of_mem_toDigits (by decide) (by decide) hmem
    rw [Nat.toList_repr, wholeNumber?, splitSign_of_isDigit hdigits]
    simp only [wholeSize?_toDigits]
    exact congrArg some (Int.toNat_of_nonneg hnonneg)
  · next hnegative =>
    have hsigned : splitSign ("-" ++ (-value).toNat.repr).toList =
        (true, Nat.toDigits 10 (-value).toNat) := by
      simp [splitSign]
    have hsize : -((-value).toNat : Int) = value := by omega
    rw [wholeNumber?, hsigned]
    simp only [wholeSize?_toDigits]
    exact congrArg some hsize

/-! ## Fractions -/

/-- The exponent that ends a fraction: a letter, a sign and digits, or nothing. -/
def exponent? : List Char → Option Int
  | [] => some 0
  | letter :: sign :: digits =>
    if (letter == 'e' || letter == 'E') && (sign == '-' || sign == '+') && !digits.isEmpty
        && digits.all Char.isDigit then
      let size := numberIn 10 digits
      some (if sign == '-' then -(size : Int) else size)
    else none
  | _ => none

/-- The fraction that a plain scalar is. A fraction without digits in front of its point has no
sign and a digit behind the point. -/
def fraction? (text : List Char) : Option Decimal :=
  let (negative, size) := splitSign text
  let whole := size.takeWhile (isDigitOf 10)
  match size.drop whole.length with
  | '.' :: rest =>
    let digits := rest.takeWhile (isDigitOf 10)
    let wholeFits :=
      if whole.isEmpty then size.length == text.length && (digits.head?).any Char.isDigit
      else isDecimalRun whole
    if wholeFits then
      (exponent? (rest.drop digits.length)).map fun exponent =>
        ⟨negative, numberIn 10 (whole ++ digits),
          exponent - (withoutUnderscores digits).length⟩
    else none
  | _ => none

/-! ## Special fractions -/

/-- The texts of the fractions that are no decimal numbers. -/
def specialFractions : List (String × String) :=
  [(".inf", "inf"), (".Inf", "inf"), (".INF", "inf"),
    ("+.inf", "inf"), ("+.Inf", "inf"), ("+.INF", "inf"),
    ("-.inf", "-inf"), ("-.Inf", "-inf"), ("-.INF", "-inf"),
    (".nan", "nan"), (".NaN", "nan"), (".NAN", "nan")]

end CommentMarkers.Yaml
