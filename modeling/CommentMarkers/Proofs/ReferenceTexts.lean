import CommentMarkers.Edit.Report
import CommentMarkers.Proofs.References
import Mathlib

/-!
# References as they are written

The reference that is written for an issue is one that is read back as this issue.  Its digits are
those of the issue number, so it is short enough to be read exactly if the number may be written.

Main results:

- Theorem `isReference_referenceText`: what is written for an issue is a reference to it.
- Theorem `isTooLong_eq_false_iff`: the numbers that may be written.
-/

namespace CommentMarkers

/-! ## Digits -/

/-- The numbers of the digit characters. -/
theorem bounds_of_isDigit {char : Char} (hdigit : char.isDigit = true) :
    48 ≤ char.toNat ∧ char.toNat ≤ 57 := by
  simp only [Char.isDigit, Bool.and_eq_true, decide_eq_true_eq, ge_iff_le, UInt32.le_iff_toNat_le]
    at hdigit
  exact hdigit

/-- A digit is encoded as the byte with its number. -/
theorem utf8EncodeChar_of_isDigit {char : Char} (hdigit : char.isDigit = true) :
    String.utf8EncodeChar char = [UInt8.ofNat char.toNat] := by
  have hbounds := bounds_of_isDigit hdigit
  unfold String.utf8EncodeChar
  have hsmall : char.val.toNat ≤ 127 := Nat.le_trans hbounds.2 (by decide)
  simp only [hsmall, if_true]
  rfl

/-- The byte of a digit. -/
theorem isDigit_ofNat {char : Char} (hdigit : char.isDigit = true) :
    Bytes.isDigit (UInt8.ofNat char.toNat) = true ∧
      (UInt8.ofNat char.toNat).toNat = char.toNat := by
  have hbounds := bounds_of_isDigit hdigit
  have hnumber : (UInt8.ofNat char.toNat).toNat = char.toNat := by
    rw [UInt8.toNat_ofNat', Nat.mod_eq_of_lt (by omega)]
  refine ⟨?_, hnumber⟩
  simp only [Bytes.isDigit, Bool.and_eq_true, decide_eq_true_eq, UInt8.le_iff_toNat_le, hnumber]
  exact hbounds

/-- The bytes of digits. -/
theorem flatMap_digits {digits : List Char} (hdigits : ∀ char ∈ digits, char.isDigit = true) :
    digits.flatMap String.utf8EncodeChar = digits.map fun char => UInt8.ofNat char.toNat := by
  induction digits with
  | nil => rfl
  | cons char rest ih =>
      rcases List.forall_mem_cons.1 hdigits with ⟨hchar, hrest⟩
      rw [List.flatMap_cons, List.map_cons, utf8EncodeChar_of_isDigit hchar, ih hrest]
      rfl

/-- Digits have the same value as characters and as bytes. -/
theorem foldl_digits {digits : List Char} (hdigits : ∀ char ∈ digits, char.isDigit = true)
    (value : Nat) :
    (digits.map fun char => UInt8.ofNat char.toNat).foldl
        (fun value digit => value * 10 + (digit.toNat - 48)) value =
      Nat.ofDigitChars 10 digits value := by
  induction digits generalizing value with
  | nil => rfl
  | cons char rest ih =>
      rcases List.forall_mem_cons.1 hdigits with ⟨hchar, hrest⟩
      rw [List.map_cons, List.foldl_cons, ih hrest, Nat.ofDigitChars_cons, (isDigit_ofNat hchar).2,
        Nat.mul_comm]
      rfl

/-! ## References -/

/-- The bytes of a number. -/
theorem encode_repr (number : Nat) :
    Text.encode number.repr = (Nat.toDigits 10 number).map fun char => UInt8.ofNat char.toNat := by
  rw [Text.encode, Nat.toList_repr]
  exact flatMap_digits fun char hchar => Nat.isDigit_of_mem_toDigits (by decide) (by decide) hchar

/-- The text of a reference is its number between the delimiters. -/
theorem referenceText_eq (number : Nat) :
    referenceText number =
      IssueReference.opening ++ (Text.encode number.repr ++ [IssueReference.closing]) := by
  rw [referenceText, Text.encode_append, Text.encode_append, List.append_assoc]
  rfl

/-- What is written for an issue is a reference to it. -/
theorem isReference_referenceText (number : Nat) :
    IsReference (referenceText number) (some number) := by
  have hdigits : ∀ char ∈ Nat.toDigits 10 number, char.isDigit = true :=
    fun char hchar => Nat.isDigit_of_mem_toDigits (by decide) (by decide) hchar
  have hvalue : Bytes.digitsValue (Text.encode number.repr) = number := by
    rw [encode_repr, Bytes.digitsValue, foldl_digits hdigits, Nat.ofDigitChars_ten_toDigits]
  have hreference := IsReference.present (Text.encode number.repr)
    (by
      rw [encode_repr]
      exact fun hnil => Nat.toDigits_ne_nil (List.map_eq_nil_iff.1 hnil))
    (by
      intro byte hbyte
      rw [encode_repr] at hbyte
      rcases List.mem_map.1 hbyte with ⟨char, hchar, rfl⟩
      exact (isDigit_ofNat (hdigits char hchar)).1)
  rw [referenceText_eq]
  rw [hvalue] at hreference
  exact hreference

/-- A number may be written if it has at most as many digits as are read. -/
theorem isTooLong_eq_false_iff {issue : Int} (hnonneg : 0 ≤ issue) :
    isTooLong issue = false ↔ issue < 10 ^ IssueTooLong.limit := by
  rcases Int.eq_ofNat_of_zero_le hnonneg with ⟨number, rfl⟩
  have hpositive : 0 < IssueTooLong.limit := by decide
  rw [isTooLong, decide_eq_false_iff_not, Nat.not_lt, Int.natAbs_natCast, Nat.toString_eq_repr,
    Nat.length_repr_le_iff hpositive]
  -- The power is not to be computed.
  generalize IssueTooLong.limit = limit
  exact Int.ofNat_lt.symm.trans (by rw [Int.natCast_pow]; rfl)

/-- What is written for an issue is short enough to be read. -/
theorem length_referenceText_le {number : Nat} (hshort : isTooLong number = false) :
    (referenceText number).length ≤ IssueTooLong.limit + 3 := by
  have hdigits : (Text.encode number.repr).length = number.repr.length := by
    rw [encode_repr, List.length_map, ← Nat.toList_repr, String.length_toList]
  rw [isTooLong, decide_eq_false_iff_not, Nat.not_lt, Int.natAbs_natCast, Nat.toString_eq_repr]
    at hshort
  rw [referenceText_eq]
  simp only [IssueReference.opening, List.length_append, List.length_cons, List.length_nil, hdigits]
  omega

end CommentMarkers
