import CommentMarkers.Annotation.Occurrence
import CommentMarkers.Proofs.Slices

/-!
# Markers and references as bytes

A marker has no blanks, and neither has the reference to an issue that may follow it.  So a marker
that stands alone is a whole word of its line, with or without a reference.  This file states which
bytes are references, and that reading finds exactly those.

Main results:

- Theorem `Marker.solid_bytes`: the bytes of a marker hold no blank.
- Theorem `digits_eq_some_iff`: the digits that are found are those of a reference.
- Theorem `IsReference.read_eq`: a reference is read back as its issue.
-/

namespace CommentMarkers

/-! ## Solid texts -/

/-- Holds of texts without blanks. -/
def Solid (text : Bytes) : Prop :=
  ∀ byte ∈ text, Bytes.isBlank byte = false

/-- A text is solid if both of its parts are. -/
theorem Solid.append {front back : Bytes} (hfront : Solid front) (hback : Solid back) :
    Solid (front ++ back) := by
  intro byte hbyte
  rcases List.mem_append.1 hbyte with hbyte | hbyte
  · exact hfront byte hbyte
  · exact hback byte hbyte

/-- A byte with the number of a blank is the encoding of a blank character. -/
theorem Text.isBlank_of_mem_utf8EncodeChar {char : Char} {byte : UInt8}
    (hbyte : byte ∈ String.utf8EncodeChar char) (hblank : Bytes.isBlank byte = true) :
    isBlank char = true := by
  have hnumber : byte.toNat = 32 ∨ 9 ≤ byte.toNat ∧ byte.toNat ≤ 13 := by
    simp only [Bytes.isBlank, Bytes.space, Bytes.tab, Bytes.carriageReturn, Bool.or_eq_true,
      beq_iff_eq, Bool.and_eq_true, decide_eq_true_eq, UInt8.le_iff_toNat_le] at hblank
    rcases hblank with rfl | hrange
    · exact Or.inl rfl
    · exact Or.inr hrange
  have hchar : byte.toNat = char.toNat := by
    have hsmall : byte.toNat < 128 := by
      omega
    unfold String.utf8EncodeChar at hbyte
    simp only at hbyte
    split at hbyte
    · rw [List.mem_singleton.1 hbyte, UInt8.toNat_ofNat', Nat.mod_eq_of_lt]
      · rfl
      · omega
    · split at hbyte
      · simp only [List.mem_cons, List.not_mem_nil, or_false] at hbyte
        rcases hbyte with rfl | rfl <;> rw [UInt8.toNat_ofNat'] at hsmall <;> omega
      · split at hbyte
        · simp only [List.mem_cons, List.not_mem_nil, or_false] at hbyte
          rcases hbyte with rfl | rfl | rfl <;> rw [UInt8.toNat_ofNat'] at hsmall <;> omega
        · simp only [List.mem_cons, List.not_mem_nil, or_false] at hbyte
          rcases hbyte with rfl | rfl | rfl | rfl <;> rw [UInt8.toNat_ofNat'] at hsmall <;> omega
  simp only [isBlank, inRanges, blankRanges, List.any_cons, List.any_nil, Bool.or_eq_true,
    Bool.and_eq_true, decide_eq_true_eq, ← hchar]
  omega

/-- A marker has bytes. -/
theorem Marker.bytes_ne_nil (marker : Marker) : marker.bytes ≠ [] :=
  Text.encode_ne_nil marker.nonempty

/-- A marker has at least one byte. -/
theorem Marker.length_bytes_pos (marker : Marker) : 0 < marker.bytes.length :=
  List.length_pos_iff.2 marker.bytes_ne_nil

/-- The bytes of a marker hold no blank. -/
theorem Marker.solid_bytes (marker : Marker) : Solid marker.bytes := by
  intro byte hbyte
  rcases List.mem_flatMap.1 hbyte with ⟨char, hchar, hencoded⟩
  have hchars := marker.solid
  rw [List.any_eq_false] at hchars
  rw [Bool.eq_false_iff]
  intro hblank
  exact hchars char hchar (Text.isBlank_of_mem_utf8EncodeChar hencoded hblank)

/-! ## References -/

/-- The text of a reference with its issue: nothing where there is no issue, and otherwise its
digits between the delimiters. -/
inductive IsReference : Bytes → Option Nat → Prop where
  | absent : IsReference [] none
  | present (digits : Bytes) (hne : digits ≠ []) (hdigits : ∀ digit ∈ digits, Bytes.isDigit digit) :
      IsReference (IssueReference.opening ++ (digits ++ [IssueReference.closing]))
        (some (Bytes.digitsValue digits))

/-- A digit is no blank. -/
theorem isBlank_of_isDigit {byte : UInt8} (hdigit : Bytes.isDigit byte = true) :
    Bytes.isBlank byte = false := by
  simp only [Bytes.isDigit, Bool.and_eq_true, decide_eq_true_eq, UInt8.le_iff_toNat_le] at hdigit
  rw [Bool.eq_false_iff]
  intro hblank
  simp only [Bytes.isBlank, Bytes.space, Bytes.tab, Bytes.carriageReturn, Bool.or_eq_true,
    beq_iff_eq, Bool.and_eq_true, decide_eq_true_eq, UInt8.le_iff_toNat_le] at hblank
  have hlow : (48 : UInt8).toNat = 48 := rfl
  have htop : (13 : UInt8).toNat = 13 := rfl
  rcases hblank with rfl | hrange
  · exact absurd hdigit.1 (by decide)
  · omega

/-- References hold no blank. -/
theorem IsReference.solid {reference : Bytes} {issue : Option Nat}
    (hreference : IsReference reference issue) : Solid reference := by
  cases hreference with
  | absent =>
      intro byte hbyte
      cases hbyte
  | present digits hne hdigits =>
      have hopening : Solid IssueReference.opening := by
        intro byte hbyte
        rcases List.mem_cons.1 hbyte with rfl | hbyte
        · rfl
        · rw [List.mem_singleton.1 hbyte]
          rfl
      have hinner : Solid digits := fun byte hbyte => isBlank_of_isDigit (hdigits byte hbyte)
      have hclosing : Solid [IssueReference.closing] := by
        intro byte hbyte
        rw [List.mem_singleton.1 hbyte]
        rfl
      exact hopening.append (hinner.append hclosing)

/-- Digits in front of the closing delimiter are taken whole. -/
theorem takeWhile_digits {digits : Bytes} (hdigits : ∀ digit ∈ digits, Bytes.isDigit digit)
    (behind : Bytes) :
    (digits ++ IssueReference.closing :: behind).takeWhile Bytes.isDigit = digits := by
  rw [List.takeWhile_append_of_pos hdigits, List.takeWhile_cons_of_neg (by decide),
    List.append_nil]

/-- The digits that are found in a text are those of the reference that begins it. -/
theorem digits_eq_some_iff {text digits : Bytes} :
    IssueReference.digits? text = some digits ↔
      digits ≠ [] ∧ (∀ digit ∈ digits, Bytes.isDigit digit) ∧
        ∃ behind, text =
          IssueReference.opening ++ (digits ++ IssueReference.closing :: behind) := by
  constructor
  · intro hfound
    unfold IssueReference.digits? at hfound
    split at hfound
    · rename_i hopening
      rcases List.isPrefixOf_iff_prefix.1 hopening with ⟨inner, rfl⟩
      simp only [List.drop_left, Bool.and_eq_true, Bool.not_eq_true', List.isEmpty_eq_false_iff,
        decide_eq_true_eq] at hfound
      split at hfound
      · rename_i hcloses
        cases hfound
        rcases eq_takeWhile_append_cons hcloses.2 with ⟨more, hmore⟩
        exact ⟨hcloses.1, List.all_eq_true.1 List.all_takeWhile, more, by rw [← hmore]⟩
      · cases hfound
    · cases hfound
  · rintro ⟨hne, hdigits, behind, rfl⟩
    unfold IssueReference.digits?
    rw [if_pos (List.isPrefixOf_iff_prefix.2 (List.prefix_append _ _)), List.drop_left]
    simp only [takeWhile_digits hdigits]
    rw [List.getElem?_append_right (Nat.le_refl _), Nat.sub_self]
    simp [hne]

/-- No reference begins in front of a blank. -/
theorem digits_eq_none_of_isBoundary {text : Bytes} (hblank : isBoundary text.head? = true) :
    IssueReference.digits? text = none := by
  rw [Option.eq_none_iff_forall_ne_some]
  intro digits hfound
  rcases digits_eq_some_iff.1 hfound with ⟨-, -, more, rfl⟩
  exact absurd hblank (by simp [IssueReference.opening, isBoundary, Bytes.isBlank]; decide)

/-- The digits of a reference are all of it but its delimiters. -/
theorem IsReference.length_digits {reference behind digits : Bytes} {number : Nat}
    (hreference : IsReference reference (some number))
    (hdigits : IssueReference.digits? (reference ++ behind) = some digits) :
    reference.length = digits.length + 3 := by
  cases hreference with
  | present own hne hall =>
      have hfound : IssueReference.digits?
          (IssueReference.opening ++ (own ++ [IssueReference.closing]) ++ behind) = some own :=
        digits_eq_some_iff.2 ⟨hne, hall, behind, by simp⟩
      rw [hdigits] at hfound
      rw [Option.some.inj hfound]
      simp only [IssueReference.opening, List.length_append, List.length_cons, List.length_nil]
      omega

/-- The reference that begins a text is read as its issue, if it is short enough. -/
theorem IsReference.read_eq {reference : Bytes} {issue : Option Nat}
    (hreference : IsReference reference issue) {behind : Bytes}
    (hbehind : isBoundary behind.head? = true)
    (hshort : ∀ digits, IssueReference.digits? (reference ++ behind) = some digits →
      digits.length ≤ IssueTooLong.limit) :
    IssueReference.read (reference ++ behind) =
      .ok (issue.map fun number => ⟨number, reference.length⟩) := by
  cases hreference with
  | absent =>
      have hnone := digits_eq_none_of_isBoundary hbehind
      rw [List.nil_append, IssueReference.read, hnone]
      rfl
  | present digits hne hdigits =>
      have hfound : IssueReference.digits?
          (IssueReference.opening ++ (digits ++ [IssueReference.closing]) ++ behind) =
          some digits :=
        digits_eq_some_iff.2 ⟨hne, hdigits, behind, by simp⟩
      rw [IssueReference.read, hfound]
      simp only
      rw [if_neg (Nat.not_lt.2 (hshort digits hfound))]
      simp [IssueReference.opening]

/-- What is read at the beginning of a text is a reference there. -/
theorem IsReference.of_read {text : Bytes} {found : Option IssueReference}
    (hread : IssueReference.read text = .ok found) :
    ∃ reference behind, text = reference ++ behind ∧
      IsReference reference (found.map (·.number)) ∧
      reference.length = (found.map (·.length)).getD 0 := by
  unfold IssueReference.read at hread
  split at hread
  · cases hread
    exact ⟨[], text, rfl, .absent, rfl⟩
  · rename_i digits hdigits
    split at hread
    · cases hread
    · cases hread
      rcases digits_eq_some_iff.1 hdigits with ⟨hne, hall, behind, rfl⟩
      refine ⟨_, behind, ?_, .present digits hne hall, ?_⟩
      · simp
      · simp [IssueReference.opening]

end CommentMarkers
