import CommentMarkers.Text.LowerCase
import Mathlib

/-!
# Small letters stay small

Lower-casing replaces capital letters by small ones, and no small letter is a capital letter of
another one.  So lower-casing a text a second time changes nothing, and a text in small letters can
be looked up as it is.

Main results:

- Theorem `isSmall_of_mem_lowerChars`: lower-casing leaves no capital letter.
- Theorem `lower_lower`: lower-casing a text again changes nothing.
-/

namespace CommentMarkers.Text

/-! ## Runs of capital letters -/

/-- Capital letters at even distances: first code point, last code point, step, distance. -/
abbrev CapitalRun := Nat × Nat × Nat × Int

/-- Holds of the code points in a run. -/
def inRun (code : Nat) : CapitalRun → Bool
  | (first, last, step, _) => first ≤ code && code ≤ last && (code - first) % step == 0

/-- The small form of a character is found in the run that holds it. -/
theorem lowerChar_eq (char : Char) :
    lowerChar char =
      match lowerCaseRuns.find? (inRun char.toNat) with
      | some (_, _, _, distance) => Char.ofNat (char.toNat + distance).toNat
      | none => char :=
  rfl

/-- The runs of the characters that lower-casing changes. -/
def capitalRuns : List CapitalRun :=
  (dottedCapitalI.toNat, dottedCapitalI.toNat, 1, 0) :: lowerCaseRuns

/-- Holds of the characters that lower-casing keeps. -/
def IsSmall (char : Char) : Prop :=
  ∀ run ∈ capitalRuns, inRun char.toNat run = false

instance (char : Char) : Decidable (IsSmall char) :=
  inferInstanceAs (Decidable (∀ run ∈ capitalRuns, inRun char.toNat run = false))

/-- The small letters of a run: first code point, last code point, step. -/
def smallRun (run : CapitalRun) : Nat × Nat × Nat :=
  ((run.1 + run.2.2.2).toNat, (run.2.1 + run.2.2.2).toNat, run.2.2.1)

/-- Holds if small letters are outside a run: in front of it, behind it, or between its letters. -/
def isApart (small : Nat × Nat × Nat) (run : CapitalRun) : Bool :=
  Nat.blt small.2.1 run.1 || Nat.blt run.2.1 small.1
    || (Nat.beq run.2.2.1 2 && (Nat.beq small.2.2 2 || Nat.beq small.1 small.2.1)
      && Nat.beq ((small.1 + run.1) % 2) 1)

/-- The small letters of the table are outside all runs. -/
theorem isApart_capitalRuns :
    (lowerCaseRuns.all fun run => decide (0 ≤ (run.1 : Int) + run.2.2.2)) = true ∧
      ((lowerCaseRuns.map smallRun).all fun small => capitalRuns.all (isApart small)) = true := by
  decide +kernel

/-- What becomes of a letter in a run is outside the runs from which it is apart. -/
theorem inRun_eq_false {run other : CapitalRun} {code : Nat}
    (hnonneg : 0 ≤ (run.1 : Int) + run.2.2.2) (hapart : isApart (smallRun run) other = true)
    (hin : inRun code run = true) :
    inRun (code + run.2.2.2).toNat other = false := by
  obtain ⟨first, last, step, distance⟩ := run
  obtain ⟨otherFirst, otherLast, otherStep, otherDistance⟩ := other
  simp only [inRun, Bool.and_eq_true, decide_eq_true_eq, beq_iff_eq] at hin
  simp only [isApart, smallRun, Bool.or_eq_true, Bool.and_eq_true, Nat.blt_eq, Nat.beq_eq] at hapart
  rw [Bool.eq_false_iff]
  simp only [inRun, ne_eq, Bool.and_eq_true, decide_eq_true_eq, beq_iff_eq]
  rintro ⟨⟨hfirst, hlast⟩, hstep⟩
  simp only at hnonneg hfirst hlast hstep
  rcases hapart with (hbefore | hbehind) | ⟨⟨rfl, heven | hsingle⟩, hodd⟩
  · omega
  · omega
  · -- The letters of both runs have a distance of two.
    subst heven
    omega
  · omega

/-! ## Single characters -/

/-- The small form of a character is small. -/
theorem isSmall_lowerChar {char : Char} (hchar : char ≠ dottedCapitalI) :
    IsSmall (lowerChar char) := by
  rw [lowerChar_eq]
  cases hfind : lowerCaseRuns.find? (inRun char.toNat) with
  | none =>
      refine List.forall_mem_cons.2 ⟨?_, fun run hrun => ?_⟩
      · rw [Bool.eq_false_iff]
        intro hin
        simp only [inRun, Bool.and_eq_true, decide_eq_true_eq] at hin
        exact hchar (Char.toNat_inj.1 (Nat.le_antisymm hin.1.2 hin.1.1))
      · exact Bool.eq_false_iff.2 (List.find?_eq_none.1 hfind run hrun)
  | some run =>
      have hrun := List.mem_of_find?_eq_some hfind
      have hnonneg := List.all_eq_true.1 isApart_capitalRuns.1 run hrun
      have hapart := List.all_eq_true.1 isApart_capitalRuns.2 _ (List.mem_map_of_mem hrun)
      intro other hother
      rw [Char.toNat_ofNat]
      split
      · exact inRun_eq_false (of_decide_eq_true hnonneg) (List.all_eq_true.1 hapart other hother)
          (List.find?_some hfind)
      · -- There is no such character, and zero stands for it.
        revert other
        decide +kernel

/-- A small character is its own small form. -/
theorem IsSmall.lowerChar_eq {char : Char} (hsmall : IsSmall char) : lowerChar char = char := by
  have hnone : lowerCaseRuns.find? (inRun char.toNat) = none :=
    List.find?_eq_none.2 fun run hrun =>
      Bool.eq_false_iff.1 (hsmall run (List.mem_cons_of_mem _ hrun))
  rw [Text.lowerChar_eq, hnone]

/-- The first run holds the capital letters of ASCII. -/
theorem inRun_ascii (char : Char) : inRun char.toNat (65, 90, 1, 32) = char.isUpper := by
  rw [Bool.eq_iff_iff]
  simp only [inRun, Char.isUpper, Bool.and_eq_true, decide_eq_true_eq, Nat.mod_one, BEq.rfl,
    and_true, ge_iff_le, UInt32.le_iff_toNat_le]
  rfl

/-- The ASCII letters have their usual small forms. -/
theorem lowerChar_eq_toLower {char : Char} (hascii : char.toNat < 128) :
    lowerChar char = char.toLower := by
  have hrest : ∀ run ∈ lowerCaseRuns.tail, 128 ≤ run.1 := by
    decide +kernel
  have hnone : lowerCaseRuns.tail.find? (inRun char.toNat) = none := by
    refine List.find?_eq_none.2 fun run hrun hin => ?_
    have hfirst := hrest run hrun
    simp only [inRun, Bool.and_eq_true, decide_eq_true_eq] at hin
    omega
  have hruns : lowerCaseRuns = (65, 90, 1, 32) :: lowerCaseRuns.tail := rfl
  rw [lowerChar_eq, hruns, List.find?_cons, hnone, inRun_ascii]
  cases hupper : char.isUpper with
  | true =>
      rw [Char.toLower_eq_of_isUpper hupper]
      rfl
  | false => rw [Char.toLower_eq_of_not_isUpper (Bool.eq_false_iff.1 hupper)]

/-! ## Texts -/

/-- The small form of a first character: the sigma and the capital I with a dot have their own. -/
theorem lowerChars_cons (before : List Char) (char : Char) (rest : List Char) :
    lowerChars before (char :: rest) =
      (if char = capitalSigma then
          if meetsCased before && !meetsCased rest then [finalSigma] else [smallSigma]
        else if char = dottedCapitalI then ['i', dotAbove]
        else [lowerChar char]) ++ lowerChars (char :: before) rest := by
  rw [lowerChars]
  congr 1
  by_cases hascii : char.toNat < 128
  · rw [if_pos hascii, lowerChar_eq_toLower hascii]
  · rw [if_neg hascii]

/-- Lower-casing leaves no capital letter. -/
theorem isSmall_of_mem_lowerChars {before chars : List Char} {char : Char}
    (hchar : char ∈ lowerChars before chars) : IsSmall char := by
  induction chars generalizing before with
  | nil => cases hchar
  | cons first rest ih =>
      rw [lowerChars_cons, List.mem_append] at hchar
      rcases hchar with hfirst | hrest
      · split at hfirst
        · have hsigma : char = finalSigma ∨ char = smallSigma := by
            split at hfirst
            · exact Or.inl (List.mem_singleton.1 hfirst)
            · exact Or.inr (List.mem_singleton.1 hfirst)
          rcases hsigma with rfl | rfl <;> decide +kernel
        · split at hfirst
          · rcases List.mem_cons.1 hfirst with rfl | hdot
            · decide +kernel
            · rw [List.mem_singleton.1 hdot]
              decide +kernel
          · rename_i hne
            rw [List.mem_singleton.1 hfirst]
            exact isSmall_lowerChar hne
      · exact ih hrest

/-- Lower-casing keeps small characters. -/
theorem lowerChars_eq_self (before : List Char) {chars : List Char}
    (hsmall : ∀ char ∈ chars, IsSmall char) : lowerChars before chars = chars := by
  induction chars generalizing before with
  | nil => rfl
  | cons char rest ih =>
      obtain ⟨hfirst, hrest⟩ := List.forall_mem_cons.1 hsmall
      have hsigma : char ≠ capitalSigma := by
        rintro rfl
        exact absurd hfirst (by decide +kernel)
      have hdotted : char ≠ dottedCapitalI := by
        rintro rfl
        exact absurd hfirst (by decide +kernel)
      rw [lowerChars_cons, if_neg hsigma, if_neg hdotted, hfirst.lowerChar_eq, ih _ hrest]
      rfl

/-- Lower-casing a text again changes nothing. -/
theorem lower_lower (text : String) : lower (lower text) = lower text := by
  have hsmall : ∀ char ∈ lowerChars [] text.toList, IsSmall char :=
    fun _ hchar => isSmall_of_mem_lowerChars hchar
  rw [lower, lower, String.toList_ofList, lowerChars_eq_self [] hsmall]

end CommentMarkers.Text
