import CommentMarkers.Text.Printable

/-!
# Quoted text

How messages quote a text: in apostrophes, or in double quotes if the text has an apostrophe and
no double quote. Characters that would end the quotation or cannot be shown are escaped.

Main results:

- Theorem `isPrintable_of_mem_quoted`: a quotation can be shown as it is.
-/

namespace CommentMarkers.Text

/-- The apostrophe. -/
def apostrophe : Char := Char.ofNat 39

/-- The double quotation mark. -/
def doubleQuote : Char := Char.ofNat 34

/-- The backslash. -/
def backslash : Char := Char.ofNat 92

/-- The quotation mark that surrounds a text. -/
def quotationMark (chars : List Char) : Char :=
  if chars.contains apostrophe && !chars.contains doubleQuote then doubleQuote else apostrophe

/-- The last `width` hexadecimal digits of a number, in small letters. -/
def hexDigits (width number : Nat) : List Char :=
  match width with
  | 0 => []
  | width + 1 => hexDigits width (number / 16) ++ [Nat.digitChar (number % 16)]

/-- The number of hexadecimal digits is the width. -/
theorem length_hexDigits (width number : Nat) : (hexDigits width number).length = width := by
  induction width generalizing number with
  | zero => rfl
  | succ width ih => simp [hexDigits, ih]

/-- A character as it stands between two quotation marks `mark`. -/
def quotedChar (mark char : Char) : List Char :=
  let code := char.toNat
  if char = mark || char = backslash then [backslash, char]
  else if code = 9 then [backslash, 't']
  else if code = 10 then [backslash, 'n']
  else if code = 13 then [backslash, 'r']
  else if isPrintable char then [char]
  else if code ≤ 0xFF then backslash :: 'x' :: hexDigits 2 code
  else if code ≤ 0xFFFF then backslash :: 'u' :: hexDigits 4 code
  else backslash :: 'U' :: hexDigits 8 code

/-- The text in quotation marks. -/
def quoted (text : String) : String :=
  let chars := text.toList
  let mark := quotationMark chars
  String.ofList (mark :: chars.flatMap (quotedChar mark) ++ [mark])

private theorem isPrintable_digitChar : ∀ digit < 16, isPrintable (Nat.digitChar digit) = true := by
  decide

private theorem isPrintable_of_mem_hexDigits {width number : Nat} {char : Char}
    (hmem : char ∈ hexDigits width number) : isPrintable char = true := by
  induction width generalizing number with
  | zero => cases hmem
  | succ width ih =>
    rcases List.mem_append.1 hmem with hfront | hlast
    · exact ih hfront
    · rw [List.mem_singleton] at hlast
      subst hlast
      exact isPrintable_digitChar _ (Nat.mod_lt number (by decide))

/-- A character stands as it is, or a backslash and a letter with some digits stand for it. -/
private theorem quotedChar_cases {mark : Char} (char : Char) (hmark : isPrintable mark = true) :
    (quotedChar mark char = [char] ∧ isPrintable char = true) ∨
      ∃ letter digits, quotedChar mark char = backslash :: letter :: digits ∧
        isPrintable letter = true ∧ ∀ digit ∈ digits, isPrintable digit = true := by
  have hescaped (letter : Char) (hvisible : isPrintable letter = true) (width : Nat) :
      ∃ other digits, backslash :: letter :: hexDigits width char.toNat
          = backslash :: other :: digits ∧
        isPrintable other = true ∧ ∀ digit ∈ digits, isPrintable digit = true :=
    ⟨letter, _, rfl, hvisible, fun _ => isPrintable_of_mem_hexDigits⟩
  simp only [quotedChar]
  split
  · next hsame =>
    refine .inr ⟨char, [], rfl, ?_, by simp⟩
    rw [Bool.or_eq_true, decide_eq_true_eq, decide_eq_true_eq] at hsame
    rcases hsame with rfl | rfl
    · exact hmark
    · decide
  · split
    · exact .inr (hescaped 't' (by decide) 0)
    · split
      · exact .inr (hescaped 'n' (by decide) 0)
      · split
        · exact .inr (hescaped 'r' (by decide) 0)
        · split
          · next hvisible => exact .inl ⟨rfl, hvisible⟩
          · split
            · exact .inr (hescaped 'x' (by decide) 2)
            · split
              · exact .inr (hescaped 'u' (by decide) 4)
              · exact .inr (hescaped 'U' (by decide) 8)

private theorem isPrintable_of_mem_quotedChar {mark char shown : Char}
    (hmark : isPrintable mark = true) (hmem : shown ∈ quotedChar mark char) :
    isPrintable shown = true := by
  rcases quotedChar_cases char hmark with
    ⟨hsame, hvisible⟩ | ⟨letter, digits, hsame, hvisible, hall⟩
  · rw [hsame, List.mem_singleton] at hmem
    rw [hmem]
    exact hvisible
  · rw [hsame, List.mem_cons, List.mem_cons] at hmem
    rcases hmem with rfl | rfl | hmem
    · decide
    · exact hvisible
    · exact hall shown hmem

/-- A quotation has a visible form: line breaks and other characters without one are escaped. -/
theorem isPrintable_of_mem_quoted {text : String} {char : Char}
    (hmem : char ∈ (quoted text).toList) :
    isPrintable char = true := by
  have hmark : isPrintable (quotationMark text.toList) = true := by
    unfold quotationMark
    split
    · decide
    · decide
  simp only [quoted, String.toList_ofList, List.cons_append, List.mem_cons, List.mem_append,
    List.mem_flatMap, List.not_mem_nil, or_false] at hmem
  rcases hmem with rfl | ⟨own, _, hmem⟩ | rfl
  · exact hmark
  · exact isPrintable_of_mem_quotedChar hmark hmem
  · exact hmark

end CommentMarkers.Text
