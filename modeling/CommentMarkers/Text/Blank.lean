import CommentMarkers.Text.CharRange

/-!
# Blank characters

The blanks of Unicode and the ASCII separators U+001C to U+001F. Markers hold none of them, and
words are what stands between them.

Main results:

- Theorem `isBlank_of_mem_words`: the words of a text hold no blanks.
-/

namespace CommentMarkers.Text

/-- The code points of blanks. -/
def blankRanges : List CharRange := [
   (9, 13), (28, 32), (133, 133), (160, 160), (5760, 5760), (8192, 8202), (8232, 8233),
   (8239, 8239), (8287, 8287), (12288, 12288)]

/-- Holds of blanks. -/
def isBlank (char : Char) : Bool :=
  inRanges blankRanges char

/-- The maximal runs of characters that are no blanks. -/
def words : List Char → List (List Char)
  | [] => []
  | char :: rest =>
    if isBlank char then words rest
    else
      match rest with
      | [] => [[char]]
      | second :: _ =>
        if isBlank second then [char] :: words rest
        else
          match words rest with
          | [] => [[char]]
          | word :: more => (char :: word) :: more

/-- The words of a text hold no blanks. -/
theorem isBlank_of_mem_words {text word : List Char} {char : Char}
    (hmem : word ∈ words text) (hwithin : char ∈ word) : isBlank char = false := by
  fun_induction words text generalizing word with
  | case1 => simp at hmem
  | case2 first rest hblank ih => exact ih hmem hwithin
  | case3 first hsolid => simp_all
  | case4 first hsolid second rest hblank ih =>
    rcases List.mem_cons.1 hmem with rfl | htail
    · simp_all
    · exact ih htail hwithin
  | case5 first hsolid second rest hsecond hnone ih => simp_all
  | case6 first hsolid second rest hsecond head more hwords ih =>
    simp only [hwords] at hmem
    rcases List.mem_cons.1 hmem with rfl | htail
    · rcases List.mem_cons.1 hwithin with rfl | hinner
      · simpa using hsolid
      · exact ih (by rw [hwords]; exact List.mem_cons_self) hinner
    · exact ih (by rw [hwords]; exact List.mem_cons_of_mem _ htail) hwithin

end CommentMarkers.Text
