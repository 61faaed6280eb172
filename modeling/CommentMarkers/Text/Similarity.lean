import CommentMarkers.Text.Blank

/-!
# Similarity of texts

How well two texts match, from 0 to 100, in exact arithmetic. The basis is the length of their
longest common subsequence. Texts of similar length are compared as a whole and word by word; of
texts of different length the shorter one is held against the parts of the longer one, at a
discount.

Main results:

- Theorem `isClosest_of_closest?`: what is suggested is close enough, and the first of the choices
  that match best.
- Theorem `closest?_eq_none_iff`: nothing is suggested exactly if no choice is close enough.
-/

namespace CommentMarkers.Text.Similarity

/-! ## Common subsequences -/

/-- The next row of the table of common lengths, for one more character of the first text. The row
above holds, from the second column on, the lengths for the beginnings of the second text. -/
def nextRow (char : Char) : List Char → List Nat → Nat → Nat → List Nat
  | other :: text, above :: row, diagonal, left =>
    let here := if char = other then diagonal + 1 else max above left
    here :: nextRow char text row above here
  | _, _, _, _ => []

/-- The length of the longest common subsequence of two texts. -/
def commonLength (first second : List Char) : Nat :=
  let start := second.map fun _ => 0
  (first.foldl (fun row char => nextRow char second row 0 0) start).getLastD 0

/-! ## Scores -/

/-- Twice the common length in relation to both lengths. -/
def ratio (first second : List Char) : Rat :=
  let total := first.length + second.length
  if total = 0 then 100 else mkRat (200 * commonLength first second : Nat) total

/-- The larger one of two scores. -/
def larger (first second : Rat) : Rat :=
  if first < second then second else first

/-- The largest score of a list, and zero if there is none. -/
def best (scores : List Rat) : Rat :=
  scores.foldl larger 0

/-- The parts of a text that a text of length `size` is held against: its shorter beginnings, its
parts of that length, and its shorter ends. -/
def windows (size : Nat) (text : List Char) : List (List Char) :=
  ((List.range size).filter (0 < ·)).map (text.take ·)
    ++ (List.range (text.length - size + 1)).map (fun start => (text.drop start).take size)
    ++ ((List.range (size + 1)).filter (0 < ·)).map (fun length => text.drop (text.length - length))

/-- The best score of the shorter text against the parts of the longer one. -/
def shorterIn (short long : List Char) : Rat :=
  best ((windows short.length long).map (ratio short))

/-- The best score of one text against the parts of the other one. -/
def partialRatio (first second : List Char) : Rat :=
  if first.isEmpty && second.isEmpty then 100
  else if first.isEmpty || second.isEmpty then 0
  else if first.length < second.length then shorterIn first second
  else if second.length < first.length then shorterIn second first
  else larger (shorterIn first second) (shorterIn second first)

/-! ## Words -/

/-- Words joined by spaces. -/
def joinWords (words : List (List Char)) : List Char :=
  [' '].intercalate words

/-- Holds if the first text does not come after the second one, by the numbers of their
characters. -/
def notAfter (first second : List Char) : Bool :=
  !List.lex second first fun left right => left.toNat < right.toNat

/-- The words of a text in order. -/
def sortedWords (text : List Char) : List (List Char) :=
  (words text).mergeSort notAfter

/-- The different words of a text in order. -/
def distinctWords (text : List Char) : List (List Char) :=
  (sortedWords text).eraseDups

/-- The score of the sorted words. -/
def sortedRatio (first second : List Char) : Rat :=
  ratio (joinWords (sortedWords first)) (joinWords (sortedWords second))

/-- The score for `missing` characters that differ among `total` ones. -/
def remaining (missing total : Nat) : Rat :=
  100 - mkRat (100 * missing : Nat) total

/-- The score of the different words: common words count in full, and the best is taken of holding
all words, or only the common ones, against the words of each text. -/
def setRatio (first second : List Char) : Rat :=
  let left := distinctWords first
  let right := distinctWords second
  if left.isEmpty || right.isEmpty then 0
  else
    let common := left.filter right.contains
    let onlyLeft := left.filter (!right.contains ·)
    let onlyRight := right.filter (!left.contains ·)
    if !common.isEmpty && (onlyLeft.isEmpty || onlyRight.isEmpty) then 100
    else
      let leftText := joinWords onlyLeft
      let rightText := joinWords onlyRight
      let shared := (joinWords common).length
      let gap := if 0 < shared then 1 else 0
      let differing := leftText.length + rightText.length - 2 * commonLength leftText rightText
      let whole :=
        remaining differing (2 * shared + 2 * gap + leftText.length + rightText.length)
      if shared = 0 then whole
      else
        larger whole (larger
          (remaining (gap + leftText.length) (2 * shared + gap + leftText.length))
          (remaining (gap + rightText.length) (2 * shared + gap + rightText.length)))

/-- The score of the words of one text against parts of the words of the other one. -/
def partialWordRatio (first second : List Char) : Rat :=
  if (words first).any (words second).contains then 100
  else
    larger (partialRatio (joinWords (sortedWords first)) (joinWords (sortedWords second)))
      (partialRatio (joinWords (distinctWords first)) (joinWords (distinctWords second)))

/-! ## The score of two texts -/

/-- What a comparison word by word counts. -/
def wordDiscount : Rat := mkRat 95 100

/-- What a comparison with parts counts: less if the texts differ more than eightfold. -/
def partDiscount (short long : Nat) : Rat :=
  if long ≤ 8 * short then mkRat 9 10 else mkRat 6 10

/-- How well two texts match. -/
def score (first second : List Char) : Rat :=
  if first.isEmpty || second.isEmpty then 0
  else
    let short := min first.length second.length
    let long := max first.length second.length
    if 2 * long < 3 * short then
      larger (ratio first second)
        (wordDiscount * larger (setRatio first second) (sortedRatio first second))
    else
      let discount := partDiscount short long
      larger (ratio first second) (larger (discount * partialRatio first second)
        (wordDiscount * discount * partialWordRatio first second))

/-- The score from which on a text is close enough to be suggested. -/
def threshold : Rat := 70

/-- The first of the choices that match a text best, if it is close enough. -/
def closest? (text : String) (choices : List String) : Option String :=
  let scored := choices.map fun choice => (choice, score text.toList choice.toList)
  let better (found : Option (String × Rat)) (next : String × Rat) : Option (String × Rat) :=
    if next.2 < threshold then found
    else
      match found with
      | some current => if current.2 < next.2 then some next else found
      | none => some next
  (scored.foldl better none).map (·.1)

/-! ## What is suggested -/

/-- Holds of the first of the choices that match a text best, if it is close enough. -/
def IsClosest (text : String) (choices : List String) (choice : String) : Prop :=
  threshold ≤ score text.toList choice.toList ∧
    ∃ before after, choices = before ++ choice :: after ∧
      (∀ other ∈ before, score text.toList other.toList < score text.toList choice.toList) ∧
        ∀ other ∈ after, score text.toList other.toList ≤ score text.toList choice.toList

namespace IsClosest

variable {text choice other : String} {choices : List String}

/-- No choice matches better than the closest one. -/
theorem score_le (hclosest : IsClosest text choices choice) (hmem : other ∈ choices) :
    score text.toList other.toList ≤ score text.toList choice.toList := by
  obtain ⟨-, before, after, rfl, hbefore, hafter⟩ := hclosest
  rcases List.mem_append.1 hmem with hfront | hback
  · exact Rat.le_of_lt (hbefore other hfront)
  · rcases List.mem_cons.1 hback with rfl | hback
    · exact Rat.le_refl
    · exact hafter other hback

/-- The closest choice stays the closest one if another choice matches no better. -/
theorem append (hclosest : IsClosest text choices choice)
    (hworse : score text.toList other.toList ≤ score text.toList choice.toList) :
    IsClosest text (choices ++ [other]) choice := by
  obtain ⟨hclose, before, after, rfl, hbefore, hafter⟩ := hclosest
  refine ⟨hclose, before, after ++ [other], by simp, hbefore, fun later hmem => ?_⟩
  rcases List.mem_append.1 hmem with hinner | hsame
  · exact hafter later hinner
  · rw [List.mem_singleton.1 hsame]
    exact hworse

/-- A choice that matches better than all in front of it is the closest one. -/
theorem last (hclose : threshold ≤ score text.toList choice.toList)
    (hbest : ∀ other ∈ choices, score text.toList other.toList < score text.toList choice.toList) :
    IsClosest text (choices ++ [choice]) choice :=
  ⟨hclose, choices, [], rfl, hbest, fun _ hnone => by cases hnone⟩

end IsClosest

section Search

variable {text : String} {seen : List String} {found : Option (String × Rat)}

/-- What the search has found among the choices that it has seen. -/
private def Found (text : String) (seen : List String) : Option (String × Rat) → Prop
  | none => ∀ choice ∈ seen, score text.toList choice.toList < threshold
  | some (choice, value) => value = score text.toList choice.toList ∧ IsClosest text seen choice

/-- One step of the search: the next choice counts if it is close enough and matches better than
what is found. -/
private def better (found : Option (String × Rat)) (next : String × Rat) :
    Option (String × Rat) :=
  if next.2 < threshold then found
  else
    match found with
    | some current => if current.2 < next.2 then some next else found
    | none => some next

private theorem found_better (hfound : Found text seen found) (next : String) :
    Found text (seen ++ [next]) (better found (next, score text.toList next.toList)) := by
  unfold better
  split
  · next hfar =>
    cases found with
    | none =>
      intro choice hmem
      rcases List.mem_append.1 hmem with hinner | hsame
      · exact hfound choice hinner
      · rw [List.mem_singleton.1 hsame]
        exact hfar
    | some current =>
      exact ⟨hfound.1, hfound.2.append (Rat.le_trans (Rat.le_of_lt hfar) hfound.2.1)⟩
  · next hnear =>
    have hclose := Rat.not_lt.1 hnear
    cases found with
    | none =>
      exact ⟨rfl, .last hclose fun choice hmem => Std.lt_of_lt_of_le (hfound choice hmem) hclose⟩
    | some current =>
      obtain ⟨hvalue, hclosest⟩ := hfound
      dsimp only
      split
      · next hbeaten =>
        rw [hvalue] at hbeaten
        exact ⟨rfl, .last hclose fun choice hmem =>
          Std.lt_of_le_of_lt (hclosest.score_le hmem) hbeaten⟩
      · next hkept =>
        rw [hvalue] at hkept
        exact ⟨hvalue, hclosest.append (Rat.not_lt.1 hkept)⟩

private theorem found_foldl (choices : List String) (hfound : Found text seen found) :
    Found text (seen ++ choices) (choices.foldl
      (fun found choice => better found (choice, score text.toList choice.toList)) found) := by
  induction choices generalizing seen found with
  | nil => simpa using hfound
  | cons next rest ih =>
    have hstep := ih (found_better hfound next)
    rwa [List.append_assoc] at hstep

/-- The search ends with the closest choice, and with nothing if none is close enough. -/
private theorem exists_found (text : String) (choices : List String) :
    ∃ found, Found text choices found ∧ closest? text choices = found.map (·.1) := by
  have hstart : Found text [] none := fun choice hnone => by cases hnone
  have hsearch : closest? text choices =
      ((choices.map fun choice => (choice, score text.toList choice.toList)).foldl better
        none).map (·.1) :=
    rfl
  rw [List.foldl_map] at hsearch
  exact ⟨_, found_foldl choices hstart, hsearch⟩

end Search

/-- What is suggested is close enough, and the first of the choices that match best. -/
theorem isClosest_of_closest? {text choice : String} {choices : List String}
    (hclosest : closest? text choices = some choice) : IsClosest text choices choice := by
  obtain ⟨found, hsearch, hsame⟩ := exists_found text choices
  rw [hclosest] at hsame
  cases found with
  | none => cases hsame
  | some pair =>
    cases hsame
    exact hsearch.2

/-- Nothing is suggested exactly if no choice is close enough. -/
theorem closest?_eq_none_iff (text : String) (choices : List String) :
    closest? text choices = none ↔
      ∀ choice ∈ choices, score text.toList choice.toList < threshold := by
  obtain ⟨found, hsearch, hsame⟩ := exists_found text choices
  rw [hsame]
  cases found with
  | none => exact ⟨fun _ => hsearch, fun _ => rfl⟩
  | some pair =>
    constructor
    · intro himpossible
      cases himpossible
    · intro hfar
      obtain ⟨hclose, before, after, rfl, -, -⟩ := hsearch.2
      exact absurd (hfar pair.1 (by simp)) (Rat.not_lt.2 hclose)

end CommentMarkers.Text.Similarity
