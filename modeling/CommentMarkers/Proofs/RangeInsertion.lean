import CommentMarkers.Proofs.References
import CommentMarkers.Proofs.RemovalRanges

/-!
# Ranges and an inserted word

A word that is inserted behind a word moves what is behind it.  The ranges that are removed with
comments move in the same way: they are widened over blanks only, so a word that grows does not
change how far.  Where the word is inserted in one of the ranges, deleting all of them leaves the
same bytes as before.

Main results:

- Theorem `removalRange_around`: the range of a comment, by what is in front of it and behind it.
- Theorem `removalRange_insert`: the range of a comment moves with the comment.
- Theorem `without_insert`: deleting ranges deletes what is inserted in one of them.
-/

namespace CommentMarkers

/-! ## Lines with a word -/

variable {front : Bytes} {first second : UInt8}

/-- The blanks at the start of a text stop at a byte that is no blank. -/
theorem takeWhile_isBlank_append (hfirst : Bytes.isBlank first = false) (front back : Bytes) :
    (front ++ first :: back).takeWhile Bytes.isBlank = front.takeWhile Bytes.isBlank := by
  induction front with
  | nil => simp [hfirst]
  | cons byte front ih => rw [List.cons_append, List.takeWhile_cons, List.takeWhile_cons, ih]

/-- A byte that is no blank does not end a line. -/
theorem firstLine_cons (hfirst : Bytes.isBlank first = false) (back : Bytes) :
    firstLine (first :: back) = first :: firstLine back := by
  apply List.takeWhile_cons_of_pos
  simp only [bne_iff_ne, ne_eq]
  rintro rfl
  cases hfirst

/-- A line with a word in it is not blank. -/
theorem isBlankText_firstLine (hfirst : Bytes.isBlank first = false)
    (hline : Bytes.newline ∉ front) (back : Bytes) :
    Bytes.isBlankText (firstLine (front ++ first :: back)) = false := by
  rw [firstLine_append_of_not_mem hline, firstLine_cons hfirst]
  simp [Bytes.isBlankText, hfirst]

/-! ## How far a comment is widened -/

/-- How many bytes in front of a comment and behind it are removed with it.  The text in front of
the comment is given backwards, so that both texts begin at the comment. -/
def reach (front back : Bytes) : Nat × Nat :=
  if !Bytes.isBlankText (firstLine back) then (0, 0)
  else if !Bytes.isBlankText (firstLine front) then
    (((firstLine front).takeWhile Bytes.isBlank).length, (firstLine back).length)
  else ((firstLine front).length, min ((firstLine back).length + 1) back.length)

/-- What is removed behind a comment depends on what is there up to the first word. -/
theorem reach_behind (hfirst : Bytes.isBlank first = false) (hsecond : Bytes.isBlank second = false)
    (front word back other : Bytes) :
    reach front (word ++ first :: back) = reach front (word ++ second :: other) := by
  unfold reach
  by_cases hline : Bytes.newline ∈ word
  · have hshort := length_firstLine_lt hline
    rw [firstLine_append_of_mem hline, firstLine_append_of_mem hline,
      Nat.min_eq_left (by rw [List.length_append]; omega),
      Nat.min_eq_left (by rw [List.length_append]; omega)]
  · rw [isBlankText_firstLine hfirst hline, isBlankText_firstLine hsecond hline]
    rfl

/-- What is removed in front of a comment depends on what is there from the last word on. -/
theorem reach_in_front (hfirst : Bytes.isBlank first = false)
    (hsecond : Bytes.isBlank second = false) (word front other back : Bytes) :
    reach (word ++ first :: front) back = reach (word ++ second :: other) back := by
  unfold reach
  by_cases hline : Bytes.newline ∈ word
  · rw [firstLine_append_of_mem hline, firstLine_append_of_mem hline]
  · rw [isBlankText_firstLine hfirst hline, isBlankText_firstLine hsecond hline,
      firstLine_append_of_not_mem hline, firstLine_append_of_not_mem hline, firstLine_cons hfirst,
      firstLine_cons hsecond, takeWhile_isBlank_append hfirst, takeWhile_isBlank_append hsecond]
    simp only [Bool.not_false, if_true]

/-- What is removed behind a comment stops in front of the first word. -/
theorem reach_le_behind (hfirst : Bytes.isBlank first = false) (front word back : Bytes) :
    (reach front (word ++ first :: back)).2 ≤ word.length := by
  unfold reach
  by_cases hline : Bytes.newline ∈ word
  · have hshort := length_firstLine_lt hline
    rw [firstLine_append_of_mem hline]
    split
    · exact Nat.zero_le _
    · split
      · exact Nat.le_of_lt hshort
      · exact Nat.le_trans (Nat.min_le_left _ _) hshort
  · rw [isBlankText_firstLine hfirst hline]
    exact Nat.zero_le _

/-- What is removed in front of a comment starts behind the last word. -/
theorem reach_le_in_front (hfirst : Bytes.isBlank first = false) (word front back : Bytes) :
    (reach (word ++ first :: front) back).1 ≤ word.length := by
  unfold reach
  by_cases hline : Bytes.newline ∈ word
  · have hshort := length_firstLine_lt hline
    rw [firstLine_append_of_mem hline]
    split
    · exact Nat.zero_le _
    · split
      · have hblanks := (List.takeWhile_prefix (l := firstLine word) Bytes.isBlank).length_le
        exact Nat.le_trans hblanks (Nat.le_of_lt hshort)
      · exact Nat.le_of_lt hshort
  · rw [isBlankText_firstLine hfirst hline, firstLine_append_of_not_mem hline,
      firstLine_cons hfirst, takeWhile_isBlank_append hfirst]
    have hblanks := (List.takeWhile_prefix (l := word) Bytes.isBlank).length_le
    split
    · exact Nat.zero_le _
    · exact hblanks

/-! ## The range of a comment between two texts -/

/-- The line of an offset begins as many bytes in front of it as the last line in front of it has,
and these bytes are that line. -/
theorem slice_lastLine (front back : Bytes) :
    lineStart (front ++ back) front.length = front.length - (firstLine front.reverse).length ∧
      Bytes.slice (front ++ back) (lineStart (front ++ back) front.length) front.length =
        (firstLine front.reverse).reverse := by
  have hstart : lineStart (front ++ back) front.length =
      front.length - (firstLine front.reverse).length := by
    rw [lineStart, List.take_left]
    rfl
  refine ⟨hstart, ?_⟩
  have hsplit : front = (front.reverse.dropWhile (· != Bytes.newline)).reverse ++
      (firstLine front.reverse).reverse := eq_dropWhile_append_takeWhile _ front
  have hreverse : (firstLine front.reverse).reverse.length = (firstLine front.reverse).length :=
    List.length_reverse
  have hlength := congrArg List.length hsplit
  rw [List.length_append, hreverse] at hlength
  have hmiddle := slice_middle (front.reverse.dropWhile (· != Bytes.newline)).reverse
    (firstLine front.reverse).reverse back
  rw [← List.append_assoc, ← hsplit, hreverse, ← hlength] at hmiddle
  rw [hstart, ← hmiddle]
  congr 1
  omega

/-- The line of an offset ends as many bytes behind it as the first line behind it has, and these
bytes are that line. -/
theorem slice_firstLine (front back : Bytes) :
    lineStop (front ++ back) front.length = front.length + (firstLine back).length ∧
      Bytes.slice (front ++ back) front.length (lineStop (front ++ back) front.length) =
        firstLine back := by
  have hstop : lineStop (front ++ back) front.length =
      front.length + (firstLine back).length := by
    have hfits : (firstLine back).length ≤ back.length := Bytes.firstLineLength_le back
    unfold lineStop
    rw [List.drop_left, List.length_append]
    exact Nat.min_eq_left (Nat.add_le_add_left hfits _)
  refine ⟨hstop, ?_⟩
  have hmiddle := slice_middle front (firstLine back) (back.dropWhile (· != Bytes.newline))
  rw [← hstop] at hmiddle
  unfold firstLine at hmiddle ⊢
  rwa [List.takeWhile_append_dropWhile] at hmiddle

/-- The range that is removed with a comment between two texts. -/
theorem removalRange_around (front text back : Bytes) :
    removalRange (front ++ (text ++ back)) ⟨front.length, front.length + text.length⟩ =
      ⟨front.length - (reach front.reverse back).1,
        front.length + text.length + (reach front.reverse back).2⟩ := by
  obtain ⟨hstart, hbefore⟩ := slice_lastLine front (text ++ back)
  obtain ⟨hstop, hafter⟩ := slice_firstLine (front ++ text) back
  rw [List.append_assoc, List.length_append] at hstop hafter
  have hblanks : Bytes.isBlankText (firstLine front.reverse).reverse =
      Bytes.isBlankText (firstLine front.reverse) := List.all_reverse
  rw [removalRange_eq, hbefore, hafter, hblanks, reach]
  split
  · rfl
  · split
    · rw [hstop, trailingBlanks, List.reverse_reverse]
    · have hfits : (firstLine back).length ≤ back.length := Bytes.firstLineLength_le back
      rw [hstart, hstop]
      simp only [List.length_append]
      congr 1
      split
      · rw [Nat.min_eq_left (by omega), Nat.add_assoc]
      · rw [Nat.min_eq_right (by omega)]
        omega

/-! ## Ranges that move -/

/-- Where an offset is once `count` bytes are inserted at `cut`. -/
def shiftedOffset (cut count offset : Nat) : Nat :=
  if offset < cut then offset else offset + count

/-- An offset in front of the inserted bytes stays. -/
theorem shiftedOffset_of_lt {cut offset : Nat} (hoffset : offset < cut) (count : Nat) :
    shiftedOffset cut count offset = offset :=
  if_pos hoffset

/-- An offset behind the place of the inserted bytes moves by them. -/
theorem shiftedOffset_of_le {cut offset : Nat} (hoffset : cut ≤ offset) (count : Nat) :
    shiftedOffset cut count offset = offset + count :=
  if_neg (Nat.not_lt.2 hoffset)

namespace ByteRange

/-- Where a range is once `count` bytes are inserted at `cut`. -/
def shifted (range : ByteRange) (cut count : Nat) : ByteRange :=
  ⟨shiftedOffset cut count range.start, shiftedOffset cut count range.stop⟩

variable {start stop cut : Nat}

/-- A range in front of the inserted bytes stays. -/
theorem shifted_in_front (hstart : start < cut) (hstop : stop < cut) (count : Nat) :
    (ByteRange.mk start stop).shifted cut count = ⟨start, stop⟩ := by
  rw [shifted, shiftedOffset_of_lt hstart, shiftedOffset_of_lt hstop]

/-- A range with the place of the inserted bytes in it grows by them. -/
theorem shifted_inside (hstart : start < cut) (hstop : cut ≤ stop) (count : Nat) :
    (ByteRange.mk start stop).shifted cut count = ⟨start, stop + count⟩ := by
  rw [shifted, shiftedOffset_of_lt hstart, shiftedOffset_of_le hstop]

/-- A range behind the inserted bytes moves by them. -/
theorem shifted_behind (hstart : cut ≤ start) (hstop : cut ≤ stop) (count : Nat) :
    (ByteRange.mk start stop).shifted cut count = ⟨start + count, stop + count⟩ := by
  rw [shifted, shiftedOffset_of_le hstart, shiftedOffset_of_le hstop]

/-- Apart from the inserted bytes, a range that moved has the same bytes in it. -/
theorem contains_shifted (range : ByteRange) (count offset : Nat) :
    (range.shifted cut count).contains (shiftedOffset cut count offset) =
      range.contains offset := by
  rw [Bool.eq_iff_iff, contains_iff, contains_iff]
  unfold shifted shiftedOffset
  split <;> split <;> split <;> constructor <;> simp only <;> omega

/-- No offset moves into the inserted bytes. -/
theorem not_contains_shiftedOffset (cut count offset : Nat) :
    (ByteRange.mk cut (cut + count)).contains (shiftedOffset cut count offset) = false := by
  rw [← Bool.not_eq_true, contains_iff]
  unfold shiftedOffset
  split <;> simp only <;> omega

end ByteRange

variable {byte : UInt8} {before behind inserted : Bytes}

/-- A word behind a byte of a word ends with a byte of a word. -/
theorem exists_last_of_solid (hbyte : Bytes.isBlank byte = false) (hsolid : Solid inserted)
    (before : Bytes) :
    ∃ last rest, (before ++ byte :: inserted).reverse = last :: rest ∧
      Bytes.isBlank last = false := by
  rcases List.eq_nil_or_concat inserted with rfl | ⟨inner, last, rfl⟩
  · exact ⟨byte, before.reverse, by simp, hbyte⟩
  · exact ⟨last, inner.reverse ++ byte :: before.reverse, by simp, hsolid last (by simp)⟩

/-- The range of a comment behind the inserted word moves by the word. -/
theorem removalRange_insert_in_front (hbyte : Bytes.isBlank byte = false)
    (hsolid : Solid inserted) (before inner text back : Bytes) :
    removalRange (before ++ byte :: (inserted ++ inner) ++ (text ++ back))
        ⟨(before ++ byte :: (inserted ++ inner)).length,
          (before ++ byte :: (inserted ++ inner)).length + text.length⟩ =
      (removalRange (before ++ byte :: inner ++ (text ++ back))
        ⟨(before ++ byte :: inner).length,
          (before ++ byte :: inner).length + text.length⟩).shifted (before.length + 1)
            inserted.length := by
  rcases exists_last_of_solid hbyte hsolid before with ⟨last, rest, hreverse, hlast⟩
  have hold : (before ++ byte :: inner).reverse = inner.reverse ++ byte :: before.reverse := by
    simp
  have hnew : (before ++ byte :: (inserted ++ inner)).reverse = inner.reverse ++ last :: rest := by
    rw [← hreverse]
    simp
  have hbound := reach_le_in_front hbyte inner.reverse before.reverse back
  rw [List.length_reverse] at hbound
  rw [removalRange_around, removalRange_around, hnew, hold,
    reach_in_front hlast hbyte inner.reverse rest before.reverse back]
  simp only [List.length_append, List.length_cons]
  rw [ByteRange.shifted_behind (by omega) (by omega)]
  congr 1 <;> omega

/-- The range of a comment in front of the inserted word stays. -/
theorem removalRange_insert_behind (hbyte : Bytes.isBlank byte = false)
    (front text rest behind inserted : Bytes) :
    removalRange (front ++ (text ++ (rest ++ byte :: (inserted ++ behind))))
        ⟨front.length, front.length + text.length⟩ =
      (removalRange (front ++ (text ++ (rest ++ byte :: behind)))
        ⟨front.length, front.length + text.length⟩).shifted
          ((front ++ (text ++ rest)).length + 1) inserted.length := by
  have hbound := reach_le_behind hbyte front.reverse rest behind
  rw [removalRange_around, removalRange_around,
    reach_behind hbyte hbyte front.reverse rest (inserted ++ behind) behind]
  simp only [List.length_append]
  rw [ByteRange.shifted_in_front (by omega) (by omega)]

/-- The range of a comment with the inserted word in it grows by the word. -/
theorem removalRange_insert_inside (front inner rest back inserted : Bytes) (byte : UInt8) :
    removalRange (front ++ (inner ++ byte :: (inserted ++ rest) ++ back))
        ⟨front.length, front.length + (inner ++ byte :: (inserted ++ rest)).length⟩ =
      (removalRange (front ++ (inner ++ byte :: rest ++ back))
        ⟨front.length, front.length + (inner ++ byte :: rest).length⟩).shifted
          ((front ++ inner).length + 1) inserted.length := by
  rw [removalRange_around, removalRange_around]
  simp only [List.length_append, List.length_cons]
  rw [ByteRange.shifted_inside (by omega) (by omega)]
  congr 1
  omega

/-- The range that is removed with a comment moves with the comment, if a word is inserted behind a
byte of a word. -/
theorem removalRange_insert (hbyte : Bytes.isBlank byte = false) (hsolid : Solid inserted)
    {comment : ByteRange} (horder : comment.start ≤ comment.stop)
    (hinside : comment.stop ≤ (before ++ byte :: behind).length) :
    removalRange (before ++ byte :: (inserted ++ behind))
        (comment.shifted (before.length + 1) inserted.length) =
      (removalRange (before ++ byte :: behind) comment).shifted (before.length + 1)
        inserted.length := by
  obtain ⟨front, text, back, hsource, rfl⟩ : ∃ front text back,
      front ++ (text ++ back) = before ++ byte :: behind ∧
        comment = ⟨front.length, front.length + text.length⟩ := by
    refine ⟨_, _, _, (eq_take_slice_drop (before ++ byte :: behind) horder).symm, ?_⟩
    rw [length_slice hinside, List.length_take, Nat.min_eq_left (Nat.le_trans horder hinside),
      Nat.add_sub_cancel' horder]
  rcases append_eq_append_cons hsource with ⟨inner, rfl, rfl⟩ | ⟨inner, rfl, hrest⟩
  · have hmoved := removalRange_insert_in_front hbyte hsolid before inner text back
    rw [hsource] at hmoved
    have hlength : before.length + 1 ≤ (before ++ byte :: inner).length := by
      simp only [List.length_append, List.length_cons]
      omega
    rw [ByteRange.shifted_behind hlength (Nat.le_add_right_of_le hlength), ← hmoved]
    congr 1
    · simp
    · simp only [List.length_append, List.length_cons]
      congr 1 <;> omega
  · rcases append_eq_append_cons hrest with ⟨rest, rfl, rfl⟩ | ⟨rest, rfl, rfl⟩
    · have hmoved := removalRange_insert_inside front inner rest back inserted byte
      rw [hsource] at hmoved
      have hstart : front.length < (front ++ inner).length + 1 := by
        rw [List.length_append]
        omega
      have hstop : (front ++ inner).length + 1 ≤
          front.length + (inner ++ byte :: rest).length := by
        simp only [List.length_append, List.length_cons]
        omega
      rw [ByteRange.shifted_inside hstart hstop, ← hmoved]
      congr 1
      · simp
      · simp only [List.length_append, List.length_cons]
        congr 1
        omega
    · have hmoved := removalRange_insert_behind hbyte front text rest behind inserted
      rw [hsource] at hmoved
      have hstop : front.length + text.length < (front ++ (text ++ rest)).length + 1 := by
        simp only [List.length_append]
        omega
      rw [ByteRange.shifted_in_front (Nat.lt_of_le_of_lt (Nat.le_add_right _ _) hstop) hstop,
        ← hmoved]
      simp

/-! ## Deleting what is inserted -/

/-- Moved ranges contain what the ranges contain, but for the inserted bytes. -/
theorem covers_shifted (ranges : List ByteRange) (cut count offset : Nat) :
    ByteRange.covers (ranges.map (·.shifted cut count)) (shiftedOffset cut count offset) =
      ByteRange.covers ranges offset := by
  simp only [ByteRange.covers, List.any_map]
  congr 1
  funext range
  exact range.contains_shifted _ _

/-- If the inserted bytes are deleted with what was to be deleted, the same bytes are left. -/
theorem without_inserted {front inserted : Bytes} {gone other : Nat → Bool}
    (hmoved : ∀ offset, other (shiftedOffset front.length inserted.length offset) = gone offset)
    (hinserted : ∀ offset < inserted.length, other (front.length + offset) = true)
    (back : Bytes) :
    Bytes.without (front ++ (inserted ++ back)) other = Bytes.without (front ++ back) gone := by
  rw [Bytes.without_append, Bytes.without_append, Bytes.without_append,
    Bytes.without_eq_nil hinserted, List.nil_append]
  congr 1
  · apply Bytes.without_congr
    intro offset hoffset
    rw [← hmoved, shiftedOffset_of_lt hoffset]
  · apply Bytes.without_congr
    intro offset hoffset
    rw [← hmoved, shiftedOffset_of_le (Nat.le_add_right _ _)]
    congr 1
    omega

/-- If one of the deleted ranges has the place of the inserted bytes in it, deleting the moved
ranges leaves the same bytes. -/
theorem without_insert {ranges : List ByteRange} {range : ByteRange} (hrange : range ∈ ranges)
    {front : Bytes} (hstart : range.start < front.length) (hstop : front.length ≤ range.stop)
    (inserted back : Bytes) :
    Bytes.without (front ++ (inserted ++ back))
        (ByteRange.covers (ranges.map (·.shifted front.length inserted.length))) =
      Bytes.without (front ++ back) (ByteRange.covers ranges) := by
  refine without_inserted (covers_shifted ranges _ _) ?_ back
  intro offset hoffset
  refine List.any_eq_true.2 ⟨_, List.mem_map_of_mem hrange, ByteRange.contains_iff.2 ?_⟩
  rcases range with ⟨start, stop⟩
  rw [ByteRange.shifted_inside hstart hstop]
  simp only at hstart hstop ⊢
  omega

end CommentMarkers
