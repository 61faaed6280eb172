import CommentMarkers.Proofs.CommentLines
import CommentMarkers.Proofs.RangeDeletion

/-!
# What is removed with a comment

The range that is removed with a comment holds the comment, blanks of its line in front of it, and
blanks behind it up to and with a newline.  It therefore has no part in another comment or a
literal, and the ranges of comments that follow each other do not contain one another.

Main results:

- Theorem `removalRange_comment`: the whole comment is removed.
- Theorems `removalRange_front` and `removalRange_back`: only blanks are removed with it.
- Theorem `removalRange_monotone`: of two comments that follow each other, the second one has a
  range that starts later and does not stop earlier.
- Theorems `removalRange_stop_le` and `le_removalRange_start`: nothing is removed from other
  comments and from literals.
- Theorem `removalRange_leaves_newline`: the newline behind a comment at the end of its line is
  left.
-/

namespace CommentMarkers

/-! ## Ends of texts -/

/-- A text is what is in front of the bytes that are counted from its end, and those bytes. -/
theorem eq_dropWhile_append_takeWhile (p : UInt8 → Bool) (text : Bytes) :
    text = (text.reverse.dropWhile p).reverse ++ (text.reverse.takeWhile p).reverse := by
  rw [← List.reverse_append, List.takeWhile_append_dropWhile, List.reverse_reverse]

/-- The bytes that are counted from the end of a text have what they are counted for. -/
theorem of_mem_drop_reverse_takeWhile {p : UInt8 → Bool} {text : Bytes} {byte : UInt8}
    (hbyte : byte ∈ text.drop (text.length - (text.reverse.takeWhile p).length)) :
    p byte = true := by
  have hsplit := eq_dropWhile_append_takeWhile p text
  have hlength : (text.reverse.dropWhile p).reverse.length =
      text.length - (text.reverse.takeWhile p).length := by
    have hcount := congrArg List.length hsplit
    rw [List.length_append, List.length_reverse] at hcount
    rw [List.length_reverse] at hcount ⊢
    omega
  have hdrop := congrArg (List.drop (text.reverse.dropWhile p).reverse.length) hsplit
  rw [List.drop_left, hlength] at hdrop
  rw [hdrop, List.mem_reverse] at hbyte
  exact List.all_eq_true.1 List.all_takeWhile byte hbyte

/-- The last line of a text has no newline. -/
theorem ne_newline_of_mem_lastLine {text : Bytes} {byte : UInt8}
    (hbyte : byte ∈ text.drop (Bytes.lastLineStart text)) : byte ≠ Bytes.newline := by
  simpa using of_mem_drop_reverse_takeWhile hbyte

/-- The blanks at the end of a text are blanks. -/
theorem isBlank_of_mem_trailing {text : Bytes} {byte : UInt8}
    (hbyte : byte ∈ text.drop (text.length - trailingBlanks text)) :
    Bytes.isBlank byte = true :=
  of_mem_drop_reverse_takeWhile hbyte

/-- The byte behind the first line of a text is a newline. -/
theorem eq_newline_of_getElem? {text : Bytes} {byte : UInt8}
    (hbyte : text[Bytes.firstLineLength text]? = some byte) : byte = Bytes.newline := by
  have hsplit := List.takeWhile_append_dropWhile (p := (· != Bytes.newline)) (l := text)
  have hhead := List.head?_dropWhile_not (· != Bytes.newline) text
  have hindex : (text.takeWhile (· != Bytes.newline) ++
      text.dropWhile (· != Bytes.newline))[Bytes.firstLineLength text]? =
        (text.dropWhile (· != Bytes.newline)).head? := by
    rw [Bytes.firstLineLength, List.getElem?_append_right (Nat.le_refl _), Nat.sub_self,
      List.head?_eq_getElem?]
  rw [hsplit, hbyte] at hindex
  rw [← hindex] at hhead
  simpa using hhead

/-- All bytes of a blank text are blanks. -/
theorem isBlank_of_mem {text : Bytes} (hblank : ¬ (!Bytes.isBlankText text) = true) {byte : UInt8}
    (hbyte : byte ∈ text) : Bytes.isBlank byte = true := by
  rw [Bool.not_eq_true, Bool.not_eq_false'] at hblank
  exact List.all_eq_true.1 hblank byte hbyte

/-- The rest of a slice starts later. -/
theorem drop_slice (source : Bytes) (start stop count : Nat) :
    (Bytes.slice source start stop).drop count = Bytes.slice source (start + count) stop := by
  rw [Bytes.slice, Bytes.slice, List.drop_take, List.drop_drop, Nat.sub_sub]

/-- An offset in a slice has a byte of the slice. -/
theorem exists_mem_slice {source : Bytes} {start stop offset : Nat} (hstart : start ≤ offset)
    (hoffset : offset < stop) (hstop : stop ≤ source.length) :
    ∃ byte ∈ Bytes.slice source start stop, source[offset]? = some byte := by
  have hlength : (Bytes.slice source start stop).length = stop - start := length_slice hstop
  have hindex : offset - start < (Bytes.slice source start stop).length := by
    omega
  refine ⟨_, List.getElem_mem hindex, ?_⟩
  rw [← List.getElem?_eq_getElem hindex, Bytes.slice, List.getElem?_take_of_lt (by omega),
    List.getElem?_drop]
  congr 1
  omega

/-! ## The lines of a comment -/

/-- Where the line of an offset starts. -/
def lineStart (source : Bytes) (offset : Nat) : Nat :=
  Bytes.lastLineStart (source.take offset)

/-- Where the line of an offset stops. -/
def lineStop (source : Bytes) (offset : Nat) : Nat :=
  min (offset + Bytes.firstLineLength (source.drop offset)) source.length

/-- The range to remove is the comment itself, or reaches from the blanks in front of it to the end
of its line, or consists of whole lines. -/
theorem removalRange_eq (source : Bytes) (comment : ByteRange) :
    removalRange source comment =
      if !Bytes.isBlankText (Bytes.slice source comment.stop (lineStop source comment.stop)) then
        comment
      else if !Bytes.isBlankText
          (Bytes.slice source (lineStart source comment.start) comment.start) then
        ⟨comment.start -
          trailingBlanks (Bytes.slice source (lineStart source comment.start) comment.start),
          lineStop source comment.stop⟩
      else
        ⟨lineStart source comment.start,
          if lineStop source comment.stop < source.length then lineStop source comment.stop + 1
          else lineStop source comment.stop⟩ :=
  rfl

/-- A line starts in front of its offsets, with no newline between them. -/
theorem lineStart_spec {source : Bytes} {offset : Nat} (hinside : offset ≤ source.length) :
    lineStart source offset ≤ offset ∧
      ∀ byte ∈ Bytes.slice source (lineStart source offset) offset, byte ≠ Bytes.newline := by
  have hlength : (source.take offset).length = offset := by
    rw [List.length_take, Nat.min_eq_left hinside]
  constructor
  · exact Nat.le_trans (Nat.sub_le _ _) (Nat.le_of_eq hlength)
  · intro byte hbyte
    rw [Bytes.slice, ← List.drop_take] at hbyte
    exact ne_newline_of_mem_lastLine hbyte

/-- A line stops behind its offsets, at a newline or at the end of the source. -/
theorem lineStop_spec {source : Bytes} {offset : Nat} (hinside : offset ≤ source.length) :
    offset ≤ lineStop source offset ∧ lineStop source offset ≤ source.length ∧
      (lineStop source offset < source.length →
        source[lineStop source offset]? = some Bytes.newline) := by
  have hfits : Bytes.firstLineLength (source.drop offset) ≤ source.length - offset := by
    rw [← List.length_drop]
    exact Bytes.firstLineLength_le _
  have hstop : lineStop source offset = offset + Bytes.firstLineLength (source.drop offset) :=
    Nat.min_eq_left (by omega)
  refine ⟨by omega, by omega, fun hmore => ?_⟩
  rw [hstop] at hmore ⊢
  have hbyte := List.getElem?_eq_getElem hmore
  rw [hbyte]
  rw [← List.getElem?_drop] at hbyte
  exact congrArg some (eq_newline_of_getElem? hbyte)

/-- A line that does not start the source starts behind a newline. -/
theorem newline_before_lineStart {source : Bytes} {offset : Nat}
    (hpos : 0 < lineStart source offset) :
    source[lineStart source offset - 1]? = some Bytes.newline := by
  have hsplit := eq_dropWhile_append_takeWhile (· != Bytes.newline) (source.take offset)
  have hhead := List.head?_dropWhile_not (· != Bytes.newline) (source.take offset).reverse
  have hlength := congrArg List.length hsplit
  simp only [List.length_append, List.length_reverse] at hlength
  unfold lineStart Bytes.lastLineStart at hpos ⊢
  cases hbefore : (source.take offset).reverse.dropWhile (· != Bytes.newline) with
  | nil =>
      rw [hbefore, List.length_nil] at hlength
      omega
  | cons byte before =>
      rw [hbefore] at hhead hsplit hlength
      obtain rfl : byte = Bytes.newline := by simpa using hhead
      rw [List.length_cons] at hlength
      have hindex : (source.take offset).length -
          ((source.take offset).reverse.takeWhile (· != Bytes.newline)).length - 1 =
            before.reverse.length := by
        rw [List.length_reverse]
        omega
      have hwhole := List.take_append_drop offset source
      rw [hsplit, List.reverse_cons, List.append_assoc, List.append_assoc] at hwhole
      rw [hindex, ← hwhole, List.getElem?_append_right (Nat.le_refl _), Nat.sub_self]
      rfl

/-! ## What is removed with a comment -/

variable {source : Bytes} {comment : ByteRange} {offset : Nat}

/-- The whole comment is removed. -/
theorem removalRange_comment (hstop : comment.stop ≤ source.length) :
    (removalRange source comment).start ≤ comment.start ∧
      comment.stop ≤ (removalRange source comment).stop := by
  refine ⟨removalRange_start_le source comment, ?_⟩
  have hline := (lineStop_spec hstop).1
  rw [removalRange_eq]
  split
  · exact Nat.le_refl _
  · split
    · exact hline
    · simp only
      split
      · exact Nat.le_succ_of_le hline
      · exact hline

/-- In front of the comment only blanks of its line are removed. -/
theorem removalRange_front (hstart : comment.start ≤ source.length)
    (hfrom : (removalRange source comment).start ≤ offset) (hoffset : offset < comment.start) :
    ∃ byte, source[offset]? = some byte ∧ Bytes.isBlank byte = true ∧ byte ≠ Bytes.newline := by
  rcases lineStart_spec hstart with ⟨hline, hnewline⟩
  have hlength : (Bytes.slice source (lineStart source comment.start) comment.start).length =
      comment.start - lineStart source comment.start := length_slice hstart
  rw [removalRange_eq] at hfrom
  split at hfrom
  · exact absurd hoffset (Nat.not_lt.2 hfrom)
  · split at hfrom
    · -- The blanks at the end of what is in front of the comment.
      have hblanks : trailingBlanks
          (Bytes.slice source (lineStart source comment.start) comment.start) ≤
            comment.start - lineStart source comment.start := by
        rw [← hlength, ← List.length_reverse]
        exact (List.takeWhile_sublist _).length_le
      simp only at hfrom
      obtain ⟨byte, hbyte, hat⟩ := exists_mem_slice hfrom hoffset hstart
      obtain ⟨same, hsame, hagain⟩ := exists_mem_slice
        (show lineStart source comment.start ≤ offset by omega) hoffset hstart
      obtain rfl : byte = same := Option.some.inj (hat.symm.trans hagain)
      have htrailing : byte ∈
          (Bytes.slice source (lineStart source comment.start) comment.start).drop
            ((Bytes.slice source (lineStart source comment.start) comment.start).length -
              trailingBlanks
                (Bytes.slice source (lineStart source comment.start) comment.start)) := by
        rw [drop_slice, hlength, ← Nat.add_sub_assoc hblanks, Nat.add_sub_cancel' hline]
        exact hbyte
      exact ⟨byte, hat, isBlank_of_mem_trailing htrailing, hnewline byte hsame⟩
    · -- All that is in front of the comment on its line.
      rename_i hblank
      simp only at hfrom
      obtain ⟨byte, hbyte, hat⟩ := exists_mem_slice hfrom hoffset hstart
      exact ⟨byte, hat, isBlank_of_mem hblank hbyte, hnewline byte hbyte⟩

/-- Behind the comment only blanks are removed. -/
theorem removalRange_back (hstop : comment.stop ≤ source.length) (hfrom : comment.stop ≤ offset)
    (hoffset : offset < (removalRange source comment).stop) :
    ∃ byte, source[offset]? = some byte ∧ Bytes.isBlank byte = true := by
  rcases lineStop_spec hstop with ⟨hline, hinside, hnewline⟩
  rw [removalRange_eq] at hoffset
  split at hoffset
  · exact absurd hoffset (Nat.not_lt.2 hfrom)
  · rename_i hblank
    have hrest : ∀ offset, comment.stop ≤ offset → offset < lineStop source comment.stop →
        ∃ byte, source[offset]? = some byte ∧ Bytes.isBlank byte = true := by
      intro offset hfrom hoffset
      obtain ⟨byte, hbyte, hat⟩ := exists_mem_slice hfrom hoffset hinside
      exact ⟨byte, hat, isBlank_of_mem hblank hbyte⟩
    split at hoffset
    · exact hrest offset hfrom hoffset
    · simp only at hoffset
      split at hoffset
      · rename_i hmore
        rcases Nat.lt_succ_iff_lt_or_eq.1 hoffset with hbefore | rfl
        · exact hrest offset hfrom hbefore
        · exact ⟨_, hnewline hmore, rfl⟩
      · exact hrest offset hfrom hoffset

/-! ## Comments with something in them -/

/-- Holds if a range of a source has a byte that is no blank. -/
def ByteRange.IsSolid (source : Bytes) (comment : ByteRange) : Prop :=
  ∃ offset byte, comment.start ≤ offset ∧ offset < comment.stop ∧ source[offset]? = some byte ∧
    Bytes.isBlank byte = false

/-- Of two comments that follow each other, the second one has a range that starts later and does
not stop earlier. -/
theorem removalRange_monotone {first second : ByteRange} (hfirst : first.IsSolid source)
    (hsecond : second.IsSolid source) (horder : first.stop ≤ second.start)
    (hstop : second.stop ≤ source.length) :
    (removalRange source first).start < (removalRange source second).start ∧
      (removalRange source first).stop ≤ (removalRange source second).stop := by
  rcases hfirst with ⟨front, byte, hfront, hbefore, hbyte, hsolid⟩
  rcases hsecond with ⟨back, other, hback, hbehind, hother, hothers⟩
  have hwidened := removalRange_comment hstop
  have hstart := removalRange_start_le source first
  constructor
  · refine Nat.lt_of_le_of_lt (Nat.le_trans hstart hfront) (Nat.lt_of_not_le fun hinside => ?_)
    rcases removalRange_front (by omega) hinside (by omega) with ⟨same, hsame, hblank, -⟩
    rw [hbyte] at hsame
    cases hsame
    rw [hsolid] at hblank
    cases hblank
  · have hends := hwidened.2
    refine Nat.le_of_not_lt fun hinside => ?_
    rcases removalRange_back (show first.stop ≤ source.length by omega)
      (show first.stop ≤ back by omega) (by omega) with ⟨same, hsame, hblank⟩
    rw [hother] at hsame
    cases hsame
    rw [hothers] at hblank
    cases hblank

/-- In front of a newline, or of nothing, there is nothing behind a comment on its line. -/
theorem slice_lineStop_eq_nil (hends : ∀ byte ∈ source[comment.stop]?, byte = Bytes.newline) :
    Bytes.slice source comment.stop (lineStop source comment.stop) = [] := by
  have hline : Bytes.firstLineLength (source.drop comment.stop) = 0 := by
    cases hrest : source.drop comment.stop with
    | nil => rfl
    | cons byte rest =>
        have hbyte : source[comment.stop]? = some byte := by
          rw [← Nat.add_zero comment.stop, ← List.getElem?_drop, hrest]
          rfl
        rw [hends byte hbyte, Bytes.firstLineLength, List.takeWhile_cons_of_neg (by decide)]
        rfl
  have hlength := Bytes.length_slice_le source comment.stop (lineStop source comment.stop)
  rw [lineStop, hline, Nat.add_zero] at hlength ⊢
  exact List.length_eq_zero_iff.1 (by omega)

/-- The range of a comment that ends its line starts where its line lets it, wherever the comment
stops. -/
theorem removalRange_start_eq {first second : ByteRange} (hstart : first.start = second.start)
    (hfirst : ∀ byte ∈ source[first.stop]?, byte = Bytes.newline)
    (hsecond : ∀ byte ∈ source[second.stop]?, byte = Bytes.newline) :
    (removalRange source first).start = (removalRange source second).start := by
  have hstarts : ∀ comment : ByteRange, (∀ byte ∈ source[comment.stop]?, byte = Bytes.newline) →
      (removalRange source comment).start =
        if !Bytes.isBlankText
            (Bytes.slice source (lineStart source comment.start) comment.start) then
          comment.start -
            trailingBlanks (Bytes.slice source (lineStart source comment.start) comment.start)
        else lineStart source comment.start := by
    intro comment hends
    rw [removalRange_eq, slice_lineStop_eq_nil hends, if_neg (by decide)]
    split <;> rfl
  rw [hstarts first hfirst, hstarts second hsecond, hstart]

/-! ## What is left beside a comment -/

/-- Holds of a range of a source that begins with a byte that is no blank, and ends with one or in
front of a newline or of nothing. -/
structure ByteRange.IsFirm (source : Bytes) (range : ByteRange) : Prop where
  nonempty : range.start < range.stop
  inside : range.stop ≤ source.length
  first : ∀ byte ∈ source[range.start]?, Bytes.isBlank byte = false
  last : (∀ byte ∈ source[range.stop - 1]?, Bytes.isBlank byte = false) ∨
    ∀ byte ∈ source[range.stop]?, byte = Bytes.newline

variable {other : ByteRange}

/-- The first byte of a firm range is no blank. -/
theorem ByteRange.IsFirm.not_blank (hfirm : comment.IsFirm source) {byte : UInt8}
    (hbyte : source[comment.start]? = some byte) (hblank : Bytes.isBlank byte = true) : False := by
  have hsolid := hfirm.first byte hbyte
  rw [hblank] at hsolid
  cases hsolid

/-- What is removed with a comment stops in front of the ranges behind it. -/
theorem removalRange_stop_le (hother : other.IsFirm source) (horder : comment.stop ≤ other.start) :
    (removalRange source comment).stop ≤ other.start := by
  have hnonempty := hother.nonempty
  have hinside := hother.inside
  refine Nat.le_of_not_lt fun hreaches => ?_
  rcases removalRange_back (show comment.stop ≤ source.length by omega) horder hreaches with
    ⟨byte, hbyte, hblank⟩
  exact hother.not_blank hbyte hblank

/-- What is removed with a comment starts behind the newlines in front of it. -/
theorem lt_removalRange_start (hcomment : comment.IsFirm source) (horder : offset ≤ comment.start)
    (hnewline : ∀ byte ∈ source[offset]?, byte = Bytes.newline) :
    offset < (removalRange source comment).start := by
  have hnonempty := hcomment.nonempty
  have hinside := hcomment.inside
  refine Nat.lt_of_not_le fun hreaches => ?_
  rcases Nat.lt_or_eq_of_le horder with hbefore | rfl
  · rcases removalRange_front (by omega) hreaches hbefore with ⟨byte, hbyte, -, hne⟩
    exact hne (hnewline byte hbyte)
  · have hbyte := List.getElem?_eq_getElem (show comment.start < source.length by omega)
    refine hcomment.not_blank hbyte ?_
    rw [hnewline _ hbyte]
    rfl

/-- What is removed with a comment starts behind the ranges in front of it. -/
theorem le_removalRange_start (hcomment : comment.IsFirm source) (hother : other.IsFirm source)
    (horder : other.stop ≤ comment.start) : other.stop ≤ (removalRange source comment).start := by
  have hnonempty := hother.nonempty
  have hinside := hcomment.inside
  have hcommentNonempty := hcomment.nonempty
  rcases hother.last with hsolid | hnewline
  · refine Nat.le_of_not_lt fun hreaches => ?_
    rcases removalRange_front (show comment.start ≤ source.length by omega)
      (show (removalRange source comment).start ≤ other.stop - 1 by omega) (by omega) with
      ⟨byte, hbyte, hblank, -⟩
    rw [hsolid byte hbyte] at hblank
    cases hblank
  · exact Nat.le_of_lt (lt_removalRange_start hcomment horder hnewline)

/-- Holds of a comment with nothing but blanks behind it on its line. -/
def ByteRange.endsLine (source : Bytes) (comment : ByteRange) : Bool :=
  Bytes.isBlankText (Bytes.slice source comment.stop (lineStop source comment.stop))

/-- A comment with something else behind it on its line is removed alone. -/
theorem removalRange_eq_self (hcode : comment.endsLine source = false) :
    removalRange source comment = comment := by
  rw [removalRange_eq, if_pos (by rw [Bool.not_eq_true']; exact hcode)]

/-- A comment that ends its line is removed up to the end of the line, and not with the newline if
there is something in front of it on the line. -/
theorem removalRange_stop_eq (hends : comment.endsLine source = true)
    (hpos : 0 < (removalRange source comment).start)
    (hbyte : source[(removalRange source comment).start - 1]? ≠ some Bytes.newline) :
    (removalRange source comment).stop = lineStop source comment.stop := by
  have hblank : ¬ (!Bytes.isBlankText
      (Bytes.slice source comment.stop (lineStop source comment.stop))) = true := by
    rw [Bool.not_eq_true, Bool.not_eq_false']
    exact hends
  rw [removalRange_eq, if_neg hblank] at hpos hbyte ⊢
  split
  · rfl
  · rename_i hempty
    rw [if_neg hempty] at hpos hbyte
    exact absurd (newline_before_lineStart hpos) hbyte

/-- The newline behind a comment at the end of a line is not removed with another comment. -/
theorem removalRange_leaves_newline (hcomment : comment.IsFirm source)
    (hother : other.IsFirm source)
    (happart : comment.stop ≤ other.start ∨ other.stop ≤ comment.start)
    (hstop : (removalRange source comment).stop = lineStop source comment.stop) :
    (removalRange source other).contains (lineStop source comment.stop) = false := by
  have hline := lineStop_spec hcomment.inside
  have hnonempty := hcomment.nonempty
  rw [Bool.eq_false_iff, ne_eq, ByteRange.contains_iff]
  rintro ⟨hstarts, hstops⟩
  rcases happart with hbehind | hbefore
  · -- The comment behind the newline starts on a later line.
    have hlater := removalRange_stop_le hother hbehind
    rw [hstop] at hlater
    refine Nat.not_le.2 (lt_removalRange_start hother hlater fun byte hbyte => ?_) hstarts
    have hinside := (List.getElem?_eq_some_iff.1 hbyte).1
    rw [hline.2.2 hinside] at hbyte
    exact (Option.some.inj hbyte).symm
  · have hearlier := removalRange_stop_le hcomment hbefore
    omega

end CommentMarkers
