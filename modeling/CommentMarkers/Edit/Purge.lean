import CommentMarkers.Annotation.Extraction

/-!
# Purging annotations

Purging removes the comments that hold annotations. A comment that stands alone on its lines is
removed with these lines, and a comment at the end of a line with the blanks in front of it. Where
code follows on the same line, only the comment itself goes.

Main results:

- Theorem `removalRange_start_le`: widening never starts behind the comment.
-/

namespace CommentMarkers

/-- The offsets from `start` up to `stop`. -/
structure ByteRange where
  start : Nat
  stop : Nat
  deriving DecidableEq, Repr

namespace ByteRange

/-- Holds if the first range starts behind the second one, or starts with it and reaches at least
as far. -/
def notBefore (first second : ByteRange) : Bool :=
  second.start < first.start || (second.start == first.start && second.stop ≤ first.stop)

/-- Deletes the bytes of a range. -/
def deleteFrom (range : ByteRange) (source : Bytes) : Bytes :=
  source.take range.start ++ source.drop (max range.start range.stop)

end ByteRange

/-! ## What goes with a comment -/

/-- The number of blanks at the end of a text. -/
def trailingBlanks (text : Bytes) : Nat :=
  (text.reverse.takeWhile Bytes.isBlank).length

/-- The range to remove for a comment: widened to whole lines if nothing else shares them, and by
the blanks in front of a comment that ends its line. -/
def removalRange (source : Bytes) (comment : ByteRange) : ByteRange :=
  let lineStart := Bytes.lastLineStart (source.take comment.start)
  let lineStop :=
    min (comment.stop + Bytes.firstLineLength (source.drop comment.stop)) source.length
  let before := Bytes.slice source lineStart comment.start
  let after := Bytes.slice source comment.stop lineStop
  if !Bytes.isBlankText after then comment
  else if !Bytes.isBlankText before then ⟨comment.start - trailingBlanks before, lineStop⟩
  else ⟨lineStart, if lineStop < source.length then lineStop + 1 else lineStop⟩

/-- Widening never starts behind the comment. -/
theorem removalRange_start_le (source : Bytes) (comment : ByteRange) :
    (removalRange source comment).start ≤ comment.start := by
  have hbound : Bytes.lastLineStart (source.take comment.start) ≤ comment.start := by
    unfold Bytes.lastLineStart
    have htake := List.length_take_le comment.start source
    omega
  unfold removalRange
  dsimp only
  split
  · exact Nat.le_refl _
  · split
    · exact Nat.sub_le _ _
    · exact hbound

/-! ## Which annotations go -/

/-- Holds if an annotation refers to one of the issues. Without issues every annotation counts. -/
def Annotation.isWanted (issues : Option (List Int)) (note : Annotation) : Bool :=
  match issues with
  | none => true
  | some issues => note.issue.any fun issue => issues.contains (issue : Int)

/-- The comment that an annotation was taken from. -/
def Annotation.comment (note : Annotation) : ByteRange :=
  ⟨note.spanStart, note.spanStop⟩

/-- The different ranges to remove for annotations, the last one first. -/
def removalRanges (source : Bytes) (annotations : List Annotation) : List ByteRange :=
  ((annotations.map fun note => removalRange source note.comment).eraseDups).mergeSort
    ByteRange.notBefore

/-- Deletes ranges from the last one to the first one. A range that reaches into the one deleted
before it is cut short; `limit` is the start of that one. -/
def deleteRanges (source : Bytes) (limit : Nat) : List ByteRange → Bytes
  | [] => source
  | range :: rest =>
    let short : ByteRange := { range with stop := min range.stop limit }
    deleteRanges (short.deleteFrom source) range.start rest

/-- Removes the comments of the annotations that refer to one of the issues. -/
def purge (source : Bytes) (annotations : List Annotation) (issues : Option (List Int)) : Bytes :=
  deleteRanges source (source.length + 1)
    (removalRanges source (annotations.filter (·.isWanted issues)))

end CommentMarkers
