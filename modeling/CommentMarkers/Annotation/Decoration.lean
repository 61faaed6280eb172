import CommentMarkers.Span

/-!
# Decoration of comments

What makes a text a comment is not part of what the comment says. A line comment loses its
opening delimiter and one space behind it; a block comment loses its delimiters and, on every
line, a leading star with one space behind it. Carriage returns at the ends of lines go as well.

Main results:

- Theorem `length_commentLines_block`: a block comment keeps its number of lines.
-/

namespace CommentMarkers

/-- A line of a comment without its decoration, and the offset of its first byte. -/
structure CommentLine where
  offset : Nat
  text : Bytes
  deriving DecidableEq, Repr

namespace CommentLine

/-- Drops `count` bytes in front. -/
def dropFront (line : CommentLine) (count : Nat) : CommentLine :=
  ⟨line.offset + count, line.text.drop count⟩

/-- Drops one space in front, if there is one. -/
def dropSpace (line : CommentLine) : CommentLine :=
  if line.text.head? = some Bytes.space then line.dropFront 1 else line

/-- The number of blanks and tabs in front. -/
def indentation (line : CommentLine) : Nat :=
  (line.text.takeWhile fun byte => byte == Bytes.space || byte == Bytes.tab).length

/-- Drops a star, what indents it, and one space behind it. -/
def dropStar (line : CommentLine) : CommentLine :=
  if line.text[line.indentation]? = some Bytes.star then
    (line.dropFront (line.indentation + 1)).dropSpace
  else line

/-- Drops the carriage returns at the end. -/
def dropReturns (line : CommentLine) : CommentLine :=
  { line with text := Bytes.dropEndWhile (· == Bytes.carriageReturn) line.text }

end CommentLine

/-- Gives the lines of a text their offsets, from the offset of the first of them on. -/
def placeLines (offset : Nat) : List Bytes → List CommentLine
  | [] => []
  | text :: rest => ⟨offset, text⟩ :: placeLines (offset + text.length + 1) rest

/-- Placing lines keeps their number. -/
theorem length_placeLines (offset : Nat) (texts : List Bytes) :
    (placeLines offset texts).length = texts.length := by
  induction texts generalizing offset with
  | nil => rfl
  | cons text rest ih => simp [placeLines, ih]

namespace Span

/-- The line of a line comment. -/
def lineCommentLine (span : Span) (source : Bytes) : CommentLine :=
  let line : CommentLine := ⟨span.bodyStart, Bytes.slice source span.bodyStart span.stop⟩
  line.dropSpace.dropReturns

/-- The lines of a block comment. -/
def blockCommentLines (span : Span) (source : Bytes) : List CommentLine :=
  (placeLines span.bodyStart (Bytes.lines (span.body source))).map (·.dropStar.dropReturns)

/-- The lines of a comment without their decoration. -/
def commentLines (span : Span) (source : Bytes) : List CommentLine :=
  if span.kind = .lineComment then [span.lineCommentLine source]
  else span.blockCommentLines source

/-- A block comment keeps its number of lines. -/
theorem length_commentLines_block (span : Span) (source : Bytes)
    (hkind : span.kind = .blockComment) :
    (span.commentLines source).length = (Bytes.lines (span.body source)).length := by
  simp [commentLines, blockCommentLines, hkind, length_placeLines]

end Span

end CommentMarkers
