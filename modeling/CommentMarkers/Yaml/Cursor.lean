/-!
# Cursors

A cursor is a place in a document: the characters that are left, how many were passed, and the
line and column, both counted from zero. The end of the document counts as a gap between words.

Main results:

- Theorem `rest_advanceBy`: moving on drops characters.
-/

namespace CommentMarkers.Yaml

/-! ## Characters -/

/-- The line separator and its like that are kept as they are when lines are folded. -/
def isSeparator (char : Char) : Bool :=
  char == Char.ofNat 0x2028 || char == Char.ofNat 0x2029

/-- The characters that end a line. -/
def isBreak (char : Char) : Bool :=
  char == '\n' || char == Char.ofNat 0x85 || isSeparator char

/-- The tab. -/
def tab : Char := Char.ofNat 9

/-- The mark that may begin a document and takes no column. -/
def byteOrderMark : Char := Char.ofNat 0xFEFF

/-- Holds of the end of a line and of the end of the document. -/
def endsLine (char : Option Char) : Bool :=
  char.all isBreak

/-- Holds of what may stand between words: a space, a tab, and the ends of lines and of the
document. -/
def isGap (char : Option Char) : Bool :=
  char.all fun char => char == ' ' || char == tab || isBreak char

/-! ## Cursors -/

/-- A place in a document. -/
structure Cursor where
  rest : List Char
  index : Nat
  line : Nat
  column : Nat
  deriving Repr

namespace Cursor

/-- The beginning of a document. -/
def start (text : List Char) : Cursor := ⟨text, 0, 0, 0⟩

/-- The next character. -/
def peek (cursor : Cursor) : Option Char :=
  cursor.rest.head?

/-- The character `count` places on. -/
def peekAt (cursor : Cursor) (count : Nat) : Option Char :=
  cursor.rest[count]?

/-- The place behind the next character. -/
def advance (cursor : Cursor) : Cursor :=
  match cursor.rest with
  | [] => cursor
  | char :: rest =>
    if isBreak char then ⟨rest, cursor.index + 1, cursor.line + 1, 0⟩
    else if char = byteOrderMark then { cursor with rest, index := cursor.index + 1 }
    else { cursor with rest, index := cursor.index + 1, column := cursor.column + 1 }

/-- The place behind the next `count` characters. -/
def advanceBy (cursor : Cursor) : Nat → Cursor
  | 0 => cursor
  | count + 1 => cursor.advance.advanceBy count

private theorem rest_advance (cursor : Cursor) : cursor.advance.rest = cursor.rest.drop 1 := by
  unfold advance
  split
  · next hnothing => simp [hnothing]
  · next hfound =>
    rw [hfound]
    split
    · rfl
    · split <;> rfl

/-- Moving on drops characters. -/
theorem rest_advanceBy (cursor : Cursor) (count : Nat) :
    (cursor.advanceBy count).rest = cursor.rest.drop count := by
  induction count generalizing cursor with
  | zero => rfl
  | succ count ih =>
    simp only [advanceBy, ih, rest_advance, List.drop_drop]
    congr 1
    omega

/-- The characters that satisfy `p`, and the place behind them. -/
def takeWhile (cursor : Cursor) (p : Char → Bool) : List Char × Cursor :=
  let taken := cursor.rest.takeWhile p
  (taken, cursor.advanceBy taken.length)

/-- The place behind the characters that satisfy `p`. -/
def skipWhile (cursor : Cursor) (p : Char → Bool) : Cursor :=
  (cursor.takeWhile p).2

/-- The place at the end of the line. -/
def skipLine (cursor : Cursor) : Cursor :=
  cursor.skipWhile fun char => !isBreak char

/-- The end of a line as it counts in a text, and the place behind it. -/
def lineBreak? (cursor : Cursor) : Option (Char × Cursor) :=
  match cursor.peek with
  | some char =>
    if isBreak char then some (if isSeparator char then char else '\n', cursor.advance) else none
  | none => none

/-- Holds where three characters `mark` stand as a word of their own. -/
def isMark (cursor : Cursor) (mark : Char) : Bool :=
  cursor.rest.take 3 == [mark, mark, mark] && isGap (cursor.peekAt 3)

/-- Holds where the start or the end of a document is marked, if a line begins here. -/
def isDocumentMark (cursor : Cursor) : Bool :=
  cursor.isMark '-' || cursor.isMark '.'

end Cursor

end CommentMarkers.Yaml
