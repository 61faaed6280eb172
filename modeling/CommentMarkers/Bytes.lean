/-!
# Byte strings

A source is a list of bytes, and every offset of this library counts bytes.
This file holds the few operations on byte strings that scanning, extraction and
editing share: ASCII blanks, trimming, lines, and slices that clamp to the ends.

Main results:

- Theorem `lines_ne_nil`: every byte string has at least one line.
- Theorem `length_slice_le`: a slice is never longer than its range.
-/

namespace CommentMarkers

/-- A byte string, such as the contents of a source file. -/
abbrev Bytes := List UInt8

namespace Bytes

/-! ## Single bytes -/

/-- The byte that ends a line. -/
def newline : UInt8 := 10

/-- The carriage return, which stands before the newline of some sources. -/
def carriageReturn : UInt8 := 13

/-- The space. -/
def space : UInt8 := 32

/-- The horizontal tab. -/
def tab : UInt8 := 9

/-- The star that decorates the lines of a block comment. -/
def star : UInt8 := 42

/-- The ASCII blanks: space, tab, newline, vertical tab, form feed and carriage return. -/
def isBlank (byte : UInt8) : Bool :=
  byte == space || (tab ≤ byte && byte ≤ carriageReturn)

/-- The ASCII decimal digits. -/
def isDigit (byte : UInt8) : Bool :=
  48 ≤ byte && byte ≤ 57

/-- The value of a string of decimal digits, most significant digit first. -/
def digitsValue (digits : Bytes) : Nat :=
  digits.foldl (fun value digit => value * 10 + (digit.toNat - 48)) 0

/-! ## Slices -/

/-- The bytes at the offsets from `start` up to `stop`, both clamped to the source. -/
def slice (source : Bytes) (start stop : Nat) : Bytes :=
  (source.drop start).take (stop - start)

/-- The offset that `index` names: a negative index counts back from the end of the source. -/
def resolveIndex (source : Bytes) (index : Int) : Nat :=
  if index < 0 then (source.length + index).toNat else index.toNat

/-- A slice is never longer than its range. -/
theorem length_slice_le (source : Bytes) (start stop : Nat) :
    (slice source start stop).length ≤ stop - start := by
  simp only [slice, List.length_take]
  omega

/-! ## Trimming -/

/-- Drops the bytes at the end that satisfy `p`. -/
def dropEndWhile (p : UInt8 → Bool) (text : Bytes) : Bytes :=
  (text.reverse.dropWhile p).reverse

/-- Drops the blanks at both ends. -/
def trim (text : Bytes) : Bytes :=
  dropEndWhile isBlank (text.dropWhile isBlank)

/-- Holds of texts without any byte but blanks. -/
def isBlankText (text : Bytes) : Bool :=
  text.all isBlank

/-- Dropping bytes from the end never makes a text longer. -/
theorem length_dropEndWhile_le (p : UInt8 → Bool) (text : Bytes) :
    (dropEndWhile p text).length ≤ text.length := by
  have hdrop := (List.dropWhile_sublist (l := text.reverse) p).length_le
  simpa [dropEndWhile] using hdrop

/-! ## Lines -/

/-- The pieces between the newlines; a text without a newline is one line. -/
def lines : Bytes → List Bytes
  | [] => [[]]
  | byte :: rest =>
    if byte = newline then [] :: lines rest
    else
      match lines rest with
      | [] => [[byte]]
      | line :: more => (byte :: line) :: more

/-- Every byte string has at least one line. -/
theorem lines_ne_nil (text : Bytes) : lines text ≠ [] := by
  cases text with
  | nil => simp [lines]
  | cons byte rest =>
    simp only [lines]
    split
    · simp
    · split <;> simp

/-- The number of newlines in a text. -/
def newlineCount (text : Bytes) : Nat :=
  text.count newline

/-- The offset just behind the last newline, or the start of a text that has none. -/
def lastLineStart (text : Bytes) : Nat :=
  text.length - (text.reverse.takeWhile (· != newline)).length

/-- The length of the first line, without its newline. -/
def firstLineLength (text : Bytes) : Nat :=
  (text.takeWhile (· != newline)).length

/-- The first line is no longer than the text. -/
theorem firstLineLength_le (text : Bytes) : firstLineLength text ≤ text.length :=
  (List.takeWhile_sublist (l := text) (· != newline)).length_le

/-- Puts the pieces together with a newline between each two. -/
def joinLines : List Bytes → Bytes
  | [] => []
  | [line] => line
  | line :: more => line ++ newline :: joinLines more

end Bytes

end CommentMarkers
