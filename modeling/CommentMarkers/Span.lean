import CommentMarkers.Bytes
import CommentMarkers.Text.Encoding

/-!
# Spans

A span is a classified region of a source. Its start is known three ways: as a byte offset, and
as a line and a byte column that both count from one. `Position` carries the three together and
moves over text one byte at a time.

Main results:

- Theorem `Position.offset_advance`: moving over a text adds its length to the offset.
- Theorem `Position.advance_append`: moving over two texts is moving over their concatenation.
-/

namespace CommentMarkers

/-! ## Kinds -/

/-- What a region of a source is. -/
inductive SpanKind where
  | code
  | lineComment
  | blockComment
  | stringLiteral
  | charLiteral
  deriving DecidableEq, Repr

namespace SpanKind

/-- Every kind of span. -/
def all : List SpanKind :=
  [code, lineComment, blockComment, stringLiteral, charLiteral]

/-- The name by which a kind is written down. -/
def name : SpanKind → String
  | code => "code"
  | lineComment => "line_comment"
  | blockComment => "block_comment"
  | stringLiteral => "string_literal"
  | charLiteral => "char_literal"

/-- The kind that a name stands for. -/
def ofName? (name : String) : Option SpanKind :=
  all.find? fun kind => kind.name == name

/-- Every kind is found by its name. -/
theorem ofName?_name (kind : SpanKind) : ofName? kind.name = some kind := by
  cases kind <;> decide

/-- Annotations live in comments only. -/
def isComment : SpanKind → Bool
  | lineComment | blockComment => true
  | code | stringLiteral | charLiteral => false

end SpanKind

/-! ## Positions -/

/-- A place in a source: its byte offset, its line and its byte column. -/
structure Position where
  offset : Nat
  line : Nat
  column : Nat
  deriving DecidableEq, Repr

namespace Position

/-- The first byte of a source is in line one, column one. -/
def first : Position := ⟨0, 1, 1⟩

/-- The place behind one byte. -/
def next (place : Position) (byte : UInt8) : Position :=
  if byte = Bytes.newline then ⟨place.offset + 1, place.line + 1, 1⟩
  else ⟨place.offset + 1, place.line, place.column + 1⟩

/-- The place behind a text. -/
def advance (place : Position) (text : Bytes) : Position :=
  text.foldl next place

/-- Moving over a text moves over its first byte and then over the rest. -/
theorem advance_cons (place : Position) (byte : UInt8) (rest : Bytes) :
    place.advance (byte :: rest) = (place.next byte).advance rest :=
  rfl

/-- Moving over two texts is moving over their concatenation. -/
theorem advance_append (place : Position) (first second : Bytes) :
    place.advance (first ++ second) = (place.advance first).advance second := by
  simp [advance, List.foldl_append]

/-- Moving over a text adds its length to the offset. -/
theorem offset_advance (place : Position) (text : Bytes) :
    (place.advance text).offset = place.offset + text.length := by
  induction text generalizing place with
  | nil => rfl
  | cons byte rest ih =>
    have hmoved : (place.next byte).offset = place.offset + 1 := by
      unfold next
      split <;> rfl
    rw [advance_cons, ih, hmoved, List.length_cons]
    omega

end Position

/-! ## Spans -/

/-- A region of a source from the offset `start` up to `stop`, with the delimiters that open and
close it. Code has neither, and a line comment has no closing delimiter. -/
structure Span where
  kind : SpanKind
  start : Nat
  stop : Nat
  line : Nat
  column : Nat
  opener : String
  closer : String
  deriving DecidableEq, Repr

namespace Span

/-- The number of bytes in the region. -/
def length (span : Span) : Int :=
  (span.stop : Int) - span.start

/-- The bytes of the region. -/
def text (span : Span) (source : Bytes) : Bytes :=
  Bytes.slice source span.start span.stop

/-- The offset just behind the opening delimiter. -/
def bodyStart (span : Span) : Nat :=
  span.start + (Text.encode span.opener).length

/-- The bytes between the delimiters. -/
def body (span : Span) (source : Bytes) : Bytes :=
  Bytes.slice source span.bodyStart
    (Bytes.resolveIndex source ((span.stop : Int) - (Text.encode span.closer).length))

end Span

end CommentMarkers
