import CommentMarkers.Scan.Lexeme
import CommentMarkers.Scan.Unclosed

/-!
# Scanning

Scanning classifies every byte of a source. It cuts the source into lexemes and then gives each of
them its place, which yields spans that follow each other without gaps.

Main results:

- Theorem `length_placeSpans`: each lexeme becomes one span.
-/

namespace CommentMarkers

/-- The span of a lexeme that begins at a place. -/
def Lexeme.spanAt (lexeme : Lexeme) (place : Position) : Span where
  kind := lexeme.kind
  start := place.offset
  stop := place.offset + lexeme.text.length
  line := place.line
  column := place.column
  opener := lexeme.opener
  closer := lexeme.closer

/-- The spans of lexemes that follow each other from a place on. -/
def placeSpans (place : Position) : List Lexeme → List Span
  | [] => []
  | lexeme :: rest => lexeme.spanAt place :: placeSpans (place.advance lexeme.text) rest

/-- Each lexeme becomes one span. -/
theorem length_placeSpans (place : Position) (lexemes : List Lexeme) :
    (placeSpans place lexemes).length = lexemes.length := by
  induction lexemes generalizing place with
  | nil => rfl
  | cons lexeme rest ih => simp [placeSpans, ih]

/-- The place behind lexemes that follow each other from a place on. -/
def placeBehind (place : Position) (lexemes : List Lexeme) : Position :=
  lexemes.foldl (fun place lexeme => place.advance lexeme.text) place

/-- The outcome of scanning a source: its spans, up to the construct that is not closed. -/
structure Scan where
  spans : List Span
  failure : Option Unclosed
  deriving DecidableEq, Repr

/-- The failure for an opener that is not closed. -/
def Opener.unclosedAt (opener : Opener) (place : Position) : Unclosed where
  construct := .ofKind opener.kind
  delimiter := opener.text
  place := place
  path := none

/-- Gives the lexemes of a source their places. -/
def Lexing.toScan (lexing : Lexing) : Scan where
  spans := placeSpans .first lexing.lexemes
  failure := lexing.unclosed.map fun opener =>
    opener.unclosedAt (placeBehind .first lexing.lexemes)

/-- Classifies every byte of a source. -/
def Grammar.scan (grammar : Grammar) (source : Bytes) : Scan :=
  (lex grammar.openers source).toScan

/-- The spans of a scan that reached the end of the source. -/
def Scan.complete (scan : Scan) : Except Unclosed (List Span) :=
  match scan.failure with
  | some failure => .error failure
  | none => .ok scan.spans

end CommentMarkers
