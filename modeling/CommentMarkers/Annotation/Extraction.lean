import CommentMarkers.Annotation.Occurrence
import CommentMarkers.Scan

/-!
# Annotations

An annotation is a marker in a comment with the text that follows it. Extraction looks at the
comment spans of a source one after the other and answers the annotations in the order of the
source.

Main results:

- Theorem `extract_of_no_comment`: without comments there are no annotations.
-/

namespace CommentMarkers

/-! ## Annotations -/

/-- A marker found in a comment, with the text that follows it. -/
structure Annotation where
  marker : Marker
  /-- The text behind the marker without decoration, its lines joined by newlines. -/
  payload : String
  /-- The place of the first byte of the marker. -/
  place : Position
  kind : SpanKind
  /-- Where the comment starts that holds the marker. -/
  spanStart : Nat
  /-- Where the last comment stops that the text was taken from. -/
  spanStop : Nat
  /-- The issue that the annotation was reported as. -/
  issue : Option Nat
  deriving DecidableEq, Repr

namespace Annotation

/-- Holds if the annotation refers to an issue. -/
def isReported (note : Annotation) : Bool :=
  note.issue.isSome

/-- The offset just behind the marker, in front of an issue reference. -/
def markerStop (note : Annotation) : Nat :=
  note.place.offset + note.marker.bytes.length

/-- The lines of the payload. -/
def payloadLines (note : Annotation) : List (List Char) :=
  note.payload.toList.splitOn '\n'

/-- The first line of the payload. -/
def title (note : Annotation) : String :=
  String.ofList (note.payloadLines.headD [])

/-- The other lines of the payload that are not empty, joined by spaces. -/
def description (note : Annotation) : String :=
  " ".intercalate ((note.payloadLines.drop 1).filterMap fun line =>
    if line.isEmpty then none else some (String.ofList line))

end Annotation

/-! ## Payloads -/

/-- The part of the line `number` that belongs to the payload between a hit and the next one. -/
def payloadPart (hit : Hit) (next : Option Hit) (line : CommentLine) (number : Nat) : Bytes :=
  let start := if number = hit.line then hit.stop else 0
  let stop :=
    match next with
    | some next => if number = next.line then next.start else line.text.length
    | none => line.text.length
  Bytes.trim (Bytes.slice line.text start stop)

/-- The bytes between a hit and the next one, or the end of the comment, line by line. -/
def payloadBytes (lines : List CommentLine) (hit : Hit) (next : Option Hit) : Bytes :=
  let last :=
    match next with
    | some next => next.line
    | none => lines.length - 1
  let reached := (lines.drop hit.line).take (last + 1 - hit.line)
  Bytes.trim (Bytes.joinLines
    ((reached.zipIdx hit.line).map fun (line, number) => payloadPart hit next line number))

/-! ## Extraction -/

/-- What to look for in comments. -/
structure Query where
  marker : Marker
  policy : MarkerPolicy
  /-- Whether line comments without a marker continue the text of the line comment above them. -/
  join : Bool
  deriving DecidableEq, Repr

/-- The place of an offset inside a span. -/
def Span.placeOf (span : Span) (source : Bytes) (offset : Nat) : Position :=
  let place : Position := ⟨span.start, span.line, span.column⟩
  { place.advance (Bytes.slice source span.start offset) with offset := offset }

/-- Holds if two line comments that have only this span between them stand on neighbouring
lines. -/
def Span.isLineBreak (span : Span) (source : Bytes) : Bool :=
  span.kind = .code && Bytes.newlineCount (span.text source) = 1
    && Bytes.isBlankText (span.text source)

/-- The line comments without a marker that directly follow a line comment, one on each line. -/
def continuation (marker : Bytes) (source : Bytes) : List Span → Except IssueTooLong (List Span)
  | gap :: comment :: rest =>
    if gap.isLineBreak source && comment.kind = .lineComment then do
      let found ← hits marker (comment.commentLines source)
      if found.isEmpty then
        let more ← continuation marker source rest
        return comment :: more
      else return []
    else return []
  | _ => return []

/-- The hits that count under a policy. -/
def MarkerPolicy.select : MarkerPolicy → List Hit → List Hit
  | first, found => found.take 1
  | all, found => found

/-- The annotations for the hits in a comment. The payload of each runs to the next hit. -/
def annotateHits (query : Query) (source : Bytes) (span : Span) (stop : Nat)
    (lines : List CommentLine) : List Hit → List Annotation
  | [] => []
  | hit :: rest =>
    let lineOffset := ((lines[hit.line]?).map (·.offset)).getD 0
    { marker := query.marker
      payload := Text.decode (payloadBytes lines hit rest.head?)
      place := span.placeOf source (lineOffset + hit.start)
      kind := span.kind
      spanStart := span.start
      spanStop := stop
      issue := hit.issue } :: annotateHits query source span stop lines rest

/-- The line comments that continue the text of a comment. -/
def Query.continuing (query : Query) (source : Bytes) (span : Span) (following : List Span) :
    Except IssueTooLong (List Span) :=
  if query.join && span.kind = .lineComment then
    continuation query.marker.bytes source following
  else return []

/-- The annotations of one comment; `following` are the spans behind it. -/
def annotateComment (query : Query) (source : Bytes) (span : Span) (following : List Span) :
    Except IssueTooLong (List Annotation) := do
  let own := span.commentLines source
  match ← hits query.marker.bytes own with
  | [] => return []
  | found =>
    let continuing ← query.continuing source span following
    let lines := own ++ continuing.flatMap (·.commentLines source)
    let stop := ((continuing.getLast?).map (·.stop)).getD span.stop
    return annotateHits query source span stop lines (query.policy.select found)

/-- The annotations in the comments among the spans of a source. -/
def extract (query : Query) (source : Bytes) : List Span → Except IssueTooLong (List Annotation)
  | [] => return []
  | span :: rest =>
    if span.kind.isComment then do
      let here ← annotateComment query source span rest
      let more ← extract query source rest
      return here ++ more
    else extract query source rest

/-- Code and literals have no annotations, whatever is written in them. -/
theorem extract_of_no_comment (query : Query) (source : Bytes) {spans : List Span}
    (hcode : ∀ span ∈ spans, span.kind.isComment = false) :
    extract query source spans = .ok [] := by
  induction spans with
  | nil => rfl
  | cons span rest ih =>
    rw [List.forall_mem_cons] at hcode
    rw [extract, hcode.1]
    exact ih hcode.2

/-! ## Annotations of a source -/

/-- Why a source has no annotations to show: a construct in it is not closed, or an issue number
is too long. -/
inductive SourceFault where
  | unclosed (failure : Unclosed)
  | issueTooLong (failure : IssueTooLong)
  deriving DecidableEq, Repr

/-- The message for a fault of a source. -/
def SourceFault.message : SourceFault → String
  | unclosed failure => failure.message
  | issueTooLong failure => failure.message

/-- Scans a source and extracts its annotations. A source that is not closed has none. -/
def Grammar.annotations (grammar : Grammar) (query : Query) (source : Bytes) :
    Except SourceFault (List Annotation) := do
  let spans ← (grammar.scan source).complete.mapError .unclosed
  (extract query source spans).mapError .issueTooLong

end CommentMarkers
