import CommentMarkers.Proofs.AnnotationHits
import CommentMarkers.Proofs.SpanBoundaries
import CommentMarkers.Proofs.Utf8

/-!
# Cutting texts

A source that is a text is cut between characters only, although everything works on bytes.  All
that a source is cut at is whole characters itself: delimiters, newlines, blanks, stars, markers and
references.  What lies between such parts is then made of whole characters as well.

Main results:

- Theorem `Lexes.isValid_text`: the lexemes of a text are texts.
- Theorem `Span.isValid_line`: so are the lines of its comments without their decoration.
- Theorem `Annotation.MadeFrom.encode_payload`: payloads are decoded without replacing anything.
- Theorem `text_integrity`: all cuts in a text are between characters.
-/

namespace CommentMarkers

open Text (IsValid IsCharBoundary)

/-! ## Lexemes -/

variable {grammar : Grammar} {source : Bytes}

/-- The token of an opener is a text. -/
theorem isValid_token {opener : Opener} (hopener : opener ∈ grammar.openers) :
    IsValid opener.token := by
  rw [(Grammar.delimiters_of_mem_openers hopener).1]
  exact Text.isValid_encode _

/-- A newline is a character. -/
theorem isValid_newline : IsValid [Bytes.newline] :=
  Text.isValid_ascii (List.forall_mem_singleton.2 (by decide))

/-- A construct ends between two characters of a text. -/
theorem Closing.isValid_inner {closing : Closing}
    (hends : closing = .endOfLine ∨ closing.terminator ≠ [])
    (hterminator : IsValid closing.terminator)
    {inner rest : Bytes} (hvalid : IsValid (inner ++ rest))
    (hclosed : closing.length? (inner ++ rest) = some inner.length) :
    IsValid inner ∧ IsValid rest := by
  rcases hends with rfl | hne
  · have hstable : Closing.endOfLine.Stable := trivial
    refine hvalid.cut fun byte hbyte => ?_
    have hnewline : byte = Bytes.newline := Closing.endsBefore_of_length hstable hclosed byte hbyte
    rw [hnewline]
    rfl
  · have hsuffix := Closing.ends_with_terminator hclosed
    rw [List.take_left] at hsuffix
    obtain ⟨body, rfl⟩ := hsuffix
    rw [List.append_assoc] at hvalid
    obtain ⟨hbody, hrest⟩ := hvalid.around hterminator hne
    exact ⟨hbody.append hterminator, hrest⟩

/-- The lexemes of a text are texts. -/
theorem Lexes.isValid_text (haccepted : grammar.Accepted) {bytes : Bytes} {lexing : Lexing}
    (hlexes : Lexes grammar.openers bytes lexing) (hvalid : IsValid bytes) :
    ∀ lexeme ∈ lexing.lexemes, IsValid lexeme.text := by
  induction hlexes with
  | code bytes hnext =>
      intro lexeme hlexeme
      rw [text_of_mem_code hlexeme]
      exact hvalid
  | unclosed code tail opener hnext hopen =>
      have hopener := mem_of_nextConstruct hnext
      intro lexeme hlexeme
      rw [text_of_mem_code hlexeme]
      exact (hvalid.around (isValid_token hopener) (haccepted.token_ne_nil hopener)).1
  | closed code inner rest opener lexing hnext hclosed hrest ih =>
      have hopener := mem_of_nextConstruct hnext
      have htoken := isValid_token hopener
      have hterminator : IsValid opener.closing.terminator := by
        rw [(Grammar.delimiters_of_mem_openers hopener).2]
        exact Text.isValid_encode _
      obtain ⟨hcode, hbehind⟩ := hvalid.around htoken (haccepted.token_ne_nil hopener)
      obtain ⟨hinner, hmore⟩ := Closing.isValid_inner
        (haccepted.endOfLine_or_terminator_ne_nil hopener) hterminator hbehind hclosed
      intro lexeme hlexeme
      simp only [Lexing.prepend, List.mem_append, List.mem_singleton] at hlexeme
      rcases hlexeme with (hlexeme | rfl) | hlexeme
      · rw [text_of_mem_code hlexeme]
        exact hcode
      · exact htoken.append hinner
      · exact ih hmore lexeme hlexeme

/-- Texts behind each other are a text. -/
theorem isValid_textOf {lexemes : List Lexeme} (hvalid : ∀ lexeme ∈ lexemes, IsValid lexeme.text) :
    IsValid (textOf lexemes) := by
  induction lexemes with
  | nil => exact Text.isValid_nil
  | cons lexeme rest ih =>
      obtain ⟨hfirst, hrest⟩ := List.forall_mem_cons.1 hvalid
      exact hfirst.append (ih hrest)

/-! ## Spans -/

/-- Lexemes of a text end between two characters. -/
theorem isCharBoundary_of_split (haccepted : grammar.Accepted) (hvalid : IsValid source)
    {front back : List Lexeme} (hsplit : (lex grammar.openers source).lexemes = front ++ back) :
    IsCharBoundary source (textOf front).length := by
  have htexts := (lexes_lex grammar.openers source).isValid_text haccepted hvalid
  obtain ⟨tail, hsource⟩ := exists_eq_textOf_append grammar source
  rw [hsplit] at htexts hsource
  rw [textOf_append, List.append_assoc] at hsource
  have hfront := isValid_textOf fun lexeme hlexeme => htexts lexeme (List.mem_append_left _ hlexeme)
  rw [hsource] at hvalid
  exact ⟨textOf front, _, hsource, rfl, hfront, hvalid.of_append_right hfront⟩

/-- The spans of a text start and stop between characters. -/
theorem Grammar.IsBoundary.isCharBoundary (haccepted : grammar.Accepted) (hvalid : IsValid source)
    {offset : Nat} (hoffset : grammar.IsBoundary source offset) : IsCharBoundary source offset := by
  obtain ⟨front, back, hsplit, rfl⟩ := hoffset.exists_split
  exact isCharBoundary_of_split haccepted hvalid hsplit

/-- A construct of a text that is left open starts between characters. -/
theorem isCharBoundary_of_unclosed (haccepted : grammar.Accepted) (hvalid : IsValid source)
    {failure : Unclosed} (hfailure : (grammar.scan source).failure = some failure) :
    IsCharBoundary source failure.place.offset := by
  obtain ⟨opener, -, tail, -, -, hoffset, -⟩ := unclosed_of_scan hfailure
  rw [hoffset]
  exact isCharBoundary_of_split haccepted hvalid (List.append_nil _).symm

section Spans

variable {span : Span} (haccepted : grammar.Accepted) (hvalid : IsValid source)
  (hspan : span ∈ (grammar.scan source).spans)

include haccepted hvalid hspan

/-- The spans of a text are texts. -/
theorem isValid_span : IsValid (span.text source) := by
  have hstart : grammar.IsBoundary source span.start := ⟨span, hspan, Or.inl rfl⟩
  have hstop : grammar.IsBoundary source span.stop := ⟨span, hspan, Or.inr rfl⟩
  exact (hstart.isCharBoundary haccepted hvalid).slice (hstop.isCharBoundary haccepted hvalid)

/-- What is behind the opening delimiter of a construct is a text, with the closing delimiter and
without it. -/
theorem isValid_body (hkind : span.kind ≠ .code) :
    IsValid (span.body source ++ Text.encode span.closer) ∧ IsValid (span.body source) := by
  have htext := isValid_span haccepted hvalid hspan
  rw [(isDelimited_of_mem_scan hspan hkind).text_eq] at htext
  have hbehind := htext.of_append_right (Text.isValid_encode _)
  exact ⟨hbehind, hbehind.of_append_left (Text.isValid_encode _)⟩

end Spans

/-! ## Lines -/

/-- A line of a text is a text. -/
theorem isValid_of_mem_placeLines {offset : Nat} {text : Bytes} (hvalid : IsValid text)
    {line : CommentLine} (hline : line ∈ placeLines offset (Bytes.lines text)) :
    IsValid line.text := by
  obtain ⟨front, back, rfl, -, -, hbegins, hends⟩ := mem_placeLines_iff.1 hline
  have hrest : IsValid (line.text ++ back) := by
    rcases hbegins with rfl | hlast
    · exact hvalid
    · obtain ⟨before, rfl⟩ := List.getLast?_eq_some_iff.1 hlast
      rw [List.append_assoc] at hvalid
      exact (hvalid.around isValid_newline (by simp)).2
  rcases hends with rfl | hhead
  · rwa [List.append_nil] at hrest
  · refine (hrest.cut fun byte hbyte => ?_).1
    rw [hhead] at hbyte
    cases hbyte
    rfl

/-- What decorates a line is made of spaces, tabs and stars. -/
theorem Decoration.isValid {kind : SpanKind} {decoration rest : Bytes}
    (hdecoration : Decoration kind decoration rest) : IsValid decoration := by
  have hgapValid : ∀ {gap rest : Bytes}, Gap gap rest → IsValid gap := by
    intro gap rest hgap
    cases hgap with
    | space => exact Text.isValid_ascii (List.forall_mem_singleton.2 (by decide))
    | none => exact Text.isValid_nil
  have hstar : IsValid [Bytes.star] := Text.isValid_ascii (List.forall_mem_singleton.2 (by decide))
  cases hdecoration with
  | lineComment hgap => exact hgapValid hgap
  | starred hindent hgap =>
      refine (Text.isValid_ascii fun byte hbyte => ?_).append (hstar.append (hgapValid hgap))
      have hblank := hindent byte hbyte
      simp only [Bool.or_eq_true, beq_iff_eq] at hblank
      rcases hblank with rfl | rfl <;> decide
  | plain => exact Text.isValid_nil

/-- A line without its decoration is a text if the whole line is one. -/
theorem CommentLine.isValid_strip {kind : SpanKind} (hkind : kind.isComment = true)
    {line : CommentLine} (hvalid : IsValid line.text) : IsValid (line.strip kind).text := by
  have hline : (CommentLine.mk line.offset line.text).strip kind = line.strip kind := rfl
  obtain ⟨decoration, returns, hstrips, -⟩ := (strip_eq_iff hkind).1 hline
  rw [hstrips.pieces] at hvalid
  have hreturns : IsValid returns := Text.isValid_ascii fun byte hbyte => by
    rw [hstrips.ends.all byte hbyte]
    decide
  exact (hvalid.of_append_right hstrips.decorated.isValid).of_append_left hreturns

/-- The lines of a comment of a text are texts. -/
theorem Span.isValid_line (haccepted : grammar.Accepted) (hvalid : IsValid source) {span : Span}
    (hspan : span ∈ (grammar.scan source).spans) (hkind : span.kind.isComment = true)
    {line : CommentLine} (hline : line ∈ span.commentLines source) : IsValid line.text := by
  have hcode := SpanKind.ne_code_of_isComment hkind
  obtain ⟨hbehind, hbody⟩ := isValid_body haccepted hvalid hspan hcode
  rw [Span.commentLines_eq] at hline
  obtain ⟨raw, hraw, rfl⟩ := List.mem_map.1 hline
  refine CommentLine.isValid_strip hkind ?_
  rw [Span.rawLines] at hraw
  split at hraw
  · have hbehindText : Bytes.slice source span.bodyStart span.stop =
        span.body source ++ Text.encode span.closer := by
      rw [Span.bodyStart, ← drop_slice]
      change (span.text source).drop _ = _
      rw [(isDelimited_of_mem_scan hspan hcode).text_eq, List.drop_left]
    rw [List.mem_singleton.1 hraw, hbehindText]
    exact hbehind
  · exact isValid_of_mem_placeLines hbody hraw

/-! ## Hits -/

/-- A reference is made of digits, a number sign and parentheses. -/
theorem IsReference.isValid {reference : Bytes} {issue : Option Nat}
    (hreference : IsReference reference issue) : IsValid reference := by
  have hopening : IsValid IssueReference.opening :=
    Text.isValid_ascii (List.forall_mem_cons.2 ⟨by decide, List.forall_mem_singleton.2 (by decide)⟩)
  have hclosing : IsValid [IssueReference.closing] :=
    Text.isValid_ascii (List.forall_mem_singleton.2 (by decide))
  cases hreference with
  | absent => exact Text.isValid_nil
  | present digits hne hdigits =>
      refine hopening.append ((Text.isValid_ascii fun byte hbyte => ?_).append hclosing)
      have hdigit := hdigits byte hbyte
      simp only [Bytes.isDigit, Bool.and_eq_true, decide_eq_true_eq, UInt8.le_iff_toNat_le]
        at hdigit
      exact Nat.le_trans hdigit.2 (by decide)

/-- A hit in a text starts and stops between characters. -/
theorem IsHit.isCharBoundary {marker : Marker} {text : Bytes} {hit : LineHit}
    (hhit : IsHit marker.bytes none 0 text hit) (hvalid : IsValid text) :
    IsCharBoundary text hit.start ∧ IsCharBoundary text hit.stop := by
  obtain ⟨before, reference, behind, htext, hreference, -, -, hstart, hstop⟩ := hhit
  have hmarker : IsValid marker.bytes := Text.isValid_encode _
  have hwhole := hmarker.append hreference.isValid
  rw [Nat.zero_add] at hstart
  rw [← List.append_assoc marker.bytes] at htext
  rw [htext] at hvalid
  obtain ⟨hbefore, hbehind⟩ := hvalid.around hwhole
    (List.append_ne_nil_of_left_ne_nil marker.bytes_ne_nil _)
  refine ⟨⟨before, _, htext, hstart, hbefore, hwhole.append hbehind⟩,
    ⟨before ++ (marker.bytes ++ reference), behind, ?_, ?_, hbefore.append hwhole, hbehind⟩⟩
  · rw [htext, List.append_assoc before]
  · rw [hstop, hstart, List.length_append, List.length_append]

/-! ## Payloads -/

/-- The lines that a payload is taken from, with their numbers. -/
def reachedLines (lines : List CommentLine) (hit : Hit) (next : Option Hit) :
    List (CommentLine × Nat) :=
  let last :=
    match next with
    | some next => next.line
    | none => lines.length - 1
  ((lines.drop hit.line).take (last + 1 - hit.line)).zipIdx hit.line

/-- Where the part of a payload starts in a line. -/
def payloadStart (hit : Hit) (number : Nat) : Nat :=
  if number = hit.line then hit.stop else 0

/-- Where the part of a payload stops in a line. -/
def payloadStop (next : Option Hit) (line : CommentLine) (number : Nat) : Nat :=
  match next with
  | some next => if number = next.line then next.start else line.text.length
  | none => line.text.length

/-- The part of a source that the part of a payload in one line is taken from. -/
def payloadRange (hit : Hit) (next : Option Hit) (line : CommentLine) (number : Nat) : ByteRange :=
  ⟨line.offset + payloadStart hit number, line.offset + payloadStop next line number⟩

/-- The parts of a source that a payload is taken from. -/
def payloadRanges (lines : List CommentLine) (hit : Hit) (next : Option Hit) : List ByteRange :=
  (reachedLines lines hit next).map fun (line, number) => payloadRange hit next line number

/-- The parts of a source, each of them trimmed, joined by newlines and trimmed again. -/
def Bytes.cut (source : Bytes) (ranges : List ByteRange) : Bytes :=
  trim (joinLines (ranges.map fun range => trim (slice source range.start range.stop)))

/-- The lines that are reached have their numbers. -/
theorem getElem?_of_mem_reachedLines {lines : List CommentLine} {hit : Hit} {next : Option Hit}
    {line : CommentLine} {number : Nat} (hline : (line, number) ∈ reachedLines lines hit next) :
    lines[number]? = some line := by
  obtain ⟨hle, hreached⟩ := List.mem_zipIdx_iff_le_and_getElem?_sub.1 hline
  rw [List.getElem?_take, Option.ite_none_right_eq_some, List.getElem?_drop,
    Nat.add_sub_cancel' hle] at hreached
  exact hreached.2

/-- Blanks are characters. -/
theorem isValid_of_isBlank {blanks : Bytes} (hblanks : ∀ byte ∈ blanks, Bytes.isBlank byte = true) :
    IsValid blanks := by
  refine Text.isValid_ascii fun byte hbyte => ?_
  have hblank := hblanks byte hbyte
  simp only [Bytes.isBlank, Bytes.space, Bytes.tab, Bytes.carriageReturn, Bool.or_eq_true,
    Bool.and_eq_true, beq_iff_eq, decide_eq_true_eq, UInt8.le_iff_toNat_le] at hblank
  rcases hblank with rfl | ⟨-, hle⟩
  · decide
  · exact Nat.le_trans hle (by decide)

/-- Trimming a text leaves a text. -/
theorem isValid_trim {text : Bytes} (hvalid : IsValid text) : IsValid (Bytes.trim text) := by
  have hfront : IsValid (text.dropWhile Bytes.isBlank) := by
    rw [← List.takeWhile_append_dropWhile (p := Bytes.isBlank) (l := text)] at hvalid
    exact hvalid.of_append_right (isValid_of_isBlank fun byte hbyte =>
      List.all_eq_true.1 List.all_takeWhile byte hbyte)
  rw [eq_dropWhile_append_takeWhile Bytes.isBlank (text.dropWhile Bytes.isBlank)] at hfront
  refine hfront.of_append_left (isValid_of_isBlank fun byte hbyte => ?_)
  exact List.all_eq_true.1 List.all_takeWhile byte (List.mem_reverse.1 hbyte)

/-- Lines that are texts are a text together. -/
theorem isValid_joinLines {lines : List Bytes} (hvalid : ∀ line ∈ lines, IsValid line) :
    IsValid (Bytes.joinLines lines) := by
  induction lines with
  | nil => exact Text.isValid_nil
  | cons line rest ih =>
      obtain ⟨hline, hrest⟩ := List.forall_mem_cons.1 hvalid
      cases rest with
      | nil => exact hline
      | cons other more => exact hline.append (isValid_newline.append (ih hrest))

namespace Annotation.MadeFrom

variable {query : Query} {note : Annotation} {span : Span} {before following continuing : List Span}
  {hit : Hit} {next : Option Hit}

/-- The lines of the comments of an annotation stand in the source, and they are texts. -/
theorem isValid_line (haccepted : grammar.Accepted) (hvalid : IsValid source)
    (hspans : (grammar.scan source).spans = before ++ span :: following)
    (hmade : note.MadeFrom query source span following continuing hit next) {line : CommentLine}
    (hline : line ∈ span.linesWith source continuing) :
    IsValid line.text ∧ ∃ front back, source = front ++ (line.text ++ back) ∧
      front.length = line.offset := by
  have hcomment : ∃ own ∈ (grammar.scan source).spans, own.kind.isComment = true ∧
      line ∈ own.commentLines source := by
    rw [Span.linesWith, List.mem_append, List.mem_flatMap] at hline
    rcases hline with hown | ⟨comment, hcomment, hmore⟩
    · exact ⟨span, by rw [hspans]; simp, hmade.isComment, hown⟩
    · obtain ⟨-, hbehind, hkind⟩ := of_mem_continuing hmade.continues hcomment
      exact ⟨comment, by rw [hspans]; simp [hbehind], by rw [hkind]; rfl, hmore⟩
  obtain ⟨own, hown, hkind, hline⟩ := hcomment
  have hhas := (mem_commentLines_iff_of_mem_scan hown hkind).1 hline
  obtain ⟨front, back, hsource, hlength, -⟩ := hhas.exists_eq_append
  exact ⟨own.isValid_line haccepted hvalid hown hkind hline, front, back, hsource, hlength⟩

/-- The part of a payload in a line starts and stops between characters. -/
theorem isCharBoundary (hspan : span ∈ (grammar.scan source).spans)
    (hmade : note.MadeFrom query source span following continuing hit next) {line : CommentLine}
    (hvalid : IsValid line.text) {number : Nat}
    (hline : (span.linesWith source continuing)[number]? = some line) :
    IsCharBoundary line.text (payloadStart hit number) ∧
      IsCharBoundary line.text (payloadStop next line number) := by
  have hdelimited :=
    isDelimited_of_mem_scan hspan (SpanKind.ne_code_of_isComment hmade.isComment)
  have hfirst : IsCharBoundary line.text 0 := ⟨[], line.text, rfl, rfl, Text.isValid_nil, hvalid⟩
  have hlast : IsCharBoundary line.text line.text.length :=
    ⟨line.text, [], (List.append_nil _).symm, rfl, hvalid, Text.isValid_nil⟩
  have hhits : ∀ other, other = hit ∨ other ∈ next → number = other.line →
      IsCharBoundary line.text other.start ∧ IsCharBoundary line.text other.stop := by
    rintro other hother rfl
    obtain ⟨own, hown, -, hhit⟩ :=
      hmade.exists_line hdelimited (stop_le_of_mem_scan hspan) hother
    rw [hline] at hown
    cases hown
    exact hhit.isCharBoundary hvalid
  constructor
  · rw [payloadStart]
    split
    · rename_i hnumber
      exact (hhits hit (Or.inl rfl) hnumber).2
    · exact hfirst
  · cases next with
    | none => exact hlast
    | some next =>
        rw [payloadStop]
        split
        · rename_i hnumber
          exact (hhits next (Or.inr rfl) hnumber).1
        · exact hlast

/-- The payload of an annotation of a text is decoded without replacing anything: its bytes are the
parts of the source that it was taken from. -/
theorem encode_payload (haccepted : grammar.Accepted) (hvalid : IsValid source)
    (hspans : (grammar.scan source).spans = before ++ span :: following)
    (hmade : note.MadeFrom query source span following continuing hit next) :
    Text.encode note.payload =
      Bytes.cut source (payloadRanges (span.linesWith source continuing) hit next) := by
  have hspan : span ∈ (grammar.scan source).spans := by
    rw [hspans]
    simp
  have hparts : ∀ line number,
      (line, number) ∈ reachedLines (span.linesWith source continuing) hit next →
        IsValid (payloadPart hit next line number) ∧
          payloadPart hit next line number =
            Bytes.trim (Bytes.slice source (payloadRange hit next line number).start
              (payloadRange hit next line number).stop) := by
    intro line number hreached
    have hline := getElem?_of_mem_reachedLines hreached
    obtain ⟨htext, front, back, hsource, hlength⟩ :=
      hmade.isValid_line haccepted hvalid hspans (List.mem_of_getElem? hline)
    obtain ⟨hstart, hstop⟩ := hmade.isCharBoundary hspan htext hline
    refine ⟨isValid_trim (hstart.slice hstop), ?_⟩
    obtain ⟨upTo, behind, hupTo, hlong, -, -⟩ := hstop
    have hinside : payloadStop next line number ≤ line.text.length := by
      rw [hlong, hupTo, List.length_append]
      exact Nat.le_add_right _ _
    rw [payloadRange, ← hlength]
    conv_rhs => rw [hsource, slice_inside front line.text back hinside]
    rfl
  have hbytes : payloadBytes (span.linesWith source continuing) hit next =
      Bytes.cut source (payloadRanges (span.linesWith source continuing) hit next) := by
    rw [Bytes.cut, payloadRanges, List.map_map]
    change Bytes.trim (Bytes.joinLines ((reachedLines _ hit next).map _)) = _
    congr 2
    exact List.map_congr_left fun line hline => (hparts line.1 line.2 hline).2
  have hpayload : IsValid (payloadBytes (span.linesWith source continuing) hit next) := by
    refine isValid_trim (isValid_joinLines fun part hpart => ?_)
    obtain ⟨line, hline, rfl⟩ := List.mem_map.1 hpart
    exact (hparts line.1 line.2 hline).1
  rw [hmade.note_eq, ← hbytes]
  exact hpayload.decode

end Annotation.MadeFrom

/-! ## All cuts -/

/-- A source that is a text is cut between characters: where spans start and stop, where a construct
is left open, and around the bodies of constructs.  The payloads of its annotations are decoded
without replacing anything: their bytes are the parts of the source that they were taken from,
trimmed and joined by newlines. -/
theorem text_integrity (haccepted : grammar.Accepted) (hvalid : IsValid source) :
    (∀ offset, grammar.IsBoundary source offset → IsCharBoundary source offset) ∧
      (∀ failure ∈ (grammar.scan source).failure, IsCharBoundary source failure.place.offset) ∧
      (∀ span ∈ (grammar.scan source).spans,
        IsValid (span.text source) ∧ (span.kind ≠ .code → IsValid (span.body source))) ∧
      ∀ query note, grammar.Finds query source note →
        ∃ before span following continuing hit next,
          (grammar.scan source).spans = before ++ span :: following ∧
            note.MadeFrom query source span following continuing hit next ∧
            Text.encode note.payload =
              Bytes.cut source (payloadRanges (span.linesWith source continuing) hit next) := by
  refine ⟨fun offset hoffset => hoffset.isCharBoundary haccepted hvalid,
    fun failure => isCharBoundary_of_unclosed haccepted hvalid, fun span hspan =>
      ⟨isValid_span haccepted hvalid hspan, fun hkind =>
        (isValid_body haccepted hvalid hspan hkind).2⟩, ?_⟩
  intro query note hfinds
  obtain ⟨before, span, following, continuing, hit, next, hspans, hmade, -, -⟩ :=
    hfinds.exists_madeFrom
  exact ⟨before, span, following, continuing, hit, next, hspans, hmade,
    hmade.encode_payload haccepted hvalid hspans⟩

/-- An escape in front of a character of two bytes, and an annotation among such characters. -/
theorem text_integrity_escaped :
    Grammar.c.Accepted ∧ IsValid (Text.encode "\"\\é\"; // é @TODO ü") ∧
      IsCharBoundary (Text.encode "\"\\é\"; // é @TODO ü") 5 ∧
      ∃ note, Grammar.c.Finds ⟨.todo, .all, true⟩ (Text.encode "\"\\é\"; // é @TODO ü") note ∧
        note.payload = "ü" ∧ ∃ span continuing hit next,
          note = annotationOf ⟨.todo, .all, true⟩ (Text.encode "\"\\é\"; // é @TODO ü") span
              continuing hit next ∧
            Text.encode note.payload = Bytes.cut (Text.encode "\"\\é\"; // é @TODO ü")
              (payloadRanges (span.linesWith (Text.encode "\"\\é\"; // é @TODO ü") continuing) hit
                next) := by
  have haccepted : Grammar.c.Accepted := Grammar.builtin_accepted _ (by decide)
  have hvalid := Text.isValid_encode "\"\\é\"; // é @TODO ü"
  have hfinds : Grammar.c.Finds ⟨.todo, .all, true⟩ (Text.encode "\"\\é\"; // é @TODO ü")
      ⟨.todo, "ü", ⟨13, 1, 14⟩, .lineComment, 7, 21, none⟩ :=
    ⟨_, by decide +kernel, List.mem_singleton.2 rfl⟩
  obtain ⟨hboundaries, -, -, hpayloads⟩ := text_integrity haccepted hvalid
  obtain ⟨before, span, following, continuing, hit, next, -, hmade, hpayload⟩ :=
    hpayloads _ _ hfinds
  refine ⟨haccepted, hvalid, hboundaries 5 ?_, _, hfinds, rfl, span, continuing, hit, next,
    hmade.note_eq, hpayload⟩
  exact ⟨⟨.stringLiteral, 0, 5, 1, 1, "\"", "\""⟩, by decide +kernel, Or.inr rfl⟩

end CommentMarkers
