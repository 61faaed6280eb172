import CommentMarkers.Proofs.AnnotationHits

/-!
# Positions

A place in a source is known by its offset, its line and its column.  This file says when the
three agree, and shows that they do in everything that is reported about a source: scanning keeps
the place while it moves over the source, and annotations work theirs out from the span that they
were found in.

Main results:

- Theorem `Position.advance_first`: the place behind a text that begins a source.
- Theorem `positions_true`: the places of spans, of a construct that is left open and of
  annotations are true.
-/

namespace CommentMarkers

/-! ## The place behind a text -/

/-- A newline starts a line behind it, and any other byte goes on with the last line. -/
theorem lastLineStart_concat (front : Bytes) (byte : UInt8) :
    Bytes.lastLineStart (front ++ [byte]) =
      if byte = Bytes.newline then front.length + 1 else Bytes.lastLineStart front := by
  by_cases hbyte : byte = Bytes.newline
  · simp [Bytes.lastLineStart, hbyte]
  · simp [Bytes.lastLineStart, hbyte]

/-- The last line of a text starts inside it. -/
theorem lastLineStart_le (text : Bytes) : Bytes.lastLineStart text ≤ text.length :=
  Nat.sub_le _ _

namespace Position

/-- The place behind a text that begins a source: one line more than the text has newlines, and one
column more than its last line has bytes. -/
theorem advance_first (front : Bytes) :
    first.advance front =
      ⟨front.length, 1 + Bytes.newlineCount front,
        1 + (front.length - Bytes.lastLineStart front)⟩ := by
  induction front using List.reverseRecOn with
  | nil => rfl
  | append_singleton front byte ih =>
      have hstart := lastLineStart_le front
      rw [advance_append, ih, lastLineStart_concat]
      change next _ byte = _
      rw [next]
      by_cases hbyte : byte = Bytes.newline
      · simp [Bytes.newlineCount, hbyte, Nat.add_assoc]
      · simp only [hbyte, if_false, Bytes.newlineCount, List.length_append, List.length_singleton,
          List.count_append, List.count_singleton, beq_iff_eq, Nat.add_zero, mk.injEq, true_and]
        omega

/-- Holds if the line and the column of a place in a source are those of its offset: the line
counts the newlines in front of it, and the column its distance from the start of the line. -/
structure IsTrueIn (place : Position) (source : Bytes) : Prop where
  inside : place.offset ≤ source.length
  line : place.line = 1 + Bytes.newlineCount (source.take place.offset)
  column : place.column = 1 + (place.offset - lineStart source place.offset)

/-- The place behind a text that begins a source is true. -/
theorem isTrueIn_advance (front back : Bytes) :
    (first.advance front).IsTrueIn (front ++ back) := by
  have hadvance := advance_first front
  have htake : (front ++ back).take (first.advance front).offset = front := by
    rw [hadvance]
    exact List.take_left
  refine ⟨?_, ?_, ?_⟩
  · rw [hadvance, List.length_append]
    exact Nat.le_add_right _ _
  · rw [htake, hadvance]
  · rw [lineStart, htake, hadvance]

end Position

/-! ## The places of a scan -/

/-- The place where a span starts. -/
def Span.place (span : Span) : Position :=
  ⟨span.start, span.line, span.column⟩

variable {grammar : Grammar} {source : Bytes}

/-- A span starts at the place behind the part of the source in front of it. -/
theorem place_of_mem_scan {span : Span} (hspan : span ∈ (grammar.scan source).spans) :
    span.place = Position.first.advance (source.take span.start) := by
  obtain ⟨before, after, hspans⟩ := List.append_of_mem hspan
  obtain ⟨front, lexeme, back, -, -, hplaced, -, htake, -⟩ := exists_split_of_scan hspans
  rw [htake, hplaced]
  rfl

/-- The spans of a scan start at true places. -/
theorem isTrueIn_of_mem_scan {span : Span} (hspan : span ∈ (grammar.scan source).spans) :
    span.place.IsTrueIn source := by
  rw [place_of_mem_scan hspan]
  have htrue := Position.isTrueIn_advance (source.take span.start) (source.drop span.start)
  rwa [List.take_append_drop] at htrue

/-- A construct that is left open stands at a true place. -/
theorem isTrueIn_of_unclosed {failure : Unclosed}
    (hfailure : (grammar.scan source).failure = some failure) :
    failure.place.IsTrueIn source := by
  obtain ⟨opener, -, tail, hsource, hplace, -⟩ := unclosed_of_scan hfailure
  have htrue := Position.isTrueIn_advance (textOf (lex grammar.openers source).lexemes)
    (opener.token ++ tail)
  rw [← hsource] at htrue
  rw [hplace]
  exact htrue

/-! ## The places of annotations -/

/-- The place of an offset inside a span is the place behind the part of the source in front of
it. -/
theorem placeOf_eq {span : Span} (hspan : span ∈ (grammar.scan source).spans) {offset : Nat}
    (hstart : span.start ≤ offset) (hinside : offset ≤ source.length) :
    span.placeOf source offset = Position.first.advance (source.take offset) := by
  have hplace := place_of_mem_scan hspan
  rw [Span.place] at hplace
  have htake : source.take span.start ++ Bytes.slice source span.start offset =
      source.take offset := by
    rw [Bytes.slice, ← List.take_add, Nat.add_sub_cancel' hstart]
  have hoffset := Position.advance_first (source.take offset)
  rw [List.length_take, Nat.min_eq_left hinside] at hoffset
  rw [Span.placeOf, hplace, ← Position.advance_append, htake, hoffset]

namespace Grammar.Finds

variable {query : Query} {note : Annotation}

/-- The marker of an annotation stands at its offset, inside its comment. -/
theorem marker_inside (hfinds : grammar.Finds query source note) :
    note.spanStart ≤ note.place.offset ∧ note.markerStop ≤ note.spanStop ∧
      Bytes.slice source note.place.offset note.markerStop = query.marker.bytes := by
  obtain ⟨before, span, following, continuing, hit, next, hspans, hmade, hdelimited, hinside⟩ :=
    hfinds.exists_madeFrom
  obtain ⟨front, reference, behind, hsource, hoffset, -, hstart, hstop⟩ :=
    hmade.exists_marker hdelimited hinside
  have hbody : span.start ≤ span.bodyStart := Nat.le_add_right _ _
  have horder := hfinds.exists_foundIn.1.pairwise
  have hpos := hfinds.exists_foundIn.1.start_lt_stop
  rw [hspans] at horder hpos
  have hle := hmade.foundIn.le_stop (List.pairwise_append.1 horder).2.1
    fun other hother => hpos other (by simp [hother])
  refine ⟨?_, ?_, ?_⟩
  · rw [hmade.foundIn.start, hoffset]
    omega
  · unfold Annotation.markerStop
    rw [hoffset]
    omega
  · unfold Annotation.markerStop
    rw [hoffset, ← hfinds.marker]
    conv_lhs => rw [hsource]
    exact slice_middle front note.marker.bytes (reference ++ behind)

/-- The place of an annotation is true. -/
theorem isTrueIn_place (hfinds : grammar.Finds query source note) :
    note.place.IsTrueIn source := by
  obtain ⟨before, span, following, continuing, hit, next, hspans, hmade, -, -⟩ :=
    hfinds.exists_madeFrom
  have hspan : span ∈ (grammar.scan source).spans := by
    rw [hspans]
    simp
  obtain ⟨hstart, hstop, -⟩ := hfinds.marker_inside
  rw [hmade.foundIn.start] at hstart
  have hbefore : note.place.offset ≤ note.markerStop := Nat.le_add_right _ _
  have hplace := hmade.place_eq
  rw [placeOf_eq hspan hstart (hbefore.trans (hstop.trans hfinds.inside.1))] at hplace
  have htrue := Position.isTrueIn_advance (source.take note.place.offset)
    (source.drop note.place.offset)
  rwa [List.take_append_drop, ← hplace] at htrue

end Grammar.Finds

/-! ## Everything that is reported about a source -/

/-- Positions are true: where a span starts, where a construct is left open, and where an
annotation stands, the line and the column are those of the offset.  The marker of an annotation
stands at its offset, inside the comment that the annotation was taken from. -/
theorem positions_true (grammar : Grammar) (source : Bytes) :
    (∀ span ∈ (grammar.scan source).spans, span.place.IsTrueIn source) ∧
      (∀ failure ∈ (grammar.scan source).failure, failure.place.IsTrueIn source) ∧
      ∀ query note, grammar.Finds query source note →
        note.place.IsTrueIn source ∧ note.spanStart ≤ note.place.offset ∧
          note.markerStop ≤ note.spanStop ∧
            Bytes.slice source note.place.offset note.markerStop = query.marker.bytes :=
  ⟨fun _ => isTrueIn_of_mem_scan, fun _ => isTrueIn_of_unclosed,
    fun _ _ hfinds => ⟨hfinds.isTrueIn_place, hfinds.marker_inside⟩⟩

/-- A marker behind the star that decorates a line, in a source with a character of two bytes. -/
theorem positions_true_starred :
    ∃ note,
      Grammar.c.Finds ⟨.todo, .all, true⟩ (Text.encode "é;\n/* a\r\n *  @TODO b */") note ∧
        note.place = ⟨14, 3, 5⟩ ∧
        note.place.IsTrueIn (Text.encode "é;\n/* a\r\n *  @TODO b */") ∧
        note.spanStart ≤ 14 ∧ note.markerStop ≤ note.spanStop ∧
        Bytes.slice (Text.encode "é;\n/* a\r\n *  @TODO b */") 14 note.markerStop =
          Marker.todo.bytes := by
  have hfinds : Grammar.c.Finds ⟨.todo, .all, true⟩ (Text.encode "é;\n/* a\r\n *  @TODO b */")
      ⟨.todo, "b", ⟨14, 3, 5⟩, .blockComment, 4, 24, none⟩ :=
    ⟨_, by decide +kernel, List.mem_singleton.2 rfl⟩
  obtain ⟨-, -, hannotations⟩ := positions_true .c (Text.encode "é;\n/* a\r\n *  @TODO b */")
  exact ⟨_, hfinds, rfl, hannotations _ _ hfinds⟩

end CommentMarkers
