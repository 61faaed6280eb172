import CommentMarkers.Proofs.Positions
import CommentMarkers.Scan.LineTracker

/-!
# Tracked places

The places of a scan are folded over the bytes of the source. This file shows that they are also
the ones that a line tracker finds, which counts newlines and looks for the last one instead of
reading byte by byte, and that the place of a marker is the one found in the same way from the
start of its comment.

Main results:

- Theorem `trackedScan_eq`: a tracker finds the places of a scan.
- Theorem `placeOf_eq_positionOf`: the place of an offset inside a span, and theorem
  `Grammar.Finds.exists_positionOf`: the place of an annotation.
-/

namespace CommentMarkers

/-! ## Trackers -/

namespace LineTracker

variable {source : Bytes} {tracker : LineTracker} {offset : Nat}

/-- A tracker that moves on comes to the place behind what it passes. -/
theorem place_moveTo (hline : tracker.lineStart ≤ tracker.offset)
    (hforward : tracker.offset ≤ offset) (hinside : offset ≤ source.length) :
    (tracker.moveTo source offset).place =
      tracker.place.advance (Bytes.slice source tracker.offset offset) := by
  have hlength : (Bytes.slice source tracker.offset offset).length = offset - tracker.offset :=
    length_slice hinside
  rw [Position.advance_eq, hlength]
  cases hlast : Bytes.lastNewline? (Bytes.slice source tracker.offset offset) with
  | none =>
    have hcount := (Bytes.lastNewline?_eq_none_iff _).1 hlast
    simp only [moveTo, place, hcount, if_pos, Position.mk.injEq]
    omega
  | some newline =>
    have hcount : Bytes.newlineCount (Bytes.slice source tracker.offset offset) ≠ 0 := by
      rw [Ne, ← Bytes.lastNewline?_eq_none_iff, hlast]
      simp
    have hlt := Bytes.lastNewline?_lt hlast
    rw [hlength] at hlt
    simp only [moveTo, place, hcount, if_false, Bytes.lastNewlineIn?, hlast, Option.map_some,
      Option.getD_some, Position.mk.injEq, true_and]
    omega

/-- The line of a tracker that moves on starts in front of it. -/
theorem lineStart_moveTo_le (hline : tracker.lineStart ≤ tracker.offset)
    (hforward : tracker.offset ≤ offset) :
    (tracker.moveTo source offset).lineStart ≤ (tracker.moveTo source offset).offset := by
  rw [moveTo]
  split
  · exact hline.trans hforward
  · cases hlast : Bytes.lastNewline? (Bytes.slice source tracker.offset offset) with
    | none => simp [Bytes.lastNewlineIn?, hlast]
    | some newline =>
      have hlt := Bytes.lastNewline?_lt hlast
      have hle := Bytes.length_slice_le source tracker.offset offset
      simp only [Bytes.lastNewlineIn?, hlast, Option.map_some, Option.getD_some]
      omega

/-- The places that a tracker finds for lexemes that follow each other, and for what is behind
them, are folded from the place of the first one. -/
theorem spans_eq {front back : Bytes} {lexemes : List Lexeme}
    (hsource : source = front ++ (textOf lexemes ++ back))
    (hline : tracker.lineStart ≤ tracker.offset) (hforward : tracker.offset ≤ front.length) :
    tracker.spans source front.length lexemes =
        placeSpans (tracker.moveTo source front.length).place lexemes ∧
      tracker.placeBehind source front.length lexemes =
        CommentMarkers.placeBehind (tracker.moveTo source front.length).place lexemes := by
  -- The tracker is kept at the start of a lexeme, and the text of the lexeme is all that it passes
  -- on its way to the next one.
  induction lexemes generalizing front tracker with
  | nil => exact ⟨rfl, rfl⟩
  | cons lexeme rest ih =>
    have hbehind : source = (front ++ lexeme.text) ++ (textOf rest ++ back) := by
      rw [hsource, textOf_cons, List.append_assoc, List.append_assoc]
    have hmoved : (tracker.moveTo source front.length).lineStart ≤
        (tracker.moveTo source front.length).offset := lineStart_moveTo_le hline hforward
    have hoffset := tracker.offset_moveTo source front.length
    have hle : (tracker.moveTo source front.length).offset ≤ (front ++ lexeme.text).length := by
      rw [hoffset, List.length_append]
      exact Nat.le_add_right _ _
    have hinside : (front ++ lexeme.text).length ≤ source.length := by
      have hlength := congrArg List.length hbehind
      rw [List.length_append] at hlength
      omega
    have hnext := place_moveTo hmoved hle hinside
    have htext : Bytes.slice source front.length (front ++ lexeme.text).length = lexeme.text := by
      rw [hsource, textOf_cons, List.append_assoc, List.length_append]
      exact slice_middle front lexeme.text _
    rw [hoffset, htext] at hnext
    obtain ⟨hspans, hplace⟩ := ih hbehind hmoved hle
    rw [hnext, List.length_append] at hspans hplace
    exact ⟨congrArg _ hspans, hplace⟩

end LineTracker

/-! ## Tracked scans -/

variable {grammar : Grammar} {source : Bytes}

/-- A tracker finds the places of a scan: those of its spans and that of a construct that is left
open. -/
theorem trackedScan_eq (grammar : Grammar) (source : Bytes) :
    grammar.trackedScan source = grammar.scan source := by
  obtain ⟨back, hsource⟩ := exists_eq_textOf_append grammar source
  have hfront : source = [] ++ (textOf (lex grammar.openers source).lexemes ++ back) := hsource
  have hfirst : (LineTracker.start.moveTo source 0).place = .first := by
    simp [LineTracker.start, LineTracker.moveTo, LineTracker.place, Position.first, Bytes.slice,
      Bytes.newlineCount]
  have hline : LineTracker.start.lineStart ≤ LineTracker.start.offset := Nat.le_refl 0
  obtain ⟨hspans, hplace⟩ := LineTracker.spans_eq hfront hline (Nat.le_refl 0)
  rw [List.length_nil, hfirst] at hspans hplace
  rw [Grammar.trackedScan, hspans, hplace]
  rfl

/-! ## Places inside a span -/

/-- The place of an offset inside a span is found from the last newline in front of it. -/
theorem placeOf_eq_positionOf (span : Span) {offset : Nat} (hinside : offset ≤ source.length) :
    span.placeOf source offset = span.positionOf source offset := by
  have hlength : (Bytes.slice source span.start offset).length = offset - span.start :=
    length_slice hinside
  rw [Span.placeOf, Position.advance_eq, Span.positionOf, Bytes.lastNewlineIn?, hlength]
  cases hlast : Bytes.lastNewline? (Bytes.slice source span.start offset) with
  | none =>
    rw [(Bytes.lastNewline?_eq_none_iff _).1 hlast]
    rfl
  | some newline =>
    simp only [Option.map_some, Position.mk.injEq, true_and]
    omega

/-- The place of an annotation is found from the start of its comment. -/
theorem Grammar.Finds.exists_positionOf {query : Query} {note : Annotation}
    (hfinds : grammar.Finds query source note) :
    ∃ span ∈ (grammar.trackedScan source).spans,
      span.start = note.spanStart ∧ note.place = span.positionOf source note.place.offset := by
  obtain ⟨before, span, following, continuing, hit, next, hspans, hmade, -, -⟩ :=
    hfinds.exists_madeFrom
  refine ⟨span, ?_, hmade.foundIn.start.symm, ?_⟩
  · rw [trackedScan_eq, hspans]
    simp
  · rw [← placeOf_eq_positionOf span hfinds.isTrueIn_place.inside]
    exact hmade.place_eq

end CommentMarkers
