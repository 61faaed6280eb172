import CommentMarkers.Annotation.Decoration
import CommentMarkers.Proofs.Slices

/-!
# The lines of comments

What a comment says stands on its lines, between a decoration and the carriage returns at the end.
This file describes the lines of a text and their decoration by the ways in which a text can be
put together from pieces, and shows that taking a comment apart yields exactly those pieces.

Main results:

- Theorem `mem_placeLines_iff`: the lines of a text are its pieces between newlines.
- Theorem `strip_eq_iff`: stripping a line removes its decoration and nothing else.
- Theorem `mem_commentLines_iff`: the lines of a comment span, in terms of the source.
-/

namespace CommentMarkers

/-! ## Lines of a text -/

/-- Text without a newline is a single line. -/
theorem lines_eq_singleton {text : Bytes} (hline : Bytes.newline ∉ text) :
    Bytes.lines text = [text] := by
  induction text with
  | nil => rfl
  | cons byte rest ih =>
      rcases List.ne_and_not_mem_of_not_mem_cons hline with ⟨hbyte, hrest⟩
      rw [Bytes.lines, if_neg (Ne.symm hbyte), ih hrest]

/-- A newline separates the lines in front of it from those behind it. -/
theorem lines_append_newline (front back : Bytes) :
    Bytes.lines (front ++ Bytes.newline :: back) = Bytes.lines front ++ Bytes.lines back := by
  induction front with
  | nil => simp [Bytes.lines]
  | cons byte rest ih =>
      rw [List.cons_append, Bytes.lines, Bytes.lines, ih]
      by_cases hbyte : byte = Bytes.newline
      · rw [if_pos hbyte, if_pos hbyte, List.cons_append]
      · rcases List.exists_cons_of_ne_nil (Bytes.lines_ne_nil rest) with ⟨line, more, hlines⟩
        rw [if_neg hbyte, if_neg hbyte, hlines]
        rfl

/-- Placed lines begin behind the place of the first one. -/
theorem le_offset_of_mem_placeLines {offset : Nat} {texts : List Bytes} {line : CommentLine}
    (hline : line ∈ placeLines offset texts) : offset ≤ line.offset := by
  induction texts generalizing offset with
  | nil => cases hline
  | cons text rest ih =>
      rcases List.mem_cons.1 hline with rfl | hmore
      · exact Nat.le_refl _
      · have hle := ih hmore
        omega

/-- Placed lines do not overlap, and there is a newline between two of them. -/
theorem pairwise_placeLines (offset : Nat) (texts : List Bytes) :
    (placeLines offset texts).Pairwise fun first second =>
      first.offset + first.text.length < second.offset := by
  induction texts generalizing offset with
  | nil => exact List.Pairwise.nil
  | cons text rest ih =>
      refine List.Pairwise.cons ?_ (ih _)
      intro line hline
      exact le_offset_of_mem_placeLines hline

/-- A newline separates the placed lines in front of it from those behind it. -/
theorem placeLines_append_newline (offset : Nat) (front back : Bytes) :
    placeLines offset (Bytes.lines (front ++ Bytes.newline :: back)) =
      placeLines offset (Bytes.lines front) ++
        placeLines (offset + (front.length + 1)) (Bytes.lines back) := by
  rw [lines_append_newline]
  induction front generalizing offset with
  | nil => rfl
  | cons byte rest ih =>
      rw [Bytes.lines]
      by_cases hbyte : byte = Bytes.newline
      · rw [if_pos hbyte, List.cons_append, placeLines, ih, placeLines, List.cons_append]
        congr 3
        rw [List.length_nil, List.length_cons]
        omega
      · rcases List.exists_cons_of_ne_nil (Bytes.lines_ne_nil rest) with ⟨line, more, hlines⟩
        have hrest := ih (offset + 1)
        rw [hlines, List.cons_append, placeLines, placeLines, List.cons_append] at hrest
        have htail := (List.cons.inj hrest).2
        rw [if_neg hbyte, hlines]
        simp only [List.cons_append, placeLines, List.length_cons]
        rw [show offset + (line.length + 1) + 1 = offset + 1 + line.length + 1 by omega, htail,
          show offset + (rest.length + 1 + 1) = offset + 1 + (rest.length + 1) by omega]

/-- Holds if a text begins a line behind `front`. -/
def BeginsLine (front : Bytes) : Prop :=
  front = [] ∨ front.getLast? = some Bytes.newline

/-- Holds if a text ends a line in front of `back`. -/
def EndsLine (back : Bytes) : Prop :=
  back = [] ∨ back.head? = some Bytes.newline

/-- A line keeps its place and its neighbours whatever stands on it. -/
theorem exists_placeLines_eq {front back : Bytes} (offset : Nat) (hbegins : BeginsLine front)
    (hends : EndsLine back) :
    ∃ before after, ∀ text, Bytes.newline ∉ text →
      placeLines offset (Bytes.lines (front ++ (text ++ back))) =
        before ++ ⟨offset + front.length, text⟩ ::
          placeLines (offset + front.length + text.length + 1) after := by
  have hback : ∃ after, ∀ offset text, Bytes.newline ∉ text →
      placeLines offset (Bytes.lines (text ++ back)) =
        ⟨offset, text⟩ :: placeLines (offset + text.length + 1) after := by
    rcases hends with rfl | hhead
    · refine ⟨[], fun offset text hline => ?_⟩
      rw [List.append_nil, lines_eq_singleton hline]
      rfl
    · rcases List.head?_eq_some_iff.1 hhead with ⟨back, rfl⟩
      refine ⟨Bytes.lines back, fun offset text hline => ?_⟩
      rw [placeLines_append_newline, lines_eq_singleton hline]
      rfl
  rcases hback with ⟨after, hafter⟩
  rcases hbegins with rfl | hlast
  · exact ⟨[], after, fun text hline => hafter offset text hline⟩
  · rcases List.getLast?_eq_some_iff.1 hlast with ⟨front, rfl⟩
    refine ⟨placeLines offset (Bytes.lines front), after, fun text hline => ?_⟩
    rw [List.append_assoc, List.singleton_append, placeLines_append_newline, hafter _ text hline,
      List.length_append, List.length_singleton]

/-- Each line among the placed lines of a text is a piece of the text, and the other lines do not
depend on what stands on it. -/
theorem exists_of_placeLines_eq {offset : Nat} {text : Bytes} {before after : List CommentLine}
    {line : CommentLine} (hlines : placeLines offset (Bytes.lines text) = before ++ line :: after) :
    ∃ front back texts, text = front ++ (line.text ++ back) ∧
      line.offset = offset + front.length ∧ Bytes.newline ∉ line.text ∧ BeginsLine front ∧
        EndsLine back ∧ ∀ other, Bytes.newline ∉ other →
          placeLines offset (Bytes.lines (front ++ (other ++ back))) =
            before ++ ⟨line.offset, other⟩ ::
              placeLines (line.offset + other.length + 1) texts := by
  induction hsize : text.length using Nat.strongRecOn generalizing text offset before with
  | ind size ih =>
      by_cases hnewline : Bytes.newline ∈ text
      · rcases List.eq_append_cons_of_mem hnewline with ⟨first, rest, rfl, hfirst⟩
        rw [placeLines_append_newline, lines_eq_singleton hfirst, placeLines, placeLines,
          List.singleton_append] at hlines
        rw [List.length_append, List.length_cons] at hsize
        cases before with
        | nil =>
            rcases List.cons.inj hlines with ⟨rfl, -⟩
            refine ⟨[], Bytes.newline :: rest, Bytes.lines rest, rfl, rfl, hfirst, Or.inl rfl,
              Or.inr rfl, fun other hother => ?_⟩
            rw [List.nil_append, placeLines_append_newline, lines_eq_singleton hother]
            rfl
        | cons own before =>
            rcases List.cons.inj hlines with ⟨rfl, hmore⟩
            rcases ih rest.length (by omega) hmore rfl with
              ⟨front, back, texts, rfl, hoffset, hnot, hbegins, hends, hothers⟩
            refine ⟨first ++ Bytes.newline :: front, back, texts, by simp, ?_, hnot, Or.inr ?_,
              hends, fun other hother => ?_⟩
            · rw [hoffset, List.length_append, List.length_cons]
              omega
            · rw [List.getLast?_append, List.getLast?_cons]
              rcases hbegins with rfl | hlast
              · rfl
              · rw [hlast]
                rfl
            · rw [List.append_assoc, List.cons_append, placeLines_append_newline,
                lines_eq_singleton hfirst, hothers other hother]
              rfl
      · rw [lines_eq_singleton hnewline] at hlines
        cases before with
        | nil =>
            rcases List.cons.inj hlines with ⟨rfl, -⟩
            refine ⟨[], [], [], by simp, rfl, hnewline, Or.inl rfl, Or.inl rfl,
              fun other hother => ?_⟩
            rw [List.append_nil, List.nil_append, lines_eq_singleton hother]
            rfl
        | cons own before =>
            have hnil := (List.cons.inj hlines).2
            cases before <;> cases hnil

/-- The lines of a text are its pieces between newlines. -/
theorem mem_placeLines_iff {offset : Nat} {text : Bytes} {line : CommentLine} :
    line ∈ placeLines offset (Bytes.lines text) ↔
      ∃ front back, text = front ++ (line.text ++ back) ∧ line.offset = offset + front.length ∧
        Bytes.newline ∉ line.text ∧ BeginsLine front ∧ EndsLine back := by
  constructor
  · intro hline
    rcases List.append_of_mem hline with ⟨before, after, hlines⟩
    rcases exists_of_placeLines_eq hlines with
      ⟨front, back, -, htext, hoffset, hnot, hbegins, hends, -⟩
    exact ⟨front, back, htext, hoffset, hnot, hbegins, hends⟩
  · rintro ⟨front, back, rfl, hoffset, hnot, hbegins, hends⟩
    rcases exists_placeLines_eq offset hbegins hends with ⟨before, after, hlines⟩
    rw [hlines line.text hnot, ← hoffset]
    exact List.mem_append_right _ List.mem_cons_self

/-! ## Decoration -/

/-- The space that is dropped in front of a text, if there is one. -/
inductive Gap : Bytes → Bytes → Prop where
  | space (rest : Bytes) : Gap [Bytes.space] rest
  | none (rest : Bytes) (hrest : rest.head? ≠ some Bytes.space) : Gap [] rest

/-- Holds of the blanks and tabs that may stand in front of a star. -/
def IsIndent (indent : Bytes) : Prop :=
  ∀ byte ∈ indent, (byte == Bytes.space || byte == Bytes.tab) = true

/-- The decoration that is dropped in front of the rest of a line: the gap of a line comment, and
in a block comment a star with its indentation and its gap, or nothing where there is no star. -/
inductive Decoration : SpanKind → Bytes → Bytes → Prop where
  | lineComment {gap rest : Bytes} (hgap : Gap gap rest) : Decoration .lineComment gap rest
  | starred {indent gap rest : Bytes} (hindent : IsIndent indent) (hgap : Gap gap rest) :
      Decoration .blockComment (indent ++ Bytes.star :: gap) rest
  | plain {rest : Bytes}
      (hplain : ∀ indent more, IsIndent indent → rest ≠ indent ++ Bytes.star :: more) :
      Decoration .blockComment [] rest

/-- The carriage returns at the end of a text, all of which are dropped. -/
structure Returns (text returns : Bytes) : Prop where
  all : ∀ byte ∈ returns, byte = Bytes.carriageReturn
  last : text.getLast? ≠ some Bytes.carriageReturn

/-- A raw line that consists of a decoration, its text, and carriage returns. -/
structure Strips (kind : SpanKind) (raw decoration text returns : Bytes) : Prop where
  pieces : raw = decoration ++ (text ++ returns)
  decorated : Decoration kind decoration (text ++ returns)
  ends : Returns text returns

/-- A raw line of a comment of some kind without its decoration. -/
def CommentLine.strip (kind : SpanKind) (line : CommentLine) : CommentLine :=
  if kind = .lineComment then line.dropSpace.dropReturns else line.dropStar.dropReturns

/-- Every text begins with its gap. -/
theorem exists_gap (text : Bytes) : ∃ gap rest, text = gap ++ rest ∧ Gap gap rest := by
  by_cases hspace : text.head? = some Bytes.space
  · rcases List.head?_eq_some_iff.1 hspace with ⟨rest, rfl⟩
    exact ⟨[Bytes.space], rest, rfl, .space rest⟩
  · exact ⟨[], text, rfl, .none text hspace⟩

/-- Dropping a space drops the gap. -/
theorem dropSpace_eq {gap rest : Bytes} (hgap : Gap gap rest) (offset : Nat) :
    (CommentLine.mk offset (gap ++ rest)).dropSpace = ⟨offset + gap.length, rest⟩ := by
  cases hgap with
  | space => rfl
  | none _ hrest =>
      rw [CommentLine.dropSpace, if_neg (by simpa using hrest)]
      rfl

/-- Every line of a comment begins with its decoration. -/
theorem exists_decoration {kind : SpanKind} (hkind : kind.isComment = true) (raw : Bytes) :
    ∃ decoration rest, raw = decoration ++ rest ∧ Decoration kind decoration rest := by
  cases kind with
  | lineComment =>
      rcases exists_gap raw with ⟨gap, rest, hraw, hgap⟩
      exact ⟨gap, rest, hraw, .lineComment hgap⟩
  | blockComment =>
      by_cases hstar : ∃ indent more, IsIndent indent ∧ raw = indent ++ Bytes.star :: more
      · rcases hstar with ⟨indent, more, hindent, rfl⟩
        rcases exists_gap more with ⟨gap, rest, rfl, hgap⟩
        exact ⟨indent ++ Bytes.star :: gap, rest, by simp, .starred hindent hgap⟩
      · refine ⟨[], raw, rfl, .plain fun indent more hindent hraw => ?_⟩
        exact hstar ⟨indent, more, hindent, hraw⟩
  | code | stringLiteral | charLiteral => cases hkind

/-- The indentation of a line ends in front of its star. -/
theorem indentation_eq {indent : Bytes} (hindent : IsIndent indent) (offset : Nat) (more : Bytes) :
    (CommentLine.mk offset (indent ++ Bytes.star :: more)).indentation = indent.length := by
  rw [CommentLine.indentation, List.takeWhile_append_of_pos hindent,
    List.takeWhile_cons_of_neg (by decide), List.append_nil]

/-- Dropping a star drops the whole decoration of a line in a block comment. -/
theorem dropStar_eq {decoration rest : Bytes}
    (hdecoration : Decoration .blockComment decoration rest) (offset : Nat) :
    (CommentLine.mk offset (decoration ++ rest)).dropStar =
      ⟨offset + decoration.length, rest⟩ := by
  cases hdecoration with
  | @starred indent gap rest hindent hgap =>
      have hstar : (indent ++ Bytes.star :: (gap ++ rest))[indent.length]? = some Bytes.star := by
        rw [List.getElem?_append_right (Nat.le_refl _), Nat.sub_self]
        rfl
      have hdrop : (indent ++ Bytes.star :: (gap ++ rest)).drop (indent.length + 1) =
          gap ++ rest := by
        rw [← List.drop_drop, List.drop_left]
        rfl
      rw [List.append_assoc, List.cons_append, CommentLine.dropStar, indentation_eq hindent,
        if_pos hstar, CommentLine.dropFront, hdrop, dropSpace_eq hgap, List.length_append,
        List.length_cons]
      simp only [CommentLine.mk.injEq, and_true]
      omega
  | plain hplain =>
      have hstar : rest[(CommentLine.mk offset rest).indentation]? ≠ some Bytes.star := by
        intro hstar
        rcases eq_takeWhile_append_cons hstar with ⟨more, hmore⟩
        exact hplain _ more (List.all_eq_true.1 List.all_takeWhile) hmore
      rw [List.nil_append, CommentLine.dropStar, if_neg hstar]
      rfl

/-- The carriage returns at the end of a text are dropped. -/
theorem dropEndWhile_eq {text returns : Bytes} (hreturns : Returns text returns) :
    Bytes.dropEndWhile (· == Bytes.carriageReturn) (text ++ returns) = text := by
  have hall : ∀ byte ∈ returns.reverse, (byte == Bytes.carriageReturn) = true := by
    intro byte hbyte
    rw [hreturns.all byte (List.mem_reverse.1 hbyte)]
    rfl
  have hkeep : text.reverse.dropWhile (· == Bytes.carriageReturn) = text.reverse := by
    cases hreverse : text.reverse with
    | nil => rfl
    | cons byte rest =>
        have hbyte : byte ≠ Bytes.carriageReturn := by
          rintro rfl
          apply hreturns.last
          rw [← List.head?_reverse, hreverse]
          rfl
        rw [List.dropWhile_cons_of_neg (by simpa using hbyte)]
  rw [Bytes.dropEndWhile, List.reverse_append, List.dropWhile_append_of_pos hall, hkeep,
    List.reverse_reverse]

/-- Every text ends with its carriage returns. -/
theorem exists_returns (raw : Bytes) : ∃ text returns, raw = text ++ returns ∧
    Returns text returns := by
  have hsplit := List.takeWhile_append_dropWhile (p := (· == Bytes.carriageReturn))
    (l := raw.reverse)
  refine ⟨(raw.reverse.dropWhile (· == Bytes.carriageReturn)).reverse,
    (raw.reverse.takeWhile (· == Bytes.carriageReturn)).reverse, ?_, ?_, ?_⟩
  · rw [← List.reverse_append, hsplit, List.reverse_reverse]
  · intro byte hbyte
    have hequal := List.all_eq_true.1 List.all_takeWhile byte (List.mem_reverse.1 hbyte)
    simpa using hequal
  · rw [List.getLast?_reverse]
    intro hhead
    have hnot := List.head?_dropWhile_not (· == Bytes.carriageReturn) raw.reverse
    rw [hhead] at hnot
    cases hnot

/-- Every raw line of a comment consists of a decoration, a text and carriage returns. -/
theorem exists_strips {kind : SpanKind} (hkind : kind.isComment = true) (raw : Bytes) :
    ∃ decoration text returns, Strips kind raw decoration text returns := by
  rcases exists_decoration hkind raw with ⟨decoration, rest, hraw, hdecoration⟩
  rcases exists_returns rest with ⟨text, returns, rfl, hreturns⟩
  exact ⟨decoration, text, returns, hraw, hdecoration, hreturns⟩

/-- Stripping removes the decoration and the carriage returns. -/
theorem Strips.strip_eq {kind : SpanKind} {raw decoration text returns : Bytes}
    (hstrips : Strips kind raw decoration text returns) (offset : Nat) :
    (CommentLine.mk offset raw).strip kind = ⟨offset + decoration.length, text⟩ := by
  rcases hstrips with ⟨rfl, hdecoration, hreturns⟩
  have hreturn : (CommentLine.mk (offset + decoration.length) (text ++ returns)).dropReturns =
      ⟨offset + decoration.length, text⟩ := by
    rw [CommentLine.dropReturns, dropEndWhile_eq hreturns]
  cases hkind : kind with
  | lineComment =>
      rw [hkind] at hdecoration
      cases hdecoration with
      | lineComment hgap => rw [CommentLine.strip, if_pos rfl, dropSpace_eq hgap, hreturn]
  | blockComment =>
      rw [hkind] at hdecoration
      rw [CommentLine.strip, if_neg (by decide), dropStar_eq hdecoration, hreturn]
  | code | stringLiteral | charLiteral =>
      rw [hkind] at hdecoration
      cases hdecoration

/-- Stripping a line removes its decoration and its carriage returns, and nothing else. -/
theorem strip_eq_iff {kind : SpanKind} (hkind : kind.isComment = true) {offset : Nat}
    {raw : Bytes} {line : CommentLine} :
    (CommentLine.mk offset raw).strip kind = line ↔
      ∃ decoration returns, Strips kind raw decoration line.text returns ∧
        line.offset = offset + decoration.length := by
  constructor
  · rintro rfl
    rcases exists_strips hkind raw with ⟨decoration, text, returns, hstrips⟩
    rw [hstrips.strip_eq]
    exact ⟨decoration, returns, hstrips, rfl⟩
  · rintro ⟨decoration, returns, hstrips, hoffset⟩
    rw [hstrips.strip_eq, ← hoffset]

/-! ## Lines of a span -/

namespace Span

/-- A raw line of a comment, with what stands in front of it and behind it in the source: all of a
line comment behind its opening delimiter, and a piece between newlines in a block comment. -/
inductive HasRawLine (span : Span) : Bytes → Bytes → Bytes → Prop where
  | ofLine {front raw back : Bytes} (hkind : span.kind = .lineComment)
      (hstart : front.length = span.bodyStart) (hstop : front.length + raw.length = span.stop) :
      HasRawLine span front raw back
  | ofBlock {front raw back : Bytes} (hkind : span.kind = .blockComment)
      (hraw : Bytes.newline ∉ raw) (hstart : span.bodyStart ≤ front.length)
      (hstop : front.length + raw.length ≤ span.bodyStop)
      (hbegins : front.length = span.bodyStart ∨ front.getLast? = some Bytes.newline)
      (hends : front.length + raw.length = span.bodyStop ∨ back.head? = some Bytes.newline) :
      HasRawLine span front raw back

/-- A stripped line of a comment: the text of one of its raw lines without the decoration in front
of it and the carriage returns behind it. -/
def HasLine (span : Span) (source : Bytes) (line : CommentLine) : Prop :=
  ∃ front raw back decoration returns, source = front ++ (raw ++ back) ∧
    span.HasRawLine front raw back ∧ Strips span.kind raw decoration line.text returns ∧
      line.offset = front.length + decoration.length

/-- The lines of a comment with their decoration. -/
def rawLines (span : Span) (source : Bytes) : List CommentLine :=
  if span.kind = .lineComment then
    [⟨span.bodyStart, Bytes.slice source span.bodyStart span.stop⟩]
  else placeLines span.bodyStart (Bytes.lines (span.body source))

/-- The lines of a comment are its raw lines, stripped one by one. -/
theorem commentLines_eq (span : Span) (source : Bytes) :
    span.commentLines source = (span.rawLines source).map (·.strip span.kind) := by
  unfold commentLines rawLines
  split
  · rename_i hkind
    rw [List.map_singleton, CommentLine.strip, if_pos hkind]
    rfl
  · rename_i hkind
    rw [blockCommentLines]
    apply List.map_congr_left
    intro line _
    rw [CommentLine.strip, if_neg hkind]

/-- A raw line lies inside its span. -/
theorem HasRawLine.bounds {span : Span} {front raw back : Bytes}
    (hraw : span.HasRawLine front raw back) :
    span.bodyStart ≤ front.length ∧ front.length + raw.length ≤ span.stop ∧
      (span.kind = .blockComment → front.length + raw.length ≤ span.bodyStop) := by
  cases hraw with
  | ofLine hkind hstart hstop =>
      refine ⟨Nat.le_of_eq hstart.symm, Nat.le_of_eq hstop, fun hblock => ?_⟩
      rw [hkind] at hblock
      cases hblock
  | ofBlock hkind hnot hstart hstop =>
      exact ⟨hstart, Nat.le_trans hstop (Nat.sub_le _ _), fun _ => hstop⟩

/-- The raw line of a line comment lies in the source. -/
theorem eq_rawLine_iff {span : Span} {source : Bytes} (hkind : span.kind = .lineComment)
    (hfits : span.bodyStart ≤ span.stop) (hinside : span.stop ≤ source.length)
    {line : CommentLine} :
    line = ⟨span.bodyStart, Bytes.slice source span.bodyStart span.stop⟩ ↔
      ∃ front back, source = front ++ (line.text ++ back) ∧ line.offset = front.length ∧
        span.HasRawLine front line.text back := by
  constructor
  · rintro rfl
    have hfront : (source.take span.bodyStart).length = span.bodyStart := by
      rw [List.length_take]
      omega
    refine ⟨source.take span.bodyStart, source.drop span.stop, eq_take_slice_drop source hfits,
      hfront.symm, .ofLine hkind hfront ?_⟩
    rw [hfront, length_slice hinside]
    omega
  · rintro ⟨front, back, rfl, hoffset, hraw⟩
    cases hraw with
    | ofLine _ hstart hstop =>
        rw [← hstop, ← hstart, slice_middle, ← hoffset]
    | ofBlock hblock =>
        rw [hkind] at hblock
        cases hblock

/-- A piece between newlines of the body of a block comment is one of the source. -/
theorem hasRawLine_append {span : Span} (hkind : span.kind = .blockComment)
    {pre front text back post : Bytes} (hpre : pre.length = span.bodyStart)
    (hbody : pre.length + (front ++ (text ++ back)).length = span.bodyStop) :
    span.HasRawLine (pre ++ front) text (back ++ post) ↔
      Bytes.newline ∉ text ∧ BeginsLine front ∧ EndsLine back := by
  simp only [List.length_append] at hbody
  constructor
  · intro hraw
    cases hraw with
    | ofLine hline =>
        rw [hkind] at hline
        cases hline
    | ofBlock _ hnot hstart hstop hbegins hends =>
        simp only [List.length_append] at hbegins hends
        refine ⟨hnot, ?_, ?_⟩
        · rcases hbegins with hlength | hlast
          · exact Or.inl (List.length_eq_zero_iff.1 (by omega))
          · cases hfront : front.getLast? with
            | none => exact Or.inl (List.getLast?_eq_none_iff.1 hfront)
            | some byte =>
                rw [List.getLast?_append, hfront, Option.some_or] at hlast
                exact Or.inr (hfront.trans hlast)
        · rcases hends with hlength | hhead
          · exact Or.inl (List.length_eq_zero_iff.1 (by omega))
          · cases hback : back.head? with
            | none => exact Or.inl (List.head?_eq_none_iff.1 hback)
            | some byte =>
                rw [List.head?_append, hback, Option.some_or] at hhead
                exact Or.inr (hback.trans hhead)
  · rintro ⟨hnot, hbegins, hends⟩
    refine .ofBlock hkind hnot ?_ ?_ ?_ ?_
    · rw [List.length_append]
      omega
    · rw [List.length_append]
      omega
    · rcases hbegins with rfl | hlast
      · exact Or.inl (by rw [List.append_nil, hpre])
      · exact Or.inr (by rw [List.getLast?_append, hlast]; rfl)
    · rcases hends with rfl | hhead
      · apply Or.inl
        rw [List.length_append]
        simp only [List.length_nil] at hbody
        omega
      · exact Or.inr (by rw [List.head?_append, hhead]; rfl)

/-- The raw lines of a comment lie in the source. -/
theorem mem_rawLines_iff {span : Span} {source : Bytes} (hkind : span.kind.isComment = true)
    (hfits : span.bodyStart + (Text.encode span.closer).length ≤ span.stop)
    (hinside : span.stop ≤ source.length) {line : CommentLine} :
    line ∈ span.rawLines source ↔
      ∃ front back, source = front ++ (line.text ++ back) ∧ line.offset = front.length ∧
        span.HasRawLine front line.text back := by
  unfold rawLines
  split
  · rename_i hline
    rw [List.mem_singleton]
    exact eq_rawLine_iff hline (by omega) hinside
  · rename_i hline
    have hblock : span.kind = .blockComment := by
      cases hcase : span.kind <;> simp_all [SpanKind.isComment]
    have hstop : span.bodyStop ≤ source.length := by
      unfold bodyStop
      omega
    have hrange : span.bodyStart ≤ span.bodyStop := by
      unfold bodyStop
      omega
    have hsource := eq_take_slice_drop source hrange
    rw [← Span.body_eq_slice source (by omega)] at hsource
    have hpre : (source.take span.bodyStart).length = span.bodyStart := by
      rw [List.length_take]
      omega
    have hbody : (source.take span.bodyStart).length + (span.body source).length =
        span.bodyStop := by
      rw [hpre, Span.body_eq_slice source (by omega), length_slice hstop]
      omega
    generalize source.take span.bodyStart = pre at hsource hpre hbody
    generalize source.drop span.bodyStop = post at hsource
    rw [mem_placeLines_iff]
    constructor
    · rintro ⟨front, back, htext, hoffset, hpieces⟩
      rw [htext] at hsource hbody
      refine ⟨pre ++ front, back ++ post, by rw [hsource]; simp, ?_, ?_⟩
      · rw [List.length_append, hpre, hoffset]
      · exact (hasRawLine_append hblock hpre hbody).2 hpieces
    · rintro ⟨front, back, hpieces, hoffset, hraw⟩
      rcases hraw.bounds with ⟨hstart, -, hend⟩
      have hlength := congrArg List.length hpieces
      have hwhole := congrArg List.length hsource
      simp only [List.length_append] at hlength hwhole
      have hbound := hend hblock
      obtain ⟨inner, outer, rfl, rfl, htext⟩ :=
        append_eq_append_inside (hsource.symm.trans hpieces) (by omega) (by omega)
      refine ⟨inner, outer, htext, ?_, ?_⟩
      · rw [hoffset, List.length_append, hpre]
      · rw [htext] at hbody
        exact (hasRawLine_append hblock hpre hbody).1 hraw

/-- The lines of a comment are its stripped lines in the source. -/
theorem mem_commentLines_iff {span : Span} {source : Bytes} (hkind : span.kind.isComment = true)
    (hfits : span.bodyStart + (Text.encode span.closer).length ≤ span.stop)
    (hinside : span.stop ≤ source.length) {line : CommentLine} :
    line ∈ span.commentLines source ↔ span.HasLine source line := by
  rw [commentLines_eq, List.mem_map]
  constructor
  · rintro ⟨raw, hmem, hstrip⟩
    rcases (mem_rawLines_iff hkind hfits hinside).1 hmem with ⟨front, back, hsource, hoffset, hraw⟩
    rcases (strip_eq_iff hkind).1 hstrip with ⟨decoration, returns, hstrips, hplace⟩
    exact ⟨front, raw.text, back, decoration, returns, hsource, hraw, hstrips, by
      rw [hplace, hoffset]⟩
  · rintro ⟨front, raw, back, decoration, returns, hsource, hraw, hstrips, hoffset⟩
    refine ⟨⟨front.length, raw⟩, ?_, (strip_eq_iff hkind).2 ⟨decoration, returns, hstrips, hoffset⟩⟩
    exact (mem_rawLines_iff hkind hfits hinside).2 ⟨front, back, hsource, rfl, hraw⟩

/-- A stripped line of a comment is a part of the source. -/
theorem HasLine.exists_eq_append {span : Span} {source : Bytes} {line : CommentLine}
    (hline : span.HasLine source line) :
    ∃ before after, source = before ++ (line.text ++ after) ∧ before.length = line.offset ∧
      span.bodyStart ≤ line.offset ∧ line.offset + line.text.length ≤ span.stop := by
  rcases hline with ⟨front, raw, back, decoration, returns, rfl, hraw, ⟨rfl, -, -⟩, hoffset⟩
  rcases hraw.bounds with ⟨hstart, hstop, -⟩
  simp only [List.length_append] at hstop
  refine ⟨front ++ decoration, returns ++ back, by simp, ?_, ?_, ?_⟩
  · rw [List.length_append, hoffset]
  · omega
  · omega

/-- The lines of a comment follow each other without overlapping. -/
theorem pairwise_commentLines {span : Span} (source : Bytes)
    (hkind : span.kind.isComment = true) :
    (span.commentLines source).Pairwise fun first second =>
      first.offset + first.text.length ≤ second.offset := by
  have hstrip : ∀ raw : CommentLine, raw.offset ≤ (raw.strip span.kind).offset ∧
      (raw.strip span.kind).offset + (raw.strip span.kind).text.length ≤
        raw.offset + raw.text.length := by
    rintro ⟨offset, raw⟩
    rcases exists_strips hkind raw with ⟨decoration, text, returns, hstrips⟩
    have hlength := congrArg List.length hstrips.pieces
    simp only [List.length_append] at hlength
    rw [hstrips.strip_eq]
    simp only
    omega
  rw [commentLines_eq, List.pairwise_map, rawLines]
  split
  · exact List.pairwise_singleton _ _
  · apply (pairwise_placeLines _ _).imp
    intro first second hbetween
    have hfirst := hstrip first
    have hsecond := hstrip second
    omega

end Span

end CommentMarkers
