import CommentMarkers.Proofs.ClosingLocality
import CommentMarkers.Proofs.ExactExtraction
import CommentMarkers.Proofs.RemovalRanges
import CommentMarkers.Proofs.ShortReferences

/-!
# The comments of annotations

An annotation comes from a comment with hits, and its text may go on in line comments without hits
that follow that comment.  Two annotations for the same marker, or two whose texts do not go on,
therefore come from the same comment or from comments that follow each other.

Main results:

- Theorem `exists_foundIn`: every annotation was found in one of the comments of its source.
- Theorem `Annotation.FoundIn.stop_le`: the comments of annotations follow each other.
-/

namespace CommentMarkers

/-! ## Where an annotation comes from -/

variable {query : Query} {source : Bytes} {spans : List Span} {notes : List Annotation}
  {note : Annotation}

/-- Where the text of a comment stops that goes on in other comments. -/
def Span.stopWith (span : Span) (continuing : List Span) : Nat :=
  ((continuing.getLast?).map (·.stop)).getD span.stop

/-- The text stops where it stops behind the first of these comments. -/
theorem Span.stopWith_cons (span comment : Span) (more : List Span) :
    span.stopWith (comment :: more) = comment.stopWith more := by
  rw [stopWith, List.getLast?_cons, stopWith]
  cases more.getLast? <;> rfl

/-- What an annotation tells of the comment that it was found in, and of the spans behind it. -/
structure Annotation.FoundIn (note : Annotation) (query : Query) (source : Bytes) (span : Span)
    (following : List Span) : Prop where
  isComment : span.kind.isComment = true
  hits : ∃ hit rest, hits query.marker.bytes (span.commentLines source) = .ok (hit :: rest)
  marker : note.marker = query.marker
  start : note.spanStart = span.start
  stop : ∃ continuing, query.continuing source span following = .ok continuing ∧
    note.spanStop = span.stopWith continuing

/-- The annotations of hits are about the marker and the comment that they were asked for. -/
theorem of_mem_annotateHits {span : Span} {stop : Nat} {lines : List CommentLine}
    {found : List Hit} (hnote : note ∈ annotateHits query source span stop lines found) :
    note.marker = query.marker ∧ note.spanStart = span.start ∧ note.spanStop = stop := by
  induction found with
  | nil => cases hnote
  | cons hit rest ih =>
      rcases List.mem_cons.1 hnote with rfl | hmore
      · exact ⟨rfl, rfl, rfl⟩
      · exact ih hmore

/-- Every annotation was found in one of the comments among the spans. -/
theorem exists_foundIn (hnotes : extract query source spans = .ok notes) (hnote : note ∈ notes) :
    ∃ before span following, spans = before ++ span :: following ∧
      note.FoundIn query source span following := by
  induction spans generalizing notes with
  | nil =>
      cases hnotes
      cases hnote
  | cons span rest ih =>
      rw [extract_cons] at hnotes
      rcases bind_eq_ok_iff.1 hnotes with ⟨here, hhere, hbind⟩
      rcases bind_eq_ok_iff.1 hbind with ⟨more, hmore, hsame⟩
      cases hsame
      rcases List.mem_append.1 hnote with hnote | hnote
      · split at hhere
        · rename_i hkind
          rcases bind_eq_ok_iff.1 hhere with ⟨found, hfound, hannotate⟩
          cases found with
          | nil =>
              cases hannotate
              cases hnote
          | cons hit others =>
              rcases bind_eq_ok_iff.1 hannotate with ⟨continuing, hcontinuing, hsame⟩
              cases hsame
              obtain ⟨hmarker, hstart, hstop⟩ := of_mem_annotateHits hnote
              exact ⟨[], span, rest, rfl, hkind, ⟨hit, others, hfound⟩, hmarker, hstart, continuing,
                hcontinuing, hstop⟩
        · cases hhere
          cases hnote
      · rcases ih hmore hnote with ⟨before, other, following, rfl, hfound⟩
        exact ⟨span :: before, other, following, rfl, hfound⟩

/-! ## Comments that follow each other -/

/-- The comments that go on with a text stop in front of every comment behind them that has hits. -/
theorem stopWith_le_of_continuation {marker : Bytes} {continuing : List Span} {span other : Span}
    (horder : (span :: spans).Pairwise fun first second => first.stop ≤ second.start)
    (hcontinuing : continuation marker source spans = .ok continuing) (hother : other ∈ spans)
    (hkind : other.kind.isComment = true)
    (hhits : ∃ hit rest, hits marker (other.commentLines source) = .ok (hit :: rest)) :
    span.stopWith continuing ≤ other.start := by
  have hfirst := (List.pairwise_cons.1 horder).1 other hother
  fun_induction continuation marker source spans generalizing span continuing with
  | case1 gap comment rest hnext ih =>
      rcases bind_eq_ok_iff.1 hcontinuing with ⟨found, hfound, hchoice⟩
      split at hchoice
      · rename_i hempty
        rcases bind_eq_ok_iff.1 hchoice with ⟨more, hmore, hsame⟩
        cases hsame
        rcases List.mem_cons.1 hother with rfl | hother
        · simp only [Span.isLineBreak, Bool.and_eq_true, decide_eq_true_eq] at hnext
          rw [hnext.1.1.1] at hkind
          cases hkind
        · rcases List.mem_cons.1 hother with rfl | hother
          · rcases hhits with ⟨hit, others, hhits⟩
            rw [hfound] at hhits
            cases hhits
            cases hempty
          · have hrest := (List.pairwise_cons.1 (List.pairwise_cons.1 horder).2).2
            have hbehind := ih hrest hmore hother ((List.pairwise_cons.1 hrest).1 other hother)
            rw [Span.stopWith_cons]
            exact hbehind
      · cases hchoice
        exact hfirst
  | case2 =>
      cases hcontinuing
      exact hfirst
  | case3 =>
      cases hcontinuing
      exact hfirst

/-- A line comment of a source is followed by a newline or by nothing. -/
theorem newline_of_lineComment {grammar : Grammar} {span : Span}
    (hspan : span ∈ (grammar.scan source).spans) (hkind : span.kind = .lineComment) :
    ∀ byte ∈ source[span.stop]?, byte = Bytes.newline := by
  rcases List.append_of_mem hspan with ⟨before, after, hspans⟩
  rcases exists_split_of_scan hspans with
    ⟨front, lexeme, back, hsplit, rfl, rfl, rfl, hfront, hsource⟩
  have hne : lexeme.kind ≠ .code := by
    rw [show lexeme.kind = .lineComment from hkind]
    decide
  rcases (lexes_lex grammar.openers source).exists_opener hne hsplit hsource with
    ⟨opener, hopener, inner, rfl, hclosed, -⟩
  obtain ⟨token, -, rfl⟩ := Grammar.exists_ofLine hopener hkind
  have hends : Closing.EndsBefore (source.drop _) .endOfLine :=
    Closing.endsBefore_of_length trivial hclosed
  intro byte hbyte
  apply hends byte
  rwa [List.head?_drop]

/-- The comments that go on with a text are among the spans behind it, and are line comments. -/
theorem of_mem_continuation {marker : Bytes} {continuing : List Span} {comment : Span}
    (hcontinuing : continuation marker source spans = .ok continuing)
    (hcomment : comment ∈ continuing) : comment ∈ spans ∧ comment.kind = .lineComment := by
  fun_induction continuation marker source spans generalizing continuing with
  | case1 gap own rest hnext ih =>
      rcases bind_eq_ok_iff.1 hcontinuing with ⟨found, -, hchoice⟩
      split at hchoice
      · rcases bind_eq_ok_iff.1 hchoice with ⟨more, hmore, hsame⟩
        cases hsame
        rcases List.mem_cons.1 hcomment with rfl | hcomment
        · simp only [Bool.and_eq_true, decide_eq_true_eq] at hnext
          exact ⟨by simp, hnext.2⟩
        · obtain ⟨hmem, hkind⟩ := ih hmore hcomment
          exact ⟨List.mem_cons_of_mem _ (List.mem_cons_of_mem _ hmem), hkind⟩
      · cases hchoice
        cases hcomment
  | case2 =>
      cases hcontinuing
      cases hcomment
  | case3 =>
      cases hcontinuing
      cases hcomment

/-- The text of a line comment goes on in line comments behind it. -/
theorem of_mem_continuing {span comment : Span} {following continuing : List Span}
    (hcontinuing : query.continuing source span following = .ok continuing)
    (hcomment : comment ∈ continuing) :
    span.kind = .lineComment ∧ comment ∈ following ∧ comment.kind = .lineComment := by
  unfold Query.continuing at hcontinuing
  split at hcontinuing
  · rename_i hjoins
    simp only [Bool.and_eq_true, decide_eq_true_eq] at hjoins
    exact ⟨hjoins.2, of_mem_continuation hcontinuing hcomment⟩
  · cases hcontinuing
    cases hcomment

namespace Annotation.FoundIn

variable {span : Span} {following : List Span}

/-- An annotation stops where its comment stops, or where a line comment behind it stops and its own
comment is a line comment, too. -/
theorem stop_cases (hfound : note.FoundIn query source span following) :
    note.spanStop = span.stop ∨ span.kind = .lineComment ∧
      ∃ comment ∈ following, comment.kind = .lineComment ∧ note.spanStop = comment.stop := by
  rcases hfound.stop with ⟨continuing, hcontinuing, hstop⟩
  rw [hstop, Span.stopWith]
  cases hlast : continuing.getLast? with
  | none => exact Or.inl rfl
  | some comment =>
      right
      have hmem := List.mem_of_getLast? hlast
      obtain ⟨hline, hbehind, hkind⟩ := of_mem_continuing hcontinuing hmem
      exact ⟨hline, comment, hbehind, hkind, rfl⟩

/-- An annotation does not stop before its comment does. -/
theorem le_stop (hfound : note.FoundIn query source span following)
    (horder : (span :: following).Pairwise fun first second => first.stop ≤ second.start)
    (hpos : ∀ other ∈ following, other.start < other.stop) : span.stop ≤ note.spanStop := by
  rcases hfound.stop_cases with hstop | ⟨-, comment, hcomment, -, hstop⟩
  · exact Nat.le_of_eq hstop.symm
  · have hbehind := (List.pairwise_cons.1 horder).1 comment hcomment
    have hlong := hpos comment hcomment
    omega

/-- The text of an annotation stops in front of a comment behind it that has hits for its marker, or
in front of every comment behind it if texts are not joined. -/
theorem stop_le (hfound : note.FoundIn query source span following)
    (horder : (span :: following).Pairwise fun first second => first.stop ≤ second.start)
    {other : Span} (hother : other ∈ following) (hkind : other.kind.isComment = true)
    (hhits : query.join = false ∨
      ∃ hit rest, CommentMarkers.hits query.marker.bytes (other.commentLines source) =
        .ok (hit :: rest)) :
    note.spanStop ≤ other.start := by
  rcases hfound.stop with ⟨continuing, hcontinuing, hstop⟩
  rw [hstop]
  have hfirst := (List.pairwise_cons.1 horder).1 other hother
  unfold Query.continuing at hcontinuing
  split at hcontinuing
  · rename_i hjoins
    rcases hhits with hjoin | hhits
    · rw [hjoin] at hjoins
      cases hjoins
    · exact stopWith_le_of_continuation horder hcontinuing hother hkind hhits
  · cases hcontinuing
    exact hfirst

/-- There is a byte of the marker in the comment of an annotation. -/
theorem exists_solid (hfound : note.FoundIn query source span following)
    (hdelimited : span.IsDelimited source) (hinside : span.stop ≤ source.length) :
    ∃ offset byte, span.start ≤ offset ∧ offset < span.stop ∧ source[offset]? = some byte ∧
      Bytes.isBlank byte = false := by
  have hne : query.marker.bytes ≠ [] := query.marker.bytes_ne_nil
  have hsolid := query.marker.solid_bytes
  rcases hfound.hits with ⟨hit, rest, hhits⟩
  rcases isHit_of_mem_hits hne hsolid hhits hit List.mem_cons_self with
    ⟨line, hline, before, reference, behind, htext, -⟩
  have hmem := (Span.mem_commentLines_iff hfound.isComment hdelimited.fits hinside).1
    (List.mem_of_getElem? hline)
  rcases hmem.exists_eq_append with ⟨front, back, hsource, hlength, hbegin, hend⟩
  obtain ⟨byte, more, hmarker⟩ := List.exists_cons_of_ne_nil hne
  have hbody : span.start ≤ span.bodyStart := Nat.le_add_right _ _
  refine ⟨(front ++ before).length, byte, ?_, ?_, ?_, hsolid byte (by rw [hmarker]; simp)⟩
  · rw [List.length_append]
    omega
  · rw [htext, hmarker] at hend
    simp only [List.length_append, List.length_cons] at hend ⊢
    omega
  · have hsplit :
        source = (front ++ before) ++ byte :: (more ++ (reference ++ behind) ++ back) := by
      rw [hsource, htext, hmarker]
      simp
    rw [hsplit, List.getElem?_append_right (Nat.le_refl _), Nat.sub_self]
    rfl

/-- The text of an annotation in a line comment stops in front of a newline or of nothing. -/
theorem newline_of_stop {grammar : Grammar} {before : List Span}
    (hfound : note.FoundIn query source span following)
    (hspans : (grammar.scan source).spans = before ++ span :: following)
    (hkind : span.kind = .lineComment) :
    ∀ byte ∈ source[note.spanStop]?, byte = Bytes.newline := by
  rcases hfound.stop_cases with hstop | ⟨-, comment, hcomment, hcommentKind, hstop⟩
  · rw [hstop]
    exact newline_of_lineComment (by rw [hspans]; simp) hkind
  · rw [hstop]
    exact newline_of_lineComment (by rw [hspans]; simp [hcomment]) hcommentKind

end Annotation.FoundIn

/-! ## Annotations of a source -/

/-- The spans of a source with annotations tile it. -/
theorem tiles_of_annotations {grammar : Grammar}
    (hnotes : grammar.annotations query source = .ok notes) :
    Tiles 0 source.length (grammar.scan source).spans :=
  tiles_of_scan (extract_of_annotations hnotes).1

/-- Holds if a query finds an annotation in a source. -/
def Grammar.Finds (grammar : Grammar) (query : Query) (source : Bytes) (note : Annotation) : Prop :=
  ∃ notes, grammar.annotations query source = .ok notes ∧ note ∈ notes

namespace Grammar.Finds

variable {grammar : Grammar} {first second : Query} {other : Annotation}

/-- An annotation of a source was found in one of its comments, and its spans tile it. -/
theorem exists_foundIn (hfinds : grammar.Finds query source note) :
    Tiles 0 source.length (grammar.scan source).spans ∧
      ∃ before span following, (grammar.scan source).spans = before ++ span :: following ∧
        note.FoundIn query source span following := by
  rcases hfinds with ⟨notes, hnotes, hnote⟩
  have hextract := (extract_of_annotations hnotes).2
  exact ⟨tiles_of_annotations hnotes, CommentMarkers.exists_foundIn hextract hnote⟩

/-- Annotations are about the marker that was asked for. -/
theorem marker (hfinds : grammar.Finds query source note) : note.marker = query.marker := by
  rcases hfinds.exists_foundIn with ⟨-, before, span, following, -, hfound⟩
  exact hfound.marker

/-- The comment of an annotation lies in the source and has a byte of the marker in it. -/
theorem inside (hfinds : grammar.Finds query source note) :
    note.spanStop ≤ source.length ∧ note.comment.IsSolid source := by
  rcases hfinds.exists_foundIn with ⟨htiles, before, span, following, hspans, hfound⟩
  have hinside := htiles.bounds.2
  have horder := htiles.pairwise
  have hpos := htiles.start_lt_stop
  have hdelimited : ∀ span ∈ (grammar.scan source).spans, span.kind ≠ .code →
      span.IsDelimited source := fun span => isDelimited_of_mem_scan
  rw [hspans] at hinside horder hpos hdelimited
  have hown : span ∈ before ++ span :: following := by simp
  constructor
  · rcases hfound.stop_cases with hstop | ⟨-, comment, hcomment, -, hstop⟩
    · rw [hstop]
      exact (hinside span hown).2
    · rw [hstop]
      exact (hinside comment (by simp [hcomment])).2
  · obtain ⟨offset, byte, hstart, hoffset, hbyte⟩ := hfound.exists_solid
      (hdelimited span hown (SpanKind.ne_code_of_isComment hfound.isComment)) (hinside span hown).2
    have hstop := hfound.le_stop (List.pairwise_append.1 horder).2.1
      fun other hother => hpos other (by simp [hother])
    refine ⟨offset, byte, ?_, ?_, hbyte⟩
    · change note.spanStart ≤ offset
      rw [hfound.start]
      exact hstart
    · exact Nat.lt_of_lt_of_le hoffset hstop

/-- The comment of an annotation starts inside the source. -/
theorem start_le (hfinds : grammar.Finds query source note) : note.spanStart ≤ source.length := by
  rcases hfinds.inside with ⟨hstop, offset, byte, hstart, hoffset, -⟩
  exact Nat.le_trans hstart (Nat.le_trans (Nat.le_of_lt hoffset) hstop)

/-- Two annotations whose texts do not go on, or that are about the same marker, come from the same
comment or from comments that follow each other. -/
theorem stop_le (hfirst : grammar.Finds first source note)
    (hsecond : grammar.Finds second source other)
    (hsame : first.join = false ∨ first.marker = second.marker)
    (hstart : note.spanStart < other.spanStart) : note.spanStop ≤ other.spanStart := by
  rcases hfirst.exists_foundIn with ⟨htiles, before, span, following, hspans, hnote⟩
  rcases hsecond.exists_foundIn with ⟨-, front, comment, back, hagain, hother⟩
  have hmem : comment ∈ before ++ span :: following := by
    rw [← hspans, hagain]
    simp
  rw [hspans] at htiles
  rw [hnote.start, hother.start] at hstart
  rcases htiles.mem_of_start_le hmem (Nat.le_of_lt hstart) with rfl | ⟨hbehind, -⟩
  · exact absurd hstart (Nat.lt_irrefl _)
  · rw [hother.start]
    refine hnote.stop_le (List.pairwise_append.1 htiles.pairwise).2.1 hbehind hother.isComment ?_
    rcases hsame with hjoin | hmarker
    · exact Or.inl hjoin
    · right
      rw [hmarker]
      exact hother.hits

/-- Annotations from the same comment are removed with ranges that start together. -/
theorem removalRange_start_eq (hfirst : grammar.Finds first source note)
    (hsecond : grammar.Finds second source other) (hstart : note.spanStart = other.spanStart) :
    (removalRange source note.comment).start = (removalRange source other.comment).start := by
  rcases hfirst.exists_foundIn with ⟨htiles, before, span, following, hspans, hnote⟩
  rcases hsecond.exists_foundIn with ⟨-, front, comment, back, hagain, hother⟩
  have hmem : comment ∈ before ++ span :: following := by
    rw [← hspans, hagain]
    simp
  obtain rfl : comment = span := by
    rw [hspans] at htiles
    rw [hnote.start, hother.start] at hstart
    rcases htiles.mem_of_start_le hmem (Nat.le_of_eq hstart) with hsame | ⟨-, hlt⟩
    · exact hsame
    · exact absurd hlt (by rw [hstart]; exact Nat.lt_irrefl _)
  by_cases hkind : comment.kind = .lineComment
  · exact CommentMarkers.removalRange_start_eq hstart (hnote.newline_of_stop hspans hkind)
      (hother.newline_of_stop hagain hkind)
  · have hstops : note.spanStop = other.spanStop := by
      rcases hnote.stop_cases with hstop | ⟨hline, -⟩
      · rcases hother.stop_cases with hstopped | ⟨hline, -⟩
        · rw [hstop, hstopped]
        · exact absurd hline hkind
      · exact absurd hline hkind
    unfold Annotation.comment
    rw [hstart, hstops]

end Grammar.Finds

end CommentMarkers
