import CommentMarkers.Proofs.AnnotatedComments

/-!
# The hits of annotations

Every annotation was made from a hit in a comment, from the next hit of that comment that counts,
and from the comments that go on with its text.  This file takes an annotation apart into these
pieces, and says where its marker stands in the source.

Main results:

- Theorem `exists_madeFrom`: every annotation was made from a hit in one of the comments.
- Theorem `Annotation.MadeFrom.exists_marker`: the marker of an annotation stands at its offset,
  inside its comment.
-/

namespace CommentMarkers

/-! ## Making an annotation -/

/-- The lines of a comment, and those of the comments that go on with its text. -/
def Span.linesWith (span : Span) (source : Bytes) (continuing : List Span) : List CommentLine :=
  span.commentLines source ++ continuing.flatMap (·.commentLines source)

/-- The annotation for a hit in a comment.  Its text runs to the next hit, and goes on in other
comments. -/
def annotationOf (query : Query) (source : Bytes) (span : Span) (continuing : List Span)
    (hit : Hit) (next : Option Hit) : Annotation where
  marker := query.marker
  payload := Text.decode (payloadBytes (span.linesWith source continuing) hit next)
  place := span.placeOf source (hitOffset (span.linesWith source continuing) hit)
  kind := span.kind
  spanStart := span.start
  spanStop := span.stopWith continuing
  issue := hit.issue

/-- The marker of an annotation stands in the line of its hit. -/
theorem offset_annotationOf (query : Query) (source : Bytes) {span : Span} {continuing : List Span}
    {hit : Hit} (next : Option Hit) {line : CommentLine}
    (hline : (span.linesWith source continuing)[hit.line]? = some line) :
    (annotationOf query source span continuing hit next).place.offset =
      line.offset + hit.start := by
  change hitOffset (span.linesWith source continuing) hit = _
  rw [hitOffset, hline]
  rfl

/-- How an annotation was made among the spans of a source: `following` are the spans behind its
comment, and `continuing` those of them that go on with its text. -/
structure Annotation.MadeFrom (note : Annotation) (query : Query) (source : Bytes) (span : Span)
    (following continuing : List Span) (hit : Hit) (next : Option Hit) : Prop where
  isComment : span.kind.isComment = true
  continues : query.continuing source span following = .ok continuing
  counts : ∃ found front back, hits query.marker.bytes (span.commentLines source) = .ok found ∧
    query.policy.select found = front ++ hit :: back ∧ next = back.head?
  note_eq : note = annotationOf query source span continuing hit next

variable {query : Query} {source : Bytes} {spans : List Span} {notes : List Annotation}
  {note : Annotation}

/-- Each annotation of some hits was made from one of them and from the one behind it. -/
theorem exists_of_mem_annotateHits {span : Span} {continuing : List Span} {found : List Hit}
    (hnote : note ∈ annotateHits query source span (span.stopWith continuing)
      (span.linesWith source continuing) found) :
    ∃ front hit back, found = front ++ hit :: back ∧
      note = annotationOf query source span continuing hit back.head? := by
  induction found with
  | nil => cases hnote
  | cons hit rest ih =>
      rcases List.mem_cons.1 hnote with hfirst | hmore
      · exact ⟨[], hit, rest, rfl, hfirst⟩
      · obtain ⟨front, other, back, hrest, hmade⟩ := ih hmore
        exact ⟨hit :: front, other, back, by rw [hrest, List.cons_append], hmade⟩

/-- The annotations of a comment were made from its hits. -/
theorem exists_madeFrom_of_comment {span : Span} {following : List Span}
    (hkind : span.kind.isComment = true)
    (hnotes : annotateComment query source span following = .ok notes) (hnote : note ∈ notes) :
    ∃ continuing hit next, note.MadeFrom query source span following continuing hit next := by
  rcases bind_eq_ok_iff.1 hnotes with ⟨found, hfound, hannotate⟩
  cases found with
  | nil =>
      cases hannotate
      cases hnote
  | cons first others =>
      rcases bind_eq_ok_iff.1 hannotate with ⟨continuing, hcontinuing, hsame⟩
      cases hsame
      obtain ⟨front, hit, back, hselected, hmade⟩ := exists_of_mem_annotateHits hnote
      exact ⟨continuing, hit, back.head?, hkind, hcontinuing,
        ⟨first :: others, front, back, hfound, hselected, rfl⟩, hmade⟩

/-- Every annotation was made from a hit in one of the comments among the spans. -/
theorem exists_madeFrom (hnotes : extract query source spans = .ok notes) (hnote : note ∈ notes) :
    ∃ before span following continuing hit next, spans = before ++ span :: following ∧
      note.MadeFrom query source span following continuing hit next := by
  induction spans generalizing notes with
  | nil =>
      cases hnotes
      cases hnote
  | cons span rest ih =>
      rw [extract_cons] at hnotes
      rcases bind_eq_ok_iff.1 hnotes with ⟨here, hhere, hbind⟩
      rcases bind_eq_ok_iff.1 hbind with ⟨more, hmore, hsame⟩
      cases hsame
      rcases List.mem_append.1 hnote with hown | hother
      · by_cases hkind : span.kind.isComment = true
        · rw [if_pos hkind] at hhere
          obtain ⟨continuing, hit, next, hmade⟩ := exists_madeFrom_of_comment hkind hhere hown
          exact ⟨[], span, rest, continuing, hit, next, rfl, hmade⟩
        · rw [if_neg hkind] at hhere
          cases hhere
          cases hown
      · obtain ⟨before, other, following, continuing, hit, next, hrest, hmade⟩ := ih hmore hother
        exact ⟨span :: before, other, following, continuing, hit, next,
          by rw [hrest, List.cons_append], hmade⟩

/-! ## Where the marker stands -/

namespace Annotation.MadeFrom

variable {span : Span} {following continuing : List Span} {hit : Hit} {next : Option Hit}

/-- The hit of an annotation, and the next one, are hits of its comment. -/
theorem exists_hits (hmade : note.MadeFrom query source span following continuing hit next) :
    ∃ found, CommentMarkers.hits query.marker.bytes (span.commentLines source) = .ok found ∧
      hit ∈ found ∧ ∀ other ∈ next, other ∈ found := by
  obtain ⟨found, front, back, hfound, hselected, hnext⟩ := hmade.counts
  have hsubset := (query.policy.select_sublist found).subset
  rw [hselected] at hsubset
  refine ⟨found, hfound, hsubset (by simp), ?_⟩
  intro other hother
  rw [hnext] at hother
  apply hsubset
  simp [List.mem_of_mem_head? hother]

/-- The comment that an annotation was made from is one that it was found in. -/
theorem foundIn (hmade : note.MadeFrom query source span following continuing hit next) :
    note.FoundIn query source span following := by
  obtain ⟨found, hfound, hhit, -⟩ := hmade.exists_hits
  obtain ⟨first, rest, rfl⟩ := List.exists_cons_of_ne_nil (List.ne_nil_of_mem hhit)
  have hnote := hmade.note_eq
  exact {
    isComment := hmade.isComment
    hits := ⟨first, rest, hfound⟩
    marker := by rw [hnote]; rfl
    start := by rw [hnote]; rfl
    stop := ⟨continuing, hmade.continues, by rw [hnote]; rfl⟩ }

/-- The place of an annotation is the one of its offset in its comment. -/
theorem place_eq (hmade : note.MadeFrom query source span following continuing hit next) :
    note.place = span.placeOf source note.place.offset := by
  rw [hmade.note_eq]
  rfl

/-- A hit of the comment of an annotation is one of the line whose number it has. -/
theorem exists_line (hmade : note.MadeFrom query source span following continuing hit next)
    (hdelimited : span.IsDelimited source) (hinside : span.stop ≤ source.length) {other : Hit}
    (hother : other = hit ∨ other ∈ next) :
    ∃ line, (span.linesWith source continuing)[other.line]? = some line ∧
      span.HasLine source line ∧
        IsHit query.marker.bytes none 0 line.text other.toLineHit := by
  have hne : query.marker.bytes ≠ [] := query.marker.bytes_ne_nil
  obtain ⟨found, hfound, hhit, hnext⟩ := hmade.exists_hits
  have hmem : other ∈ found := by
    rcases hother with rfl | hother
    · exact hhit
    · exact hnext other hother
  obtain ⟨line, hline, hplace⟩ :=
    isHit_of_mem_hits hne query.marker.solid_bytes hfound other hmem
  refine ⟨line, ?_, ?_, hplace⟩
  · rw [Span.linesWith, List.getElem?_append_left (List.getElem?_eq_some_iff.1 hline).1]
    exact hline
  · exact (Span.mem_commentLines_iff hmade.isComment hdelimited.fits hinside).1
      (List.mem_of_getElem? hline)

/-- The marker of an annotation stands at its offset, with its issue reference behind it and
inside the comment. -/
theorem exists_marker (hmade : note.MadeFrom query source span following continuing hit next)
    (hdelimited : span.IsDelimited source) (hinside : span.stop ≤ source.length) :
    ∃ front reference behind, source = front ++ (note.marker.bytes ++ (reference ++ behind)) ∧
      note.place.offset = front.length ∧ IsReference reference note.issue ∧
      span.bodyStart ≤ front.length ∧
      front.length + note.marker.bytes.length + reference.length ≤ span.stop := by
  obtain ⟨line, hline, hhas, before, reference, behind, htext, hreference, -, -, hstart, -⟩ :=
    hmade.exists_line hdelimited hinside (Or.inl rfl)
  obtain ⟨front, back, hsource, hlength, hbegin, hend⟩ := hhas.exists_eq_append
  have hmarker : note.marker = query.marker := by
    rw [hmade.note_eq]
    rfl
  have hoffset : note.place.offset = line.offset + hit.start := by
    rw [hmade.note_eq]
    exact offset_annotationOf query source next hline
  have hissue : note.issue = hit.issue := by
    rw [hmade.note_eq]
    rfl
  rw [htext] at hsource hend
  simp only [List.length_append] at hend
  refine ⟨front ++ before, reference, behind ++ back, ?_, ?_, ?_, ?_, ?_⟩
  · rw [hsource, hmarker]
    simp only [List.append_assoc]
  · rw [hoffset, hstart, List.length_append, hlength, Nat.zero_add]
  · rw [hissue]
    exact hreference
  · rw [List.length_append]
    omega
  · rw [List.length_append, hmarker]
    omega

end Annotation.MadeFrom

/-- An annotation of a source was made from a hit in one of the comments of the source, which is
delimited and lies in it. -/
theorem Grammar.Finds.exists_madeFrom {grammar : Grammar}
    (hfinds : grammar.Finds query source note) :
    ∃ before span following continuing hit next,
      (grammar.scan source).spans = before ++ span :: following ∧
        note.MadeFrom query source span following continuing hit next ∧
          span.IsDelimited source ∧ span.stop ≤ source.length := by
  rcases hfinds with ⟨notes, hnotes, hnote⟩
  obtain ⟨before, span, following, continuing, hit, next, hspans, hmade⟩ :=
    CommentMarkers.exists_madeFrom (extract_of_annotations hnotes).2 hnote
  have hmem : span ∈ (grammar.scan source).spans := by
    rw [hspans]
    simp
  exact ⟨before, span, following, continuing, hit, next, hspans, hmade,
    isDelimited_of_mem_scan hmem (SpanKind.ne_code_of_isComment hmade.isComment),
    ((tiles_of_annotations hnotes).bounds.2 span hmem).2⟩

end CommentMarkers
