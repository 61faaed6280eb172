import CommentMarkers.Annotation.Extraction
import CommentMarkers.Grammar.Builtin
import CommentMarkers.Proofs.CommentHits
import CommentMarkers.Proofs.CommentLines
import CommentMarkers.Proofs.Tiling

/-!
# Extraction is exact

With every marker counting and no comments joined, extraction answers one annotation for each
place where the marker stands alone in a stripped line of a comment, in the order of the source.
The description of these places, `Span.HasMarker`, does not mention how they are searched for.

Main results:

- Theorem `annotateComment_exact`: the annotations of one comment are its markers.
- Theorem `annotations_exact`: the annotations of a source are the markers in its comments.
-/

namespace CommentMarkers

/-! ## Lists of annotations -/

/-- Holds if annotations stand in the order of their offsets, and are those of the places that a
description allows, with the issues that it gives them. -/
structure Lists (notes : List Annotation) (occurs : Nat → Option Nat → Prop) : Prop where
  sorted : notes.Pairwise fun first second => first.place.offset < second.place.offset
  exact : ∀ offset issue,
    (∃ note ∈ notes, note.place.offset = offset ∧ note.issue = issue) ↔ occurs offset issue

/-- The same places may be described in another way. -/
theorem Lists.congr {notes : List Annotation} {occurs other : Nat → Option Nat → Prop}
    (hlists : Lists notes occurs)
    (hsame : ∀ offset issue, occurs offset issue ↔ other offset issue) :
    Lists notes other :=
  ⟨hlists.sorted, fun offset issue => (hlists.exact offset issue).trans (hsame offset issue)⟩

/-- Annotations in front of others list the places in front of theirs. -/
theorem Lists.append {here more : List Annotation} {first second : Nat → Option Nat → Prop}
    (hhere : Lists here first) (hmore : Lists more second)
    (hbetween : ∀ {offset issue other otherIssue}, first offset issue → second other otherIssue →
      offset < other) :
    Lists (here ++ more) fun offset issue => first offset issue ∨ second offset issue := by
  constructor
  · refine List.pairwise_append.2 ⟨hhere.sorted, hmore.sorted, ?_⟩
    intro note hnote other hother
    exact hbetween ((hhere.exact _ _).1 ⟨note, hnote, rfl, rfl⟩)
      ((hmore.exact _ _).1 ⟨other, hother, rfl, rfl⟩)
  · intro offset issue
    rw [← hhere.exact, ← hmore.exact]
    constructor
    · rintro ⟨note, hnote, hsame⟩
      rcases List.mem_append.1 hnote with hnote | hnote
      · exact Or.inl ⟨note, hnote, hsame⟩
      · exact Or.inr ⟨note, hnote, hsame⟩
    · rintro (⟨note, hnote, hsame⟩ | ⟨note, hnote, hsame⟩)
      · exact ⟨note, List.mem_append_left _ hnote, hsame⟩
      · exact ⟨note, List.mem_append_right _ hnote, hsame⟩

/-- Without annotations there are no places. -/
theorem Lists.nil : Lists [] fun _ _ => False := by
  refine ⟨List.Pairwise.nil, fun offset issue => ?_⟩
  constructor
  · rintro ⟨note, hnote, -⟩
    cases hnote
  · intro hnone
    cases hnone

/-! ## Markers in a comment -/

variable {marker : Bytes}

/-- Each hit becomes an annotation at its offset, with its issue. -/
theorem map_annotateHits (query : Query) (source : Bytes) (span : Span) (stop : Nat)
    (lines : List CommentLine) (found : List Hit) :
    (annotateHits query source span stop lines found).map
        (fun note => (note.place.offset, note.issue)) =
      found.map fun hit => (hitOffset lines hit, hit.issue) := by
  induction found with
  | nil => rfl
  | cons hit rest ih =>
      rw [annotateHits, List.map_cons, List.map_cons, ih]
      rfl

/-- Holds where a marker stands alone in a stripped line of a comment. -/
def Span.HasMarker (span : Span) (source marker : Bytes) (offset : Nat) (issue : Option Nat) :
    Prop :=
  ∃ line start, span.HasLine source line ∧ StandsAlone marker line.text start issue ∧
    offset = line.offset + start

/-- A marker in a comment lies inside its span. -/
theorem Span.HasMarker.bounds {span : Span} {source : Bytes} {offset : Nat} {issue : Option Nat}
    (hne : marker ≠ []) (hmarker : span.HasMarker source marker offset issue) :
    span.start ≤ offset ∧ offset < span.stop := by
  rcases hmarker with ⟨line, start, hline, halone, rfl⟩
  rcases hline.exists_eq_append with ⟨before, after, -, -, hbegin, hend⟩
  rcases standsAlone_iff.1 halone with ⟨hit, hhit, rfl, -⟩
  have hinside := hhit.start_lt hne
  have hbody : span.start ≤ span.bodyStart := Nat.le_add_right _ _
  omega

/-- Only comments have markers. -/
theorem Span.HasMarker.isComment {span : Span} {source : Bytes} {offset : Nat} {issue : Option Nat}
    (hmarker : span.HasMarker source marker offset issue) : span.kind.isComment = true := by
  rcases hmarker with ⟨_, _, ⟨_, _, _, _, _, _, hraw, _⟩, _⟩
  cases hraw with
  | ofLine hkind => rw [hkind]; rfl
  | ofBlock hkind => rw [hkind]; rfl

/-- The lines of a comment of a source, in terms of the source. -/
theorem mem_commentLines_iff_of_mem_scan {grammar : Grammar} {source : Bytes} {span : Span}
    {line : CommentLine} (hspan : span ∈ (grammar.scan source).spans)
    (hkind : span.kind.isComment = true) :
    line ∈ span.commentLines source ↔ span.HasLine source line :=
  Span.mem_commentLines_iff hkind
    (isDelimited_of_mem_scan hspan (SpanKind.ne_code_of_isComment hkind)).fits
    (stop_le_of_mem_scan hspan)

/-- The query for every marker, with no comments joined. -/
def Query.every (marker : Marker) : Query :=
  ⟨marker, .all, false⟩

/-- Every hit in a comment becomes an annotation. -/
theorem annotateComment_every (marker : Marker) (source : Bytes) (span : Span)
    (following : List Span) :
    annotateComment (.every marker) source span following =
      (hits marker.bytes (span.commentLines source)).map
        (annotateHits (.every marker) source span span.stop (span.commentLines source)) := by
  change (hits marker.bytes (span.commentLines source) >>= _) = _
  cases hits marker.bytes (span.commentLines source) with
  | error fault => rfl
  | ok found =>
      cases found with
      | nil => rfl
      | cons hit rest =>
          rw [ok_bind]
          simp only [Query.continuing, Query.every, Bool.false_and, Bool.false_eq_true, if_false]
          rw [show (return [] : Except IssueTooLong (List Span)) = .ok [] from rfl, ok_bind,
            List.flatMap_nil, List.append_nil]
          rfl

/-- The annotations of one comment are its markers. -/
theorem annotateComment_exact (marker : Marker) {source : Bytes} {span : Span}
    (following : List Span) (hkind : span.kind.isComment = true)
    (hdelimited : span.IsDelimited source)
    (hinside : span.stop ≤ source.length) (hshort : HasShortReferences marker.bytes source) :
    ∃ notes, annotateComment (.every marker) source span following = .ok notes ∧
      Lists notes (span.HasMarker source marker.bytes) := by
  have hne : marker.bytes ≠ [] := marker.bytes_ne_nil
  have hmem : ∀ line, line ∈ span.commentLines source ↔ span.HasLine source line := fun _ =>
    Span.mem_commentLines_iff hkind hdelimited.fits hinside
  have hlines : ∀ line ∈ span.commentLines source, HasShortReferences marker.bytes line.text := by
    intro line hline
    rcases ((hmem line).1 hline).exists_eq_append with ⟨before, after, rfl, -⟩
    exact hshort.of_middle
  rcases exists_hitsFrom_eq_ok 0 hne hlines with ⟨found, hfound⟩
  rcases hitsFrom_exact hne marker.solid_bytes hfound with ⟨hordered, hexact⟩
  have hplaces := isHit_of_mem_hits hne marker.solid_bytes hfound
  rw [annotateComment_every, hits, hfound]
  refine ⟨_, rfl, ?_, ?_⟩
  · have hsorted : found.Pairwise fun first second =>
        hitOffset (span.commentLines source) first <
          hitOffset (span.commentLines source) second := by
      refine pairwise_hitOffset (Span.pairwise_commentLines source hkind) ?_ hordered
      intro hit hhit
      rcases hplaces hit hhit with ⟨line, hline, hplace⟩
      exact ⟨line, hline, hplace.start_lt hne⟩
    have hpairs : ((annotateHits (.every marker) source span span.stop
        (span.commentLines source) found).map fun note => (note.place.offset, note.issue)).Pairwise
          fun first second => first.1 < second.1 := by
      rw [map_annotateHits, List.pairwise_map]
      exact hsorted
    rw [List.pairwise_map] at hpairs
    exact hpairs
  · intro offset issue
    have hnotes : (∃ note ∈ annotateHits (.every marker) source span span.stop
          (span.commentLines source) found, note.place.offset = offset ∧ note.issue = issue) ↔
        (offset, issue) ∈ found.map fun hit =>
          (hitOffset (span.commentLines source) hit, hit.issue) := by
      rw [← map_annotateHits (.every marker) source span span.stop, List.mem_map]
      simp only [Prod.mk.injEq]
    rw [hnotes, List.mem_map]
    constructor
    · rintro ⟨hit, hhit, hsame⟩
      rcases Prod.mk.inj hsame with ⟨hoffset, hissue⟩
      rcases hplaces hit hhit with ⟨line, hline, hplace⟩
      refine ⟨line, hit.start, (hmem line).1 (List.mem_of_getElem? hline), ?_, ?_⟩
      · exact standsAlone_iff.2 ⟨hit.toLineHit, hplace, rfl, hissue⟩
      · rw [← hoffset, hitOffset, hline]
        rfl
    · rintro ⟨line, start, hline, halone, rfl⟩
      rcases List.mem_iff_getElem?.1 ((hmem line).2 hline) with ⟨index, hindex⟩
      rcases standsAlone_iff.1 halone with ⟨place, hplace, rfl, rfl⟩
      refine ⟨⟨place, index⟩, (hexact _).2 ⟨index, line, hindex, (Nat.zero_add _).symm, hplace⟩, ?_⟩
      rw [hitOffset, hindex]
      rfl

/-! ## Markers in a source -/

/-- The annotations of spans that tile a part of the source are the markers in the comments among
them. -/
theorem extract_exact (marker : Marker) {source : Bytes} {spans : List Span} {start stop : Nat}
    (htiles : Tiles start stop spans) (hinside : stop ≤ source.length)
    (hdelimited : ∀ span ∈ spans, span.kind ≠ .code → span.IsDelimited source)
    (hshort : HasShortReferences marker.bytes source) :
    ∃ notes, extract (.every marker) source spans = .ok notes ∧
      Lists notes fun offset issue =>
        ∃ span ∈ spans, span.HasMarker source marker.bytes offset issue := by
  have hne : marker.bytes ≠ [] := marker.bytes_ne_nil
  induction spans generalizing start with
  | nil => exact ⟨[], rfl, Lists.nil.congr (by simp)⟩
  | cons span rest ih =>
      rcases htiles with ⟨-, -, hrest⟩
      rcases List.forall_mem_cons.1 hdelimited with ⟨hfirst, hothers⟩
      rcases ih hrest hothers with ⟨more, hmore, hlists⟩
      rw [extract]
      split
      · rename_i hkind
        have hcode := SpanKind.ne_code_of_isComment hkind
        obtain ⟨here, hhere, hmarkers⟩ := annotateComment_exact marker rest hkind (hfirst hcode)
          (Nat.le_trans hrest.bounds.1 hinside) hshort
        refine ⟨here ++ more, by rw [hhere, ok_bind, hmore]; rfl, ?_⟩
        refine (hmarkers.append hlists ?_).congr (by simp)
        rintro offset issue other otherIssue hmarker ⟨follower, hfollower, hbehind⟩
        have hend := (hmarker.bounds hne).2
        have hbegin := (hbehind.bounds hne).1
        have hgap := hrest.bounds.2 follower hfollower
        omega
      · rename_i hkind
        refine ⟨more, hmore, hlists.congr ?_⟩
        intro offset issue
        have hnone : ¬ span.HasMarker source marker.bytes offset issue :=
          fun hmarker => hkind hmarker.isComment
        simp [hnone]

/-- Extraction is exact.  On a source that scans to its end and in which no marker is followed by a
reference with too many digits, every marker that stands alone in a stripped line of a comment
becomes one annotation with the issue of its reference, in the order of the source, and nothing
else does. -/
theorem annotations_exact (grammar : Grammar) (marker : Marker) (source : Bytes)
    (hcomplete : (grammar.scan source).failure = none)
    (hshort : HasShortReferences marker.bytes source) :
    ∃ notes, grammar.annotations (.every marker) source = .ok notes ∧
      Lists notes fun offset issue =>
        ∃ span ∈ (grammar.scan source).spans, span.HasMarker source marker.bytes offset issue := by
  rcases extract_exact marker (tiles_of_scan hcomplete) (Nat.le_refl _)
    (fun span => isDelimited_of_mem_scan) hshort with ⟨notes, hnotes, hlists⟩
  refine ⟨notes, ?_, hlists⟩
  rw [Grammar.annotations, Scan.complete, hcomplete]
  simp only [Except.mapError, ok_bind, hnotes]

/-- A reported marker and one that is not, in the same line comment. -/
theorem annotations_exact_two_markers :
    ∃ notes, Grammar.c.annotations (.every .todo) (Text.encode "x(); // @TODO(#12) @TODO y") =
        .ok notes ∧
      notes.map (fun note => (note.place.offset, note.issue)) = [(8, some 12), (19, none)] ∧
      Lists notes fun offset issue =>
        ∃ span ∈ (Grammar.c.scan (Text.encode "x(); // @TODO(#12) @TODO y")).spans,
          span.HasMarker (Text.encode "x(); // @TODO(#12) @TODO y") Marker.todo.bytes offset
            issue := by
  obtain ⟨notes, hnotes, hlists⟩ := annotations_exact .c .todo
    (Text.encode "x(); // @TODO(#12) @TODO y") (by decide +kernel)
    (hasShortReferences_of_length_le (by decide +kernel))
  refine ⟨notes, hnotes, ?_, hlists⟩
  have hfound : (Grammar.c.annotations (.every .todo)
      (Text.encode "x(); // @TODO(#12) @TODO y")).toOption.map
        (·.map fun note => (note.place.offset, note.issue)) = some [(8, some 12), (19, none)] := by
    decide +kernel
  rw [hnotes] at hfound
  exact Option.some.inj hfound

end CommentMarkers
