import CommentMarkers.Proofs.ReportedPurge

/-!
# References that are inserted at once

References are written one after the other, from the end of the source to its beginning.  What comes
out is the source with all of them inserted at once, each behind its marker as it stands in the
source.  This needs that the markers of different annotations never overlap.  It is so for different
markers, too, since a marker begins behind a blank and has no blank inside.

Main results:

- Theorem `StandsAlone.apart`: a marker that stands alone does not begin inside another one.
- Theorem `Grammar.Finds.markerStop_le`: the markers of annotations do not overlap.
- Theorem `Written.write`: one more reference in front of those that are written.
- Theorem `writeReferences_inserts`: all references are inserted at once, in whatever order they are
  given.
-/

namespace CommentMarkers

/-! ## Markers that do not overlap -/

/-- Where two markers stand alone in a text, the second one does not begin inside the first one. -/
theorem StandsAlone.apart {marker other text : Bytes} {start otherStart : Nat}
    {issue otherIssue : Option Nat} (hfirst : StandsAlone marker text start issue)
    (hsecond : StandsAlone other text otherStart otherIssue) (hsolid : Solid marker)
    (hless : start < otherStart) : start + marker.length ≤ otherStart := by
  obtain ⟨hit, hhit, rfl, -⟩ := standsAlone_iff.1 hfirst
  obtain ⟨second, hother, rfl, -⟩ := standsAlone_iff.1 hsecond
  have hapart := hhit.stop_le_start hsolid hother hless
  obtain ⟨_, reference, _, -, -, -, -, -, hstop⟩ := hhit
  omega

/-- A marker that stands alone ends inside its text. -/
theorem StandsAlone.stop_le {marker text : Bytes} {start : Nat} {issue : Option Nat}
    (halone : StandsAlone marker text start issue) : start + marker.length ≤ text.length := by
  obtain ⟨before, reference, behind, rfl, rfl, -⟩ := halone
  simp only [List.length_append]
  omega

namespace Span.HasMarker

variable {grammar : Grammar} {source marker mark : Bytes} {span other : Span}
  {offset otherOffset : Nat} {issue otherIssue : Option Nat}

/-- A marker in a comment ends inside its span. -/
theorem stop_le (hmarker : span.HasMarker source marker offset issue) :
    offset + marker.length ≤ span.stop := by
  obtain ⟨line, start, hline, halone, rfl⟩ := hmarker
  obtain ⟨front, back, -, -, -, hend⟩ := hline.exists_eq_append
  have hinside := halone.stop_le
  omega

/-- Of two markers in the comments of a source, the second one does not begin inside the first
one. -/
theorem apart (hspan : span ∈ (grammar.scan source).spans)
    (hother : other ∈ (grammar.scan source).spans)
    (hfirst : span.HasMarker source marker offset issue)
    (hsecond : other.HasMarker source mark otherOffset otherIssue) (hsolid : Solid marker)
    (hne : marker ≠ []) (hmark : mark ≠ []) (hless : offset < otherOffset) :
    offset + marker.length ≤ otherOffset := by
  have hstop := hfirst.stop_le
  have hbegin := (hsecond.bounds hmark).1
  rcases (tiles_textOf grammar source).eq_or_apart hspan hother with rfl | hbefore | hbehind
  · have hkind := hfirst.isComment
    obtain ⟨line, start, hline, halone, rfl⟩ := hfirst
    obtain ⟨otherLine, otherStart, hotherLine, hotherAlone, rfl⟩ := hsecond
    obtain ⟨index, hindex, rfl⟩ :=
      List.mem_iff_getElem.1 ((mem_commentLines_iff_of_mem_scan hspan hkind).2 hline)
    obtain ⟨otherIndex, hotherIndex, rfl⟩ :=
      List.mem_iff_getElem.1 ((mem_commentLines_iff_of_mem_scan hspan hkind).2 hotherLine)
    have hordered := List.pairwise_iff_getElem.1 (Span.pairwise_commentLines source hkind)
    have hinside := halone.stop_le
    rcases Nat.lt_trichotomy index otherIndex with hbefore | rfl | hbehind
    · have hlines := hordered index otherIndex hindex hotherIndex hbefore
      omega
    · have hapart := halone.apart hotherAlone hsolid (Nat.lt_of_add_lt_add_left hless)
      omega
    · have hlines := hordered otherIndex index hotherIndex hindex hbehind
      have hotherInside := hotherAlone.stop_le
      omega
  · omega
  · have hend := hsecond.stop_le
    have hstart := (hfirst.bounds hne).1
    omega

end Span.HasMarker

/-- An annotation was made from a marker in a comment. -/
theorem Annotation.MadeFrom.hasMarker {note : Annotation} {query : Query} {source : Bytes}
    {span : Span} {following continuing : List Span} {hit : Hit} {next : Option Hit}
    (hmade : note.MadeFrom query source span following continuing hit next)
    (hdelimited : span.IsDelimited source) (hinside : span.stop ≤ source.length) :
    span.HasMarker source query.marker.bytes note.place.offset note.issue := by
  obtain ⟨line, hline, hhas, hhit⟩ := hmade.exists_line hdelimited hinside (Or.inl rfl)
  have hissue : note.issue = hit.issue := by
    rw [hmade.note_eq]
    rfl
  refine ⟨line, hit.start, hhas, standsAlone_iff.2 ⟨hit.toLineHit, hhit, rfl, hissue.symm⟩, ?_⟩
  rw [hmade.note_eq]
  exact offset_annotationOf query source next hline

namespace Grammar.Finds

variable {grammar : Grammar} {query otherQuery : Query} {source : Bytes} {note other : Annotation}

/-- The marker of an annotation is one in a comment of the source. -/
theorem exists_hasMarker (hfinds : grammar.Finds query source note) :
    ∃ span ∈ (grammar.scan source).spans,
      span.HasMarker source note.marker.bytes note.place.offset note.issue := by
  obtain ⟨before, span, following, continuing, hit, next, hspans, hmade, hdelimited, hinside⟩ :=
    hfinds.exists_madeFrom
  refine ⟨span, by simp [hspans], ?_⟩
  rw [hfinds.marker]
  exact hmade.hasMarker hdelimited hinside

/-- The markers of annotations do not overlap, whatever queries found them. -/
theorem markerStop_le (hnote : grammar.Finds query source note)
    (hother : grammar.Finds otherQuery source other)
    (hless : note.place.offset < other.place.offset) :
    note.markerStop ≤ other.place.offset := by
  obtain ⟨span, hspan, hmarker⟩ := hnote.exists_hasMarker
  obtain ⟨otherSpan, hotherSpan, hotherMarker⟩ := hother.exists_hasMarker
  exact hmarker.apart hspan hotherSpan hotherMarker note.marker.solid_bytes
    note.marker.bytes_ne_nil other.marker.bytes_ne_nil hless

/-- The marker of an annotation stops inside the source. -/
theorem markerStop_le_length (hfinds : grammar.Finds query source note) :
    note.markerStop ≤ source.length := by
  obtain ⟨before, byte, behind, rfl, hstop, -⟩ := hfinds.exists_markerStop
  rw [hstop, List.length_append, List.length_cons]
  omega

end Grammar.Finds

/-! ## Inserting at once -/

namespace Bytes

/-- A text with pieces inserted at once.  The piece of an offset stands in front of the byte at this
offset of the text, and that of its length at the end. -/
def withPieces : Bytes → (Nat → Bytes) → Bytes
  | [], pieces => pieces 0
  | byte :: rest, pieces => pieces 0 ++ byte :: withPieces rest fun offset => pieces (offset + 1)

variable {pieces others : Nat → Bytes}

/-- Only the pieces of the offsets up to the length of the text are inserted. -/
theorem withPieces_congr {text : Bytes}
    (hsame : ∀ offset ≤ text.length, pieces offset = others offset) :
    text.withPieces pieces = text.withPieces others := by
  induction text generalizing pieces others with
  | nil => exact hsame 0 (Nat.le_refl _)
  | cons byte rest ih =>
      rw [withPieces, withPieces, hsame 0 (Nat.zero_le _),
        ih fun offset hoffset => hsame (offset + 1) (Nat.succ_le_succ hoffset)]

/-- Without pieces the text stays as it is. -/
theorem withPieces_nil (text : Bytes) : (text.withPieces fun _ => []) = text := by
  induction text with
  | nil => rfl
  | cons byte rest ih => rw [withPieces, ih, List.nil_append]

/-- A front that gets no pieces stays as it is. -/
theorem withPieces_append {front : Bytes} (hnone : ∀ offset < front.length, pieces offset = [])
    (back : Bytes) :
    (front ++ back).withPieces pieces =
      front ++ back.withPieces fun offset => pieces (front.length + offset) := by
  induction front generalizing pieces with
  | nil => simp only [List.nil_append, List.length_nil, Nat.zero_add]
  | cons byte rest ih =>
      have hrest := ih fun offset hoffset => hnone (offset + 1) (Nat.succ_lt_succ hoffset)
      rw [List.cons_append, withPieces, hnone 0 (Nat.zero_lt_succ _), hrest]
      simp only [List.nil_append, List.cons_append, List.length_cons, Nat.add_right_comm]

/-- The first piece stands in front of the others. -/
theorem withPieces_first (text : Bytes) (pieces : Nat → Bytes) :
    text.withPieces pieces =
      pieces 0 ++ text.withPieces fun offset => if offset = 0 then [] else pieces offset := by
  cases text with
  | nil => exact (List.append_nil _).symm
  | cons byte rest => rfl

end Bytes

/-- The references that are inserted at an offset of the source. -/
def piecesAt (assignments : List Assignment) (offset : Nat) : Bytes :=
  (assignments.filter (·.note.markerStop = offset)).flatMap fun assignment =>
    referenceText assignment.issue

/-- Where a reference stands once all references are written. -/
def writtenRange (assignments : List Assignment) (assignment : Assignment) : ByteRange :=
  let start := assignment.note.markerStop +
    insertedBefore assignments assignment.note.place.offset
  ⟨start, start + (referenceText assignment.issue).length⟩

/-- Holds of a source that has the references of assignments inserted behind their markers, all at
once.  They can be seen in it, and without them it is the source again. -/
structure Written (source : Bytes) (assignments : List Assignment) (marked : Bytes) : Prop where
  inserted : marked = source.withPieces (piecesAt assignments)
  shown : ∀ assignment ∈ assignments,
    Bytes.slice marked (writtenRange assignments assignment).start
        (writtenRange assignments assignment).stop =
      referenceText assignment.issue
  undone :
    marked.without (ByteRange.covers (assignments.map (writtenRange assignments))) = source

/-! ## One reference after the other -/

variable {source : Bytes} {assignment other : Assignment} {assignments done : List Assignment}

/-- No references are inserted where no marker stops. -/
theorem piecesAt_eq_nil {offset : Nat}
    (hnone : ∀ assignment ∈ assignments, assignment.note.markerStop ≠ offset) :
    piecesAt assignments offset = [] := by
  rw [piecesAt, List.filter_eq_nil_iff.2 (by simpa using hnone), List.flatMap_nil]

/-- A reference is the first one that is inserted where its marker stops. -/
theorem piecesAt_cons_self (assignment : Assignment) (done : List Assignment) :
    piecesAt (assignment :: done) assignment.note.markerStop =
      referenceText assignment.issue ++ piecesAt done assignment.note.markerStop := by
  rw [piecesAt, List.filter_cons_of_pos (by simp), List.flatMap_cons, piecesAt]

/-- A reference is not inserted anywhere else. -/
theorem piecesAt_cons_of_ne {offset : Nat} (hne : assignment.note.markerStop ≠ offset) :
    piecesAt (assignment :: done) offset = piecesAt done offset := by
  rw [piecesAt, List.filter_cons_of_neg (by simpa using hne), piecesAt]

/-- Nothing is written yet. -/
theorem Written.nil (source : Bytes) : Written source [] source where
  inserted := (Bytes.withPieces_nil source).symm
  shown _ hnone := absurd hnone List.not_mem_nil
  undone := Bytes.without_eq_self fun _ _ => rfl

/-- A reference in front of those that are written stands directly behind its marker. -/
theorem writtenRange_cons_self (hbefore : ∀ other ∈ done,
      assignment.note.place.offset < other.note.place.offset) :
    writtenRange (assignment :: done) assignment =
      ⟨assignment.note.markerStop,
        assignment.note.markerStop + (referenceText assignment.issue).length⟩ := by
  have hnone : insertedBefore (assignment :: done) assignment.note.place.offset = 0 := by
    rw [insertedBefore, List.filter_eq_nil_iff.2, List.map_nil, List.sum_nil]
    intro other hother
    rw [decide_eq_true_eq]
    rcases List.mem_cons.1 hother with rfl | hother
    · exact Nat.lt_irrefl _
    · exact Nat.lt_asymm (hbefore other hother)
  rw [writtenRange, hnone, Nat.add_zero]

/-- The references that are written move by a reference in front of them. -/
theorem writtenRange_cons (hless : assignment.note.place.offset < other.note.place.offset)
    (hstop : assignment.note.markerStop ≤ other.note.place.offset) :
    writtenRange (assignment :: done) other =
      (writtenRange done other).shifted assignment.note.markerStop
        (referenceText assignment.issue).length := by
  have hmore : insertedBefore (assignment :: done) other.note.place.offset =
      (referenceText assignment.issue).length + insertedBefore done other.note.place.offset := by
    rw [insertedBefore, List.filter_cons_of_pos (by simpa using hless), List.map_cons,
      List.sum_cons, insertedBefore]
  have hbehind : assignment.note.markerStop ≤ other.note.markerStop :=
    Nat.le_trans hstop (Nat.le_add_right _ _)
  rw [writtenRange, writtenRange, ByteRange.shifted_behind (by omega) (by omega), hmore]
  simp only [ByteRange.mk.injEq]
  omega

/-- A reference in front of those that are inserted splits the text where its marker stops. -/
theorem exists_withPieces_cons (hinside : assignment.note.markerStop ≤ source.length)
    (hstops : ∀ other ∈ done, assignment.note.markerStop < other.note.markerStop) :
    ∃ front back, front.length = assignment.note.markerStop ∧
      source.withPieces (piecesAt done) = front ++ back ∧
        source.withPieces (piecesAt (assignment :: done)) =
          front ++ (referenceText assignment.issue ++ back) := by
  obtain ⟨front, rest, rfl, hfront⟩ : ∃ front rest, source = front ++ rest ∧
      front.length = assignment.note.markerStop :=
    ⟨_, _, (List.take_append_drop _ _).symm, by rw [List.length_take, Nat.min_eq_left hinside]⟩
  have hnone : ∀ offset ≤ front.length, piecesAt done offset = [] :=
    fun offset hoffset => piecesAt_eq_nil fun other hother hsame => by
      have hstop := hstops other hother
      omega
  have hbefore : ∀ offset < front.length, piecesAt (assignment :: done) offset = [] := by
    intro offset hoffset
    rw [piecesAt_cons_of_ne (by omega), hnone offset (Nat.le_of_lt hoffset)]
  refine ⟨front, _, hfront,
    Bytes.withPieces_append (fun offset hoffset => hnone offset (Nat.le_of_lt hoffset)) rest, ?_⟩
  rw [Bytes.withPieces_append hbefore, Bytes.withPieces_first, Nat.add_zero, hfront,
    piecesAt_cons_self, ← hfront, hnone _ (Nat.le_refl _), List.append_nil]
  congr 2
  apply Bytes.withPieces_congr
  intro offset _
  split
  · next hzero => rw [hzero, Nat.add_zero, hnone _ (Nat.le_refl _)]
  · next hne => rw [piecesAt_cons_of_ne (by omega)]

/-- One more reference in front of those that are written. -/
theorem Written.write {edited : Bytes} (hunreported : assignment.note.issue = none)
    (hshort : isTooLong assignment.issue = false)
    (hinside : assignment.note.markerStop ≤ source.length)
    (hbefore : ∀ other ∈ done, assignment.note.place.offset < other.note.place.offset)
    (hapart : ∀ other ∈ done, assignment.note.markerStop ≤ other.note.place.offset)
    (hwritten : Written source done edited) :
    ∃ marked, assignment.write edited = .ok marked ∧
      Written source (assignment :: done) marked := by
  have hstops : ∀ other ∈ done, assignment.note.markerStop < other.note.markerStop :=
    fun other hother => Nat.lt_of_le_of_lt (hapart other hother)
      (Nat.lt_add_of_pos_right other.note.marker.length_bytes_pos)
  obtain ⟨front, back, hfront, hedited, hmarked⟩ := exists_withPieces_cons hinside hstops
  obtain rfl := hwritten.inserted.trans hedited
  refine ⟨front ++ (referenceText assignment.issue ++ back), ?_, hmarked.symm, ?_, ?_⟩
  · rw [Assignment.write_eq_ok_iff, ← hfront, Bytes.insert_append]
    exact ⟨hunreported, hshort, rfl⟩
  · intro other hother
    rcases List.mem_cons.1 hother with rfl | hother
    · rw [writtenRange_cons_self hbefore, ← hfront]
      exact slice_middle front _ back
    · have hstart : front.length ≤ (writtenRange done other).start := by
        rw [hfront]
        exact Nat.le_trans (Nat.le_of_lt (hstops other hother)) (Nat.le_add_right _ _)
      have hstop : front.length ≤ (writtenRange done other).stop :=
        Nat.le_trans hstart (Nat.le_add_right _ _)
      rw [writtenRange_cons (hbefore other hother) (hapart other hother), ← hfront,
        ByteRange.shifted, shiftedOffset_of_le hstart, shiftedOffset_of_le hstop,
        slice_behind hstart]
      exact hwritten.shown other hother
  · have hranges : done.map (writtenRange (assignment :: done)) =
        (done.map (writtenRange done)).map
          (·.shifted front.length (referenceText assignment.issue).length) := by
      rw [List.map_map, hfront]
      exact List.map_congr_left fun other hother =>
        writtenRange_cons (hbefore other hother) (hapart other hother)
    rw [List.map_cons, writtenRange_cons_self hbefore, hranges, ← hfront]
    -- The new range has the bytes of the reference, and no others move there.
    refine (without_inserted ?_ ?_ back).trans hwritten.undone
    · intro offset
      rw [ByteRange.covers, List.any_cons, ByteRange.not_contains_shiftedOffset, Bool.false_or]
      exact covers_shifted _ _ _ offset
    · intro offset hoffset
      refine List.any_eq_true.2 ⟨_, List.mem_cons_self, ByteRange.contains_iff.2 ?_⟩
      exact ⟨Nat.le_add_right _ _, Nat.add_lt_add_left hoffset _⟩

/-! ## All references -/

/-- Lists of assignments to different places insert the same pieces in any order. -/
theorem piecesAt_perm {first second : List Assignment} (hperm : first.Perm second)
    (hdistinct : (first.map (·.note.markerStop)).Nodup) : piecesAt first = piecesAt second := by
  funext offset
  suffices hsame : first.filter (·.note.markerStop = offset) =
      second.filter (·.note.markerStop = offset) by
    rw [piecesAt, piecesAt, hsame]
  have hapart := List.pairwise_map.1 hdistinct
  have hothers := List.pairwise_map.1 ((hperm.map _).nodup_iff.1 hdistinct)
  -- At most one marker stops at the offset, so there is nothing to be sorted.
  refine List.Perm.eq_of_pairwise ?_ (hapart.filter _) (hothers.filter _) (hperm.filter _)
  intro assignment other hassigned hother hne
  have hstop := (List.mem_filter.1 hassigned).2
  have hotherStop := (List.mem_filter.1 hother).2
  rw [decide_eq_true_eq] at hstop hotherStop
  exact absurd (hstop.trans hotherStop.symm) hne

/-- The order of the assignments does not matter for what is written. -/
theorem Written.perm {first second : List Assignment} {marked : Bytes}
    (hwritten : Written source first marked) (hperm : first.Perm second)
    (hdistinct : (first.map (·.note.markerStop)).Nodup) : Written source second marked := by
  have hranges : writtenRange first = writtenRange second := by
    funext assignment
    rw [writtenRange, writtenRange, insertedBefore_perm hperm]
  refine ⟨?_, ?_, ?_⟩
  · rw [← piecesAt_perm hperm hdistinct]
    exact hwritten.inserted
  · intro assignment hassigned
    rw [← hranges]
    exact hwritten.shown assignment (hperm.mem_iff.2 hassigned)
  · rw [← hranges, ← hwritten.undone]
    apply Bytes.without_congr
    intro offset _
    exact ByteRange.covers_congr (fun range => (hperm.map _).symm.mem_iff) offset

/-- Holds of the fault that names the last one of the annotations that have an issue already. -/
def NamesLastReported (assignments : List Assignment) (fault : ReportFault) : Prop :=
  ∃ assignment ∈ assignments, ∃ issue, assignment.note.issue = some issue ∧
    fault = .alreadyReported assignment.note.place.line assignment.note.place.column issue ∧
      ∀ other ∈ assignments, other.note.isReported = true →
        other.note.place.offset ≤ assignment.note.place.offset

/-- An annotation without an issue is not reported. -/
theorem Annotation.isReported_eq_false_iff {note : Annotation} :
    note.isReported = false ↔ note.issue = none := by
  rw [isReported, Option.isSome_eq_false_iff, Option.isNone_iff_eq_none]

/-- Writing references one after the other stops at the first annotation that has an issue. -/
theorem foldlM_write_reported (source : Bytes)
    (hshort : ∀ assignment ∈ assignments, isTooLong assignment.issue = false)
    (hsorted : assignments.Pairwise fun first second =>
      second.note.place.offset < first.note.place.offset)
    (hreported : ∃ assignment ∈ assignments, assignment.note.isReported = true) :
    ∃ fault, assignments.foldlM Assignment.write source = .error fault ∧
      NamesLastReported assignments fault := by
  induction assignments generalizing source with
  | nil =>
      obtain ⟨assignment, hnone, -⟩ := hreported
      cases hnone
  | cons first rest ih =>
      rcases List.forall_mem_cons.1 hshort with ⟨hfirst, hrest⟩
      rcases List.pairwise_cons.1 hsorted with ⟨hless, hsorted⟩
      cases hissue : first.note.issue with
      | some issue =>
          refine ⟨.alreadyReported first.note.place.line first.note.place.column issue, ?_, ?_⟩
          · rw [List.foldlM_cons, Assignment.write, hissue]
            rfl
          · refine ⟨first, List.mem_cons_self, issue, hissue, rfl, ?_⟩
            intro other hother _
            rcases List.mem_cons.1 hother with rfl | hother
            · exact Nat.le_refl _
            · exact Nat.le_of_lt (hless other hother)
      | none =>
          have hunreported := Annotation.isReported_eq_false_iff.2 hissue
          obtain ⟨assignment, hassigned, hown⟩ := hreported
          have hmem : assignment ∈ rest := by
            rcases List.mem_cons.1 hassigned with rfl | hassigned
            · rw [hunreported] at hown
              cases hown
            · exact hassigned
          obtain ⟨fault, hfault, last, hlast, issue, hlastIssue, rfl, hbehind⟩ :=
            ih _ hrest hsorted ⟨assignment, hmem, hown⟩
          refine ⟨_, ?_, last, List.mem_cons_of_mem _ hlast, issue, hlastIssue, rfl, ?_⟩
          · rw [List.foldlM_cons, Assignment.write_eq_ok_iff.2 ⟨hissue, hfirst, rfl⟩, ok_bind]
            exact hfault
          · intro other hother hotherReported
            rcases List.mem_cons.1 hother with rfl | hother
            · rw [hunreported] at hotherReported
              cases hotherReported
            · exact hbehind other hother hotherReported

variable {grammar : Grammar}

/-- Annotations at different offsets have markers that stop at different places. -/
theorem nodup_markerStop
    (hfinds : ∀ assignment ∈ assignments, ∃ query, grammar.Finds query source assignment.note)
    (hdistinct : (assignments.map (·.note.place.offset)).Nodup) :
    (assignments.map (·.note.markerStop)).Nodup := by
  refine List.pairwise_map.2 ((List.pairwise_map.1 hdistinct).imp_of_mem ?_)
  intro first second hfirst hsecond hne hsame
  obtain ⟨query, hfirstFinds⟩ := hfinds first hfirst
  obtain ⟨otherQuery, hsecondFinds⟩ := hfinds second hsecond
  have hfirstPos := first.note.marker.length_bytes_pos
  have hsecondPos := second.note.marker.length_bytes_pos
  rcases Nat.lt_or_gt_of_ne hne with hless | hless
  · have hstop := hfirstFinds.markerStop_le hsecondFinds hless
    unfold Annotation.markerStop at hsame hstop
    omega
  · have hstop := hsecondFinds.markerStop_le hfirstFinds hless
    unfold Annotation.markerStop at hsame hstop
    omega

/-- All references can be written to annotations that have no issue. -/
theorem exists_written
    (hfinds : ∀ assignment ∈ assignments, ∃ query, grammar.Finds query source assignment.note)
    (hdistinct : (assignments.map (·.note.place.offset)).Nodup)
    (hshort : ∀ assignment ∈ assignments, isTooLong assignment.issue = false)
    (hunreported : ∀ assignment ∈ assignments, assignment.note.issue = none) :
    ∃ marked, writeReferences source assignments = .ok marked ∧
      Written source assignments marked := by
  have hperm := List.mergeSort_perm assignments Assignment.notBefore
  -- What is written belongs to the assignments, so that its markers do not overlap the next one.
  let holds : List Assignment → Bytes → Prop := fun done edited =>
    (∀ other ∈ done, other ∈ assignments) ∧ Written source done edited
  have hstep : ∀ assignment ∈ assignments.mergeSort Assignment.notBefore, ∀ done edited,
      (∀ other ∈ done, assignment.note.place.offset < other.note.place.offset) →
        holds done edited →
          ∃ marked, assignment.write edited = .ok marked ∧ holds (assignment :: done) marked := by
    rintro assignment hassigned done edited hbefore ⟨hknown, hwritten⟩
    have hassigned := hperm.mem_iff.1 hassigned
    obtain ⟨query, hown⟩ := hfinds assignment hassigned
    have hapart : ∀ other ∈ done, assignment.note.markerStop ≤ other.note.place.offset := by
      intro other hother
      obtain ⟨otherQuery, hotherFinds⟩ := hfinds other (hknown other hother)
      exact hown.markerStop_le hotherFinds (hbefore other hother)
    obtain ⟨marked, hmarked, hmore⟩ := hwritten.write (hunreported assignment hassigned)
      (hshort assignment hassigned) hown.markerStop_le_length hbefore hapart
    exact ⟨marked, hmarked, List.forall_mem_cons.2 ⟨hassigned, hknown⟩, hmore⟩
  have hstart : holds [] source :=
    ⟨fun _ hnone => absurd hnone List.not_mem_nil, Written.nil source⟩
  obtain ⟨marked, hmarked, -, hwritten⟩ := foldlM_write hstep
    (pairwise_mergeSort_of_nodup hdistinct) (fun _ _ _ hnone => by cases hnone) hstart
  rw [List.append_nil] at hwritten
  have hall := (List.reverse_perm _).trans hperm
  refine ⟨marked, hmarked, hwritten.perm hall ?_⟩
  exact (hall.map _).nodup_iff.2 (nodup_markerStop hfinds hdistinct)

/-- No reference is written if one of the annotations has an issue already. -/
theorem writeReferences_reported (hdistinct : (assignments.map (·.note.place.offset)).Nodup)
    (hshort : ∀ assignment ∈ assignments, isTooLong assignment.issue = false)
    (hreported : ∃ assignment ∈ assignments, assignment.note.isReported = true)
    (source : Bytes) :
    ∃ fault, writeReferences source assignments = .error fault ∧
      NamesLastReported assignments fault := by
  have hperm := List.mergeSort_perm assignments Assignment.notBefore
  obtain ⟨reported, hmem, hown⟩ := hreported
  obtain ⟨fault, hfault, last, hlast, issue, hissue, hsame, hbehind⟩ :=
    foldlM_write_reported source
      (fun assignment hassigned => hshort assignment (hperm.mem_iff.1 hassigned))
      (pairwise_mergeSort_of_nodup hdistinct) ⟨reported, hperm.mem_iff.2 hmem, hown⟩
  exact ⟨fault, hfault, last, hperm.mem_iff.1 hlast, issue, hissue, hsame,
    fun other hother => hbehind other (hperm.mem_iff.2 hother)⟩

/-- Assignments to annotations at different offsets are written in the same order, however they are
given. -/
theorem writeReferences_perm {others : List Assignment} (hperm : others.Perm assignments)
    (hdistinct : (assignments.map (·.note.place.offset)).Nodup) (source : Bytes) :
    writeReferences source others = writeReferences source assignments := by
  have hsorted := pairwise_mergeSort_of_nodup hdistinct
  have hothers := pairwise_mergeSort_of_nodup ((hperm.map _).nodup_iff.2 hdistinct)
  have hsame : others.mergeSort Assignment.notBefore =
      assignments.mergeSort Assignment.notBefore := by
    refine List.Perm.eq_of_pairwise ?_ hothers hsorted
      ((List.mergeSort_perm _ _).trans (hperm.trans (List.mergeSort_perm _ _).symm))
    intro first second _ _ hfirst hsecond
    exact absurd hfirst (Nat.lt_asymm hsecond)
  rw [writeReferences, hsame, writeReferences]

/-- All references are inserted at once, in whatever order they are given.  The annotations stand at
different offsets, and each of them is found by some query; the issues are short enough.  Then the
references are written exactly if none of the annotations has an issue already. -/
theorem writeReferences_inserts
    (hfinds : ∀ assignment ∈ assignments, ∃ query, grammar.Finds query source assignment.note)
    (hdistinct : (assignments.map (·.note.place.offset)).Nodup)
    (hshort : ∀ assignment ∈ assignments, isTooLong assignment.issue = false) :
    ((∃ fault, writeReferences source assignments = .error fault) ↔
        ∃ assignment ∈ assignments, assignment.note.isReported = true) ∧
      (∀ fault, writeReferences source assignments = .error fault →
        NamesLastReported assignments fault) ∧
      (∀ marked, writeReferences source assignments = .ok marked →
        Written source assignments marked) ∧
      ∀ others, List.Perm others assignments →
        writeReferences source others = writeReferences source assignments := by
  have hsame : ∀ others, List.Perm others assignments →
      writeReferences source others = writeReferences source assignments :=
    fun others hperm => writeReferences_perm hperm hdistinct source
  by_cases hreported : ∃ assignment ∈ assignments, assignment.note.isReported = true
  · obtain ⟨fault, hfault, hnames⟩ :=
      writeReferences_reported hdistinct hshort hreported source
    refine ⟨⟨fun _ => hreported, fun _ => ⟨fault, hfault⟩⟩, ?_, ?_, hsame⟩
    · intro other hother
      rw [hfault] at hother
      cases hother
      exact hnames
    · intro marked hmarked
      rw [hfault] at hmarked
      cases hmarked
  · have hunreported : ∀ assignment ∈ assignments, assignment.note.issue = none := by
      intro assignment hassigned
      rw [← Annotation.isReported_eq_false_iff, ← Bool.not_eq_true]
      exact fun hown => hreported ⟨assignment, hassigned, hown⟩
    obtain ⟨marked, hmarked, hwritten⟩ := exists_written hfinds hdistinct hshort hunreported
    refine ⟨⟨?_, fun hown => absurd hown hreported⟩, ?_, ?_, hsame⟩
    · rintro ⟨fault, hfault⟩
      rw [hmarked] at hfault
      cases hfault
    · intro fault hfault
      rw [hmarked] at hfault
      cases hfault
    · intro other hother
      rw [hmarked] at hother
      cases hother
      exact hwritten

/-- Two annotations of one comment, with different markers that stand next to each other, in either
order. -/
theorem writeReferences_inserts_two_markers :
    ∃ first second marked,
      Grammar.c.annotations ⟨.todo, .all, true⟩ (Text.encode "x; // @TODO @NOTE a") =
          .ok [first] ∧
        Grammar.c.annotations ⟨.note, .first, false⟩ (Text.encode "x; // @TODO @NOTE a") =
          .ok [second] ∧
        writeReferences (Text.encode "x; // @TODO @NOTE a") [⟨first, 12⟩, ⟨second, 7⟩] =
          .ok marked ∧
        writeReferences (Text.encode "x; // @TODO @NOTE a") [⟨second, 7⟩, ⟨first, 12⟩] =
          .ok marked ∧
        Written (Text.encode "x; // @TODO @NOTE a") [⟨first, 12⟩, ⟨second, 7⟩] marked ∧
        marked = Text.encode "x; // @TODO(#12) @NOTE(#7) a" := by
  let first : Annotation := ⟨.todo, "@NOTE a", ⟨6, 1, 7⟩, .lineComment, 3, 19, none⟩
  let second : Annotation := ⟨.note, "a", ⟨12, 1, 13⟩, .lineComment, 3, 19, none⟩
  have hfirst : Grammar.c.annotations ⟨.todo, .all, true⟩ (Text.encode "x; // @TODO @NOTE a") =
      .ok [first] := by
    decide +kernel
  have hsecond : Grammar.c.annotations ⟨.note, .first, false⟩
      (Text.encode "x; // @TODO @NOTE a") = .ok [second] := by
    decide +kernel
  have hfinds : ∀ assignment ∈ [Assignment.mk first 12, Assignment.mk second 7],
      ∃ query, Grammar.c.Finds query (Text.encode "x; // @TODO @NOTE a") assignment.note := by
    intro assignment hassigned
    rcases List.mem_pair.1 hassigned with rfl | rfl
    · exact ⟨_, _, hfirst, List.mem_singleton_self _⟩
    · exact ⟨_, _, hsecond, List.mem_singleton_self _⟩
  obtain ⟨-, -, hwritten, hsame⟩ :=
    writeReferences_inserts hfinds (by decide +kernel) (by decide +kernel)
  have hmarked : writeReferences (Text.encode "x; // @TODO @NOTE a")
      [⟨second, 7⟩, ⟨first, 12⟩] = .ok (Text.encode "x; // @TODO(#12) @NOTE(#7) a") := by
    rw [writeReferences, List.mergeSort_of_pairwise (by decide +kernel)]
    decide +kernel
  have hagain := (hsame [⟨second, 7⟩, ⟨first, 12⟩] (.swap _ _ _)).symm.trans hmarked
  exact ⟨first, second, _, hfirst, hsecond, hagain, hmarked, hwritten _ hagain, rfl⟩

end CommentMarkers
