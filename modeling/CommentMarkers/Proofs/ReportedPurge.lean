import CommentMarkers.Proofs.CommentExtents
import CommentMarkers.Proofs.PurgedRanges
import CommentMarkers.Proofs.WriteBack

/-!
# Purging what was reported

An annotation can be purged at once, or it can be reported first and purged by its issue later.
Both leave the same source.  Each reference that is written moves the comments, and with them the
ranges that are removed.  As it stands in one of these ranges itself, it is deleted with the
comment.

Main results:

- Theorem `comments_insert`: the comments of a source with an inserted reference.
- Theorem `Reported.write`: what is left when the comments are deleted does not depend on the
  references that are written to them.
- Theorem `purge_writeReferences`: reporting and purging by issue is purging.
-/

namespace CommentMarkers

variable {grammar : Grammar} {query : Query} {source : Bytes} {notes others : List Annotation}

/-! ## The comments of an edited source -/

/-- Lists whose items are related by an equation of functions agree under these functions. -/
theorem map_eq_of_map_eq {α β γ δ : Type} {first : α → γ} {second : β → γ} {image : α → δ}
    {otherImage : β → δ} {items : List α} {others : List β}
    (hsame : others.map second = items.map first)
    (himage : ∀ item ∈ items, ∀ other ∈ others, second other = first item →
      otherImage other = image item) :
    others.map otherImage = items.map image := by
  have hrelated := forall₂_of_map_eq hsame himage
  rw [← List.forall₂_eq_eq_eq, List.forall₂_map_left_iff, List.forall₂_map_right_iff]
  exact hrelated.flip

/-- If two lists agree under two functions each, every item of one has a partner in the other. -/
theorem exists_of_map_eq {α β γ δ : Type} {first : α → γ} {second : β → γ} {image : α → δ}
    {otherImage : β → δ} {items : List α} {others : List β} {item : α}
    (hsame : others.map second = items.map first)
    (himages : others.map otherImage = items.map image) (hitem : item ∈ items) :
    ∃ other ∈ others, second other = first item ∧ otherImage other = image item := by
  have hboth : others.map (fun other => (second other, otherImage other)) =
      items.map fun item => (first item, image item) := by
    rw [← List.zip_map', ← List.zip_map', hsame, himages]
  have hmem := List.mem_map_of_mem (f := fun item => (first item, image item)) hitem
  rw [← hboth] at hmem
  obtain ⟨other, hother, hpair⟩ := List.mem_map.1 hmem
  obtain ⟨hfirst, himage⟩ := Prod.mk.inj hpair
  exact ⟨other, hother, hfirst, himage⟩

/-- The comments of a source with a reference in it are those of the source.  They move and grow by
the reference. -/
theorem comments_insert (htolerant : Tolerant grammar.openers) {reference : Bytes}
    {number : Nat} (hreference : IsReference reference (some number))
    (hshort : reference.length ≤ IssueTooLong.limit + 3) {note : Annotation}
    (hnotes : grammar.annotations query source = .ok notes) (hnote : note ∈ notes)
    (hissue : note.issue = none)
    (hothers : grammar.annotations query (Bytes.insert source note.markerStop reference) =
      .ok others) :
    others.map (·.comment) =
      notes.map fun own => own.comment.shifted note.markerStop reference.length := by
  obtain ⟨pre, post, rfl⟩ := List.append_of_mem hnote
  obtain ⟨before, after, comment, other, found, hexchange, hfound, hfindings⟩ :=
    exists_exchange htolerant hreference hshort hnotes hissue
  obtain ⟨same, hsame, hmap⟩ := exists_annotations_of_findings hexchange.edited rfl hfound
  rw [hothers] at hsame
  cases hsame
  rw [hfindings] at hmap
  rcases List.map_eq_append_iff.1 hmap with ⟨front, rest, rfl, hfront, hrest⟩
  rcases List.map_eq_cons_iff.1 hrest with ⟨changed, back, rfl, hchanged, hback⟩
  -- The marker stands in the exchanged comment, so the annotations in front of it begin in front of
  -- the end of that comment, and those behind it do not begin in front of the comment.
  have hbegins := hexchange.begins
  have hends := hexchange.ends
  have hmarker := query.marker.length_bytes_pos
  unfold Annotation.markerStop at hbegins hends
  rw [marker_of_mem_annotations hnotes hnote] at hbegins hends
  rcases List.pairwise_append.1 (pairwise_annotations hnotes) with ⟨-, hpost, hpre⟩
  have hfirst : front.map (·.comment) =
      pre.map fun own => own.comment.shifted note.markerStop reference.length := by
    refine map_eq_of_map_eq hfront fun own hown moved hmoved hfinding => ?_
    have hless := hpre own hown note List.mem_cons_self
    have hoffset : moved.place.offset = own.place.offset := congrArg Finding.offset hfinding
    exact hexchange.comment_eq ⟨_, hnotes, by simp [hown]⟩ ⟨_, hothers, by simp [hmoved]⟩
      (Or.inl ⟨by omega, hoffset⟩)
  have hown : changed.comment = note.comment.shifted note.markerStop reference.length := by
    have hoffset : changed.place.offset = note.place.offset := congrArg Finding.offset hchanged
    exact hexchange.comment_eq ⟨_, hnotes, hnote⟩ ⟨_, hothers, by simp⟩
      (Or.inl ⟨by omega, hoffset⟩)
  have hsecond : back.map (·.comment) =
      post.map fun own => own.comment.shifted note.markerStop reference.length := by
    rw [List.map_map] at hback
    refine map_eq_of_map_eq hback fun own hown moved hmoved hfinding => ?_
    have hless := (List.pairwise_cons.1 hpost).1 own hown
    have hoffset : moved.place.offset = reference.length + own.place.offset :=
      congrArg Finding.offset hfinding
    exact hexchange.comment_eq ⟨_, hnotes, by simp [hown]⟩ ⟨_, hothers, by simp [hmoved]⟩
      (Or.inr ⟨by omega, by omega⟩)
  rw [List.map_append, List.map_append, List.map_cons, List.map_cons, hfirst, hown, hsecond]

/-! ## One reference -/

/-- Where the comment of an annotation lies once references are written, the first of the
assignments last. -/
def commentAfter (assignments : List Assignment) (note : Annotation) : ByteRange :=
  assignments.foldr
    (fun assignment range =>
      range.shifted assignment.note.markerStop (referenceText assignment.issue).length)
    note.comment

/-- The last reference moves the comments as the others left them. -/
theorem commentAfter_cons (assignment : Assignment) (done : List Assignment) (note : Annotation) :
    commentAfter (assignment :: done) note =
      (commentAfter done note).shifted assignment.note.markerStop
        (referenceText assignment.issue).length :=
  rfl

/-- Holds of an edited source that has the annotations of a source, where the references leave them,
and that loses what the source loses if the comments of some of the annotations are deleted. -/
def Reported (grammar : Grammar) (query : Query) (source : Bytes)
    (notes chosen : List Annotation) (done : List Assignment) (edited : Bytes) : Prop :=
  ∃ others, grammar.annotations query edited = .ok others ∧
    others.map (·.finding) = notes.map (findingAfter done) ∧
    others.map (·.comment) = notes.map (commentAfter done) ∧
    Bytes.without edited (ByteRange.covers
        (chosen.map fun note => removalRange edited (commentAfter done note))) =
      Bytes.without source (ByteRange.covers
        (chosen.map fun note => removalRange source note.comment))

variable {note : Annotation} {assignment : Assignment} {done : List Assignment}
  {chosen : List Annotation} {edited : Bytes}

/-- The marker of an annotation ends with a byte of a word. -/
theorem Grammar.Finds.exists_markerStop (hfinds : grammar.Finds query source note) :
    ∃ before byte behind, source = before ++ byte :: behind ∧
      note.markerStop = before.length + 1 ∧ Bytes.isBlank byte = false := by
  obtain ⟨-, span, following, continuing, hit, next, -, hmade, hdelimited, hinside⟩ :=
    hfinds.exists_madeFrom
  obtain ⟨front, reference, behind, hsource, hoffset, -, -, -⟩ :=
    hmade.exists_marker hdelimited hinside
  obtain ⟨inner, last, hmarker⟩ :=
    (List.eq_nil_or_concat _).resolve_left note.marker.bytes_ne_nil
  refine ⟨front ++ inner, last, reference ++ behind, ?_, ?_,
    note.marker.solid_bytes last (by simp [hmarker])⟩
  · rw [hsource, hmarker]
    simp
  · unfold Annotation.markerStop
    rw [hoffset, hmarker]
    simp [Nat.add_assoc]

/-- If comments are deleted, it does not matter whether one of them has a reference behind its
marker. -/
theorem without_reference (hfinds : grammar.Finds query source note) {reference : Bytes}
    (hreference : Solid reference) {comments : List ByteRange} (hmem : note.comment ∈ comments)
    (hinside : ∀ comment ∈ comments, comment.start ≤ comment.stop ∧ comment.stop ≤ source.length) :
    Bytes.without (Bytes.insert source note.markerStop reference) (ByteRange.covers
        ((comments.map (·.shifted note.markerStop reference.length)).map
          (removalRange (Bytes.insert source note.markerStop reference)))) =
      Bytes.without source (ByteRange.covers (comments.map (removalRange source))) := by
  obtain ⟨hstart, hstop, -⟩ := hfinds.marker_inside
  have hwidened := removalRange_comment (hinside _ hmem).2
  have hlast : note.place.offset < note.markerStop :=
    Nat.lt_add_of_pos_right note.marker.length_bytes_pos
  obtain ⟨before, byte, behind, rfl, hcut, hbyte⟩ := hfinds.exists_markerStop
  have hinsert : Bytes.insert (before ++ byte :: behind) note.markerStop reference =
      before ++ [byte] ++ (reference ++ behind) := by
    have hsplit := Bytes.insert_append (before ++ [byte]) behind reference
    rwa [List.append_assoc, List.length_append, List.length_singleton, ← hcut] at hsplit
  have hranges : (comments.map (·.shifted note.markerStop reference.length)).map
        (removalRange (before ++ byte :: (reference ++ behind))) =
      (comments.map (removalRange (before ++ byte :: behind))).map
        (·.shifted note.markerStop reference.length) := by
    rw [List.map_map, List.map_map]
    apply List.map_congr_left
    intro comment hcomment
    rw [Function.comp, Function.comp, hcut]
    exact removalRange_insert hbyte hreference (hinside comment hcomment).1
      (hinside comment hcomment).2
  have hlength : note.markerStop = (before ++ [byte]).length := by
    rw [hcut, List.length_append, List.length_singleton]
  have hsame := without_insert
    (List.mem_map_of_mem (f := removalRange (before ++ byte :: behind)) hmem)
    (by rw [← hlength]; exact Nat.lt_of_le_of_lt hwidened.1 (Nat.lt_of_le_of_lt hstart hlast))
    (by rw [← hlength]; exact Nat.le_trans hstop hwidened.2) reference behind
  rw [← hlength] at hsame
  rw [hinsert]
  simp only [List.append_assoc, List.singleton_append] at hsame ⊢
  rw [hranges, hsame]

/-- The comments of the annotations lie in the edited source. -/
theorem commentAfter_inside (hothers : grammar.annotations query edited = .ok others)
    (hfindings : others.map (·.finding) = notes.map (findingAfter done))
    (hcomments : others.map (·.comment) = notes.map (commentAfter done)) (hnote : note ∈ notes) :
    (commentAfter done note).start ≤ (commentAfter done note).stop ∧
      (commentAfter done note).stop ≤ edited.length := by
  obtain ⟨other, hother, -, hcomment⟩ := exists_of_map_eq hfindings hcomments hnote
  obtain ⟨hstop, offset, byte, hstart, hoffset, -⟩ :=
    Grammar.Finds.inside ⟨_, hothers, hother⟩
  rw [← hcomment]
  exact ⟨Nat.le_trans hstart (Nat.le_of_lt hoffset), hstop⟩

/-- Writing a reference to one of the annotations whose comments are deleted changes nothing that is
left. -/
theorem Reported.write (htolerant : Tolerant grammar.openers)
    (hnotes : grammar.annotations query source = .ok notes) (hchosen : chosen ⊆ notes)
    (hfits : assignment.Fits notes) (hmem : assignment.note ∈ chosen)
    (hbefore : ∀ other ∈ done, assignment.note.place.offset < other.note.place.offset)
    (hreported : Reported grammar query source notes chosen done edited) :
    ∃ marked, assignment.write edited = .ok marked ∧
      Reported grammar query source notes chosen (assignment :: done) marked := by
  obtain ⟨others, hothers, hfindings, hcomments, hleft⟩ := hreported
  have hmarkers : ∀ note ∈ notes, note.marker = query.marker :=
    fun note hnote => marker_of_mem_annotations hnotes hnote
  obtain ⟨hwrite, hreference, hshort⟩ := hfits.write_eq edited
  obtain ⟨marked, more, hmarked, hmore, hmoreFindings⟩ := write_annotations htolerant
    (pairwise_annotations hnotes) hmarkers hfits hbefore hothers hfindings
  obtain rfl : Bytes.insert edited assignment.note.markerStop (referenceText assignment.issue) =
      marked := Except.ok.inj (hwrite.symm.trans hmarked)
  -- The annotation that gets the reference, where it stands now.
  obtain ⟨other, hother, hfinding, hcomment⟩ :=
    exists_of_map_eq hfindings hcomments hfits.known
  rw [findingAfter_of_before hbefore] at hfinding
  obtain ⟨hissue, hstop⟩ := hfits.of_finding_eq hmarkers hothers hother hfinding
  have hfinds : grammar.Finds query edited other := ⟨others, hothers, hother⟩
  rw [← hstop] at hmore
  have hmoved := comments_insert htolerant hreference hshort hothers hother hissue hmore
  rw [hstop] at hmore hmoved
  have hmoreComments : more.map (·.comment) = notes.map (commentAfter (assignment :: done)) := by
    have hshifted := congrArg (List.map fun range : ByteRange =>
      range.shifted assignment.note.markerStop (referenceText assignment.issue).length) hcomments
    rw [List.map_map, List.map_map] at hshifted
    exact hmoved.trans hshifted
  refine ⟨_, hmarked, more, hmore, hmoreFindings, hmoreComments, ?_⟩
  rw [← hleft]
  have hown : other.comment ∈ chosen.map (commentAfter done) := by
    rw [hcomment]
    exact List.mem_map_of_mem hmem
  have hinside : ∀ comment ∈ chosen.map (commentAfter done),
      comment.start ≤ comment.stop ∧ comment.stop ≤ edited.length := by
    intro comment hcomment
    obtain ⟨note, hnote, rfl⟩ := List.mem_map.1 hcomment
    exact commentAfter_inside hothers hfindings hcomments (hchosen hnote)
  have hdeleted := without_reference hfinds hreference.solid hown hinside
  simpa only [hstop, List.map_map, Function.comp_def, commentAfter_cons] using hdeleted

/-! ## All references -/

variable {assignments : List Assignment} {other : Annotation}

/-- If no annotation had one of the assigned issues before, exactly the annotations with an
assignment have one of them afterwards. -/
theorem ReportedAs.isWanted_iff (hreported : ReportedAs assignments note other)
    (hfresh : ∀ assignment ∈ assignments, note.issue.map Int.ofNat ≠ some assignment.issue) :
    other.isWanted (some (assignments.map (·.issue))) = true ↔
      note ∈ assignments.map (·.note) := by
  have hwanted : other.isWanted (some (assignments.map (·.issue))) = true ↔
      ∃ assignment ∈ assignments, other.issue.map Int.ofNat = some assignment.issue := by
    unfold Annotation.isWanted
    cases other.issue with
    | none => simp
    | some issue => simp [eq_comm]
  rw [hwanted]
  constructor
  · rintro ⟨assignment, hassigned, hissue⟩
    by_contra hnot
    refine hfresh assignment hassigned ?_
    rw [← hreported.unassigned, hissue]
    rintro own hown rfl
    exact hnot (List.mem_map_of_mem hown)
  · intro hnote
    obtain ⟨assignment, hassigned, hsame⟩ := List.mem_map.1 hnote
    exact ⟨assignment, hassigned, hreported.assigned assignment hassigned hsame⟩

/-- Without issues the ranges of all annotations are selected. -/
theorem selectedRanges_none (source : Bytes) (notes : List Annotation) :
    selectedRanges source notes none = notes.map fun note => removalRange source note.comment := by
  simp [selectedRanges, Annotation.isWanted]

/-- The annotations with an assignment are annotations of the source. -/
theorem map_note_subset (hfits : ∀ assignment ∈ assignments, assignment.Fits notes) :
    assignments.map (·.note) ⊆ notes := by
  intro note hnote
  obtain ⟨assignment, hassigned, rfl⟩ := List.mem_map.1 hnote
  exact (hfits assignment hassigned).known

/-- All references can be written, and the source loses the same with them. -/
theorem exists_reported (hgrammar : grammar ∈ Grammar.builtin)
    (hnotes : grammar.annotations query source = .ok notes)
    (hfits : ∀ assignment ∈ assignments, assignment.Fits notes)
    (hdistinct : (assignments.map (·.note)).Nodup) :
    ∃ marked written, written.Perm assignments ∧ writeReferences source assignments = .ok marked ∧
      Reported grammar query source notes (assignments.map (·.note)) written marked := by
  have hperm := List.mergeSort_perm assignments Assignment.notBefore
  have hchosen := map_note_subset hfits
  have hstep : ∀ assignment ∈ assignments.mergeSort Assignment.notBefore, ∀ done edited,
      (∀ other ∈ done, assignment.note.place.offset < other.note.place.offset) →
        Reported grammar query source notes (assignments.map (·.note)) done edited →
          ∃ marked, assignment.write edited = .ok marked ∧
            Reported grammar query source notes (assignments.map (·.note)) (assignment :: done)
              marked := by
    intro assignment hassigned done edited hbefore hreported
    have hassigned := hperm.mem_iff.1 hassigned
    exact hreported.write (Grammar.builtin_tolerant grammar hgrammar) hnotes hchosen
      (hfits assignment hassigned) (List.mem_map_of_mem hassigned) hbefore
  have hsorted := pairwise_mergeSort_notBefore (pairwise_annotations hnotes)
    (fun assignment hassigned => (hfits assignment hassigned).known) hdistinct
  have hstart : Reported grammar query source notes (assignments.map (·.note)) [] source :=
    ⟨notes, hnotes, rfl, rfl, rfl⟩
  obtain ⟨marked, hmarked, hreported⟩ := foldlM_write hstep hsorted
    (fun _ _ _ hnone => by cases hnone) hstart
  rw [List.append_nil] at hreported
  exact ⟨marked, _, (List.reverse_perm _).trans hperm, hmarked, hreported⟩

/-- The ranges of the annotations with the assigned issues are those of the annotations with an
assignment. -/
theorem mem_selectedRanges_iff {written : List Assignment} {marked : Bytes}
    (hchosen : assignments.map (·.note) ⊆ notes)
    (hfindings : others.map (·.finding) = notes.map (findingAfter written))
    (hcomments : others.map (·.comment) = notes.map (commentAfter written))
    (hwanted : ∀ note ∈ notes, ∀ other ∈ others, other.finding = findingAfter written note →
      (other.isWanted (some (assignments.map (·.issue))) = true ↔
        note ∈ assignments.map (·.note))) (range : ByteRange) :
    range ∈ selectedRanges marked others (some (assignments.map (·.issue))) ↔
      range ∈ (assignments.map (·.note)).map fun note =>
        removalRange marked (commentAfter written note) := by
  unfold selectedRanges
  rw [List.mem_map, List.mem_map]
  constructor
  · rintro ⟨other, hother, rfl⟩
    rw [List.mem_filter] at hother
    obtain ⟨note, hnote, hfinding, hcomment⟩ :=
      exists_of_map_eq hfindings.symm hcomments.symm hother.1
    refine ⟨note, (hwanted note hnote other hother.1 hfinding.symm).1 hother.2, ?_⟩
    rw [hcomment]
  · rintro ⟨note, hnote, rfl⟩
    obtain ⟨other, hother, hfinding, hcomment⟩ :=
      exists_of_map_eq hfindings hcomments (hchosen hnote)
    refine ⟨other, List.mem_filter.2 ⟨hother, ?_⟩, by rw [hcomment]⟩
    exact (hwanted note (hchosen hnote) other hother hfinding).2 hnote

/-- Reporting annotations and then purging what has the assigned issues leaves the same as purging
these annotations at once.  The annotations are different ones of a source with one of the built-in
grammars that have no issue yet, and none of the annotations of the source has one of the assigned
issues. -/
theorem purge_writeReferences (hgrammar : grammar ∈ Grammar.builtin)
    (hnotes : grammar.annotations query source = .ok notes)
    (hfits : ∀ assignment ∈ assignments, assignment.Fits notes)
    (hdistinct : (assignments.map (·.note)).Nodup)
    (hfresh : ∀ note ∈ notes, ∀ assignment ∈ assignments,
      note.issue.map Int.ofNat ≠ some assignment.issue) :
    ∃ marked others, writeReferences source assignments = .ok marked ∧
      grammar.annotations query marked = .ok others ∧
        purge marked others (some (assignments.map (·.issue))) =
          purge source (assignments.map (·.note)) none := by
  obtain ⟨marked, written, hperm, hmarked, others, hothers, hfindings, hcomments, hleft⟩ :=
    exists_reported hgrammar hnotes hfits hdistinct
  refine ⟨marked, others, hmarked, hothers, ?_⟩
  have hchosen := map_note_subset hfits
  have hwanted : ∀ note ∈ notes, ∀ other ∈ others, other.finding = findingAfter written note →
      (other.isWanted (some (assignments.map (·.issue))) = true ↔
        note ∈ assignments.map (·.note)) := by
    intro note hnote other hother hfinding
    refine ReportedAs.isWanted_iff ?_ (hfresh note hnote)
    refine reportedAs_of_finding hperm hdistinct
      (fun assignment hassigned => (hfits assignment hassigned).nonneg) ?_ hfinding
    rw [marker_of_mem_annotations hnotes hnote, marker_of_mem_annotations hothers hother]
  rw [purge_of_query hothers (List.Subset.refl _), purge_of_query hnotes hchosen,
    selectedRanges_none, ← hleft]
  apply Bytes.without_congr
  intro offset _
  exact ByteRange.covers_congr (mem_selectedRanges_iff hchosen hfindings hcomments hwanted) offset

/-- Two annotations that are reported and then purged, beside one with another issue. -/
theorem purge_writeReferences_two_annotations :
    ∃ first second third marked others,
      Grammar.c.annotations ⟨.todo, .all, true⟩
          (Text.encode "x; // @TODO a\n/* @TODO b */ y /* @TODO(#3) c */") =
            .ok [first, second, third] ∧
        writeReferences (Text.encode "x; // @TODO a\n/* @TODO b */ y /* @TODO(#3) c */")
          [⟨second, 7⟩, ⟨first, 12⟩] = .ok marked ∧
        Grammar.c.annotations ⟨.todo, .all, true⟩ marked = .ok others ∧
        purge marked others (some [7, 12]) = Text.encode "x;\n y /* @TODO(#3) c */" := by
  let first : Annotation := ⟨.todo, "a", ⟨6, 1, 7⟩, .lineComment, 3, 13, none⟩
  let second : Annotation := ⟨.todo, "b", ⟨17, 2, 4⟩, .blockComment, 14, 27, none⟩
  let third : Annotation := ⟨.todo, "c", ⟨33, 2, 20⟩, .blockComment, 30, 47, some 3⟩
  have hnotes : Grammar.c.annotations ⟨.todo, .all, true⟩
      (Text.encode "x; // @TODO a\n/* @TODO b */ y /* @TODO(#3) c */") =
        .ok [first, second, third] := by
    decide +kernel
  have hshort : ∀ issue : Int, 0 ≤ issue → isTooLong issue = false →
      issue < 10 ^ IssueTooLong.limit :=
    fun issue hnonneg => (isTooLong_eq_false_iff hnonneg).1
  have hfits : ∀ assignment ∈ [Assignment.mk second 7, Assignment.mk first 12],
      assignment.Fits [first, second, third] := by
    intro assignment hassigned
    rcases List.mem_pair.1 hassigned with rfl | rfl
    · exact ⟨by simp, rfl, by decide, hshort 7 (by decide) (by decide)⟩
    · exact ⟨by simp, rfl, by decide, hshort 12 (by decide) (by decide)⟩
  have hpurged : purge (Text.encode "x; // @TODO a\n/* @TODO b */ y /* @TODO(#3) c */")
      [second, first] none = Text.encode "x;\n y /* @TODO(#3) c */" := by
    rw [purge, removalRanges, List.mergeSort_of_pairwise (by decide +kernel)]
    decide +kernel
  obtain ⟨marked, others, hmarked, hothers, hsame⟩ :=
    purge_writeReferences (by decide +kernel) hnotes hfits (by decide +kernel) (by decide +kernel)
  exact ⟨first, second, third, marked, others, hnotes, hmarked, hothers, hsame.trans hpurged⟩

end CommentMarkers
