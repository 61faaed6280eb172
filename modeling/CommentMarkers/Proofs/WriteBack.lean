import CommentMarkers.Proofs.ReferenceTexts
import CommentMarkers.Proofs.SourceInsertion
import Mathlib

/-!
# Writing references back

The references of several annotations are written one after the other, from the end of the source
to its beginning.  Each of them leaves the annotations in front of it where they are, so the
annotations that are still to be written keep their places.  In the end the source has the same
annotations as before, with the issues that were assigned.

Main results:

- Theorem `write_annotations`: what writing one reference does to the annotations.
- Theorem `writeReferences_annotations`: what writing all references does to them.
-/

namespace CommentMarkers

/-! ## What is written -/

/-- An assignment of an issue number that can be written to an annotation that has no issue. -/
structure Assignment.Fits (notes : List Annotation) (assignment : Assignment) : Prop where
  known : assignment.note ∈ notes
  unreported : assignment.note.issue = none
  nonneg : 0 ≤ assignment.issue
  short : assignment.issue < 10 ^ IssueTooLong.limit

/-- The number of bytes that are written in front of an offset. -/
def insertedBefore (assignments : List Assignment) (offset : Nat) : Nat :=
  ((assignments.filter fun assignment => assignment.note.place.offset < offset).map
    fun assignment => (referenceText assignment.issue).length).sum

/-- The issue of an annotation once the references are written. -/
def issueAfter (assignments : List Assignment) (note : Annotation) : Option Nat :=
  match assignments.find? fun assignment => assignment.note = note with
  | some assignment => some assignment.issue.toNat
  | none => note.issue

/-- What an annotation tells of once the references are written. -/
def findingAfter (assignments : List Assignment) (note : Annotation) : Finding :=
  { note.finding with
    issue := issueAfter assignments note
    offset := note.place.offset + insertedBefore assignments note.place.offset }

variable {assignment : Assignment} {done : List Assignment} {note : Annotation}

/-- The annotation of the last reference gets its issue. -/
theorem findingAfter_cons_self (assignment : Assignment) (done : List Assignment) :
    findingAfter (assignment :: done) assignment.note =
      { findingAfter done assignment.note with issue := some assignment.issue.toNat } := by
  have hissue : issueAfter (assignment :: done) assignment.note =
      some assignment.issue.toNat := by
    rw [issueAfter, List.find?_cons_of_pos (by simp)]
  have hbytes : insertedBefore (assignment :: done) assignment.note.place.offset =
      insertedBefore done assignment.note.place.offset := by
    rw [insertedBefore, List.filter_cons_of_neg (by simp), insertedBefore]
  rw [findingAfter, hissue, hbytes]
  rfl

/-- Another annotation keeps its issue. -/
theorem issueAfter_cons_of_ne (hne : assignment.note ≠ note) :
    issueAfter (assignment :: done) note = issueAfter done note := by
  rw [issueAfter, List.find?_cons_of_neg (by simpa using hne), issueAfter]

/-- An annotation in front of a reference stays where it is. -/
theorem findingAfter_cons_in_front (hbefore : note.place.offset < assignment.note.place.offset) :
    findingAfter (assignment :: done) note = findingAfter done note := by
  have hne : assignment.note ≠ note := by
    rintro rfl
    exact Nat.lt_irrefl _ hbefore
  have hbytes : insertedBefore (assignment :: done) note.place.offset =
      insertedBefore done note.place.offset := by
    rw [insertedBefore, List.filter_cons_of_neg (by simpa using Nat.le_of_lt hbefore),
      insertedBefore]
  rw [findingAfter, issueAfter_cons_of_ne hne, hbytes]
  rfl

/-- An annotation behind a reference moves. -/
theorem findingAfter_cons_behind (hbehind : assignment.note.place.offset < note.place.offset) :
    findingAfter (assignment :: done) note =
      (findingAfter done note).moved (referenceText assignment.issue).length 0 := by
  have hne : assignment.note ≠ note := by
    rintro rfl
    exact Nat.lt_irrefl _ hbehind
  have hbytes : insertedBefore (assignment :: done) note.place.offset =
      (referenceText assignment.issue).length + insertedBefore done note.place.offset := by
    rw [insertedBefore, List.filter_cons_of_pos (by simpa using hbehind), List.map_cons,
      List.sum_cons, insertedBefore]
  rw [findingAfter, issueAfter_cons_of_ne hne, hbytes]
  simp only [findingAfter, Finding.moved, Nat.zero_add, Nat.add_left_comm]

/-- References further on say nothing about an annotation. -/
theorem findingAfter_of_before
    (hbefore : ∀ other ∈ done, note.place.offset < other.note.place.offset) :
    findingAfter done note = note.finding := by
  induction done with
  | nil => rfl
  | cons assignment rest ih =>
      rcases List.forall_mem_cons.1 hbefore with ⟨hfirst, hrest⟩
      rw [findingAfter_cons_in_front hfirst, ih hrest]

/-! ## One reference -/

variable {grammar : Grammar} {query : Query} {source : Bytes} {notes others : List Annotation}

/-- Annotations stand in the order of their offsets. -/
theorem pairwise_annotations (hnotes : grammar.annotations query source = .ok notes) :
    notes.Pairwise (·.place.offset < ·.place.offset) := by
  have hlexes := lexes_lex grammar.openers source
  rcases exists_findings_of_annotations hlexes hnotes with ⟨-, found, hfound, hsame⟩
  have hsorted := (pairwise_findings hlexes.wellFormed hfound).1
  have hmoved : (found.map (·.moved 0 1)).Pairwise (·.offset < ·.offset) := by
    rw [List.pairwise_map]
    exact hsorted.imp fun hbefore => Nat.add_lt_add_left hbefore 0
  rw [hsame, List.pairwise_map] at hmoved
  exact hmoved

/-- The annotations of a source are about the marker that was asked for. -/
theorem marker_of_mem_annotations (hnotes : grammar.annotations query source = .ok notes)
    (hnote : note ∈ notes) : note.marker = query.marker :=
  marker_of_mem_extract (extract_of_annotations hnotes).2 note hnote

/-- Writing an issue that fits inserts a reference that is read back as this issue. -/
theorem Assignment.Fits.write_eq (hfits : assignment.Fits notes) (source : Bytes) :
    assignment.write source =
        .ok (Bytes.insert source assignment.note.markerStop (referenceText assignment.issue)) ∧
      IsReference (referenceText assignment.issue) (some assignment.issue.toNat) ∧
      (referenceText assignment.issue).length ≤ IssueTooLong.limit + 3 := by
  have hshort := (isTooLong_eq_false_iff hfits.nonneg).2 hfits.short
  refine ⟨Assignment.write_eq_ok_iff.2 ⟨hfits.unreported, hshort, rfl⟩, ?_⟩
  rcases assignment with ⟨note, issue⟩
  rcases Int.eq_ofNat_of_zero_le hfits.nonneg with ⟨number, rfl⟩
  exact ⟨isReference_referenceText number, length_referenceText_le hshort⟩

/-- The annotation of an edited source that tells what an annotation told has no issue either, and
its marker stops where that one did. -/
theorem Assignment.Fits.of_finding_eq (hfits : assignment.Fits notes)
    (hmarkers : ∀ note ∈ notes, note.marker = query.marker)
    (hothers : grammar.annotations query source = .ok others) {other : Annotation}
    (hother : other ∈ others) (hfinding : other.finding = assignment.note.finding) :
    other.issue = none ∧ other.markerStop = assignment.note.markerStop := by
  have hissue : other.issue = assignment.note.issue := congrArg Finding.issue hfinding
  have hoffset : other.place.offset = assignment.note.place.offset :=
    congrArg Finding.offset hfinding
  refine ⟨hissue.trans hfits.unreported, ?_⟩
  unfold Annotation.markerStop
  rw [hoffset, hmarkers _ hfits.known, marker_of_mem_annotations hothers hother]

/-- Writing a reference in front of those that are written already gives its annotation the issue,
and moves the annotations behind it. -/
theorem write_annotations (htolerant : Tolerant grammar.openers)
    (hnotes : notes.Pairwise (·.place.offset < ·.place.offset))
    (hmarkers : ∀ note ∈ notes, note.marker = query.marker) (hfits : assignment.Fits notes)
    (hdone : ∀ other ∈ done, assignment.note.place.offset < other.note.place.offset)
    (hothers : grammar.annotations query source = .ok others)
    (hsame : others.map (·.finding) = notes.map (findingAfter done)) :
    ∃ marked more, assignment.write source = .ok marked ∧
      grammar.annotations query marked = .ok more ∧
        more.map (·.finding) = notes.map (findingAfter (assignment :: done)) := by
  rcases hfits.write_eq source with ⟨hwrite, hreference, hshort⟩
  rcases List.append_of_mem hfits.known with ⟨pre, post, rfl⟩
  rw [List.map_append, List.map_cons] at hsame
  rcases List.map_eq_append_iff.1 hsame with ⟨front, rest, rfl, hfront, hrest⟩
  rcases List.map_eq_cons_iff.1 hrest with ⟨other, back, rfl, hother, hback⟩
  have hfinding : other.finding = assignment.note.finding :=
    hother.trans (findingAfter_of_before hdone)
  obtain ⟨hissue, hstop⟩ := hfits.of_finding_eq hmarkers hothers
    (List.mem_append_right _ List.mem_cons_self) hfinding
  rcases annotations_insert htolerant hreference hshort hothers hissue with ⟨more, hmore, hfindings⟩
  rw [hstop] at hmore
  refine ⟨_, more, hwrite, hmore, ?_⟩
  rcases List.pairwise_append.1 hnotes with ⟨-, hpost, hpre⟩
  have hbehind := (List.pairwise_cons.1 hpost).1
  have hfirst : pre.map (findingAfter (assignment :: done)) = front.map (·.finding) := by
    rw [hfront]
    apply List.map_congr_left
    intro note hnote
    exact findingAfter_cons_in_front (hpre note hnote _ List.mem_cons_self)
  have hsecond : post.map (findingAfter (assignment :: done)) =
      (back.map (·.finding)).map (·.moved (referenceText assignment.issue).length 0) := by
    rw [hback, List.map_map]
    apply List.map_congr_left
    intro note hnote
    exact findingAfter_cons_behind (hbehind note hnote)
  rw [hfindings, List.map_append, List.map_cons, hfirst, hsecond, findingAfter_cons_self, hother]

/-! ## All references -/

/-- What each reference that is written in front of the others keeps is kept by writing references
one after the other. -/
theorem foldlM_write {holds : List Assignment → Bytes → Prop} {rest : List Assignment}
    (hstep : ∀ assignment ∈ rest, ∀ done source,
      (∀ other ∈ done, assignment.note.place.offset < other.note.place.offset) →
        holds done source →
          ∃ marked, assignment.write source = .ok marked ∧ holds (assignment :: done) marked)
    (hsorted : rest.Pairwise fun first second =>
      second.note.place.offset < first.note.place.offset)
    (hdone : ∀ assignment ∈ rest, ∀ other ∈ done,
      assignment.note.place.offset < other.note.place.offset)
    (hstart : holds done source) :
    ∃ marked, rest.foldlM Assignment.write source = .ok marked ∧
      holds (rest.reverse ++ done) marked := by
  induction rest generalizing source done with
  | nil => exact ⟨source, rfl, hstart⟩
  | cons assignment rest ih =>
      rcases List.forall_mem_cons.1 hstep with ⟨hfirst, hrest⟩
      rcases List.pairwise_cons.1 hsorted with ⟨hless, hsorted⟩
      rcases List.forall_mem_cons.1 hdone with ⟨hbefore, hdone⟩
      rcases hfirst done source hbefore hstart with ⟨edited, hwrite, hedited⟩
      obtain ⟨marked, hmarked, hholds⟩ := ih hrest hsorted
        (by
          intro other hother
          exact List.forall_mem_cons.2 ⟨hless other hother, hdone other hother⟩)
        hedited
      refine ⟨marked, ?_, ?_⟩
      · rw [List.foldlM_cons, hwrite, ok_bind, hmarked]
      · rw [List.reverse_cons, List.append_assoc, List.singleton_append]
        exact hholds

/-- Writing references one after the other, each in front of those before it, gives all their
annotations the issues. -/
theorem foldlM_write_annotations (htolerant : Tolerant grammar.openers)
    (hnotes : notes.Pairwise (·.place.offset < ·.place.offset))
    (hmarkers : ∀ note ∈ notes, note.marker = query.marker) {rest : List Assignment}
    (hfits : ∀ assignment ∈ rest, assignment.Fits notes)
    (hsorted : rest.Pairwise fun first second =>
      second.note.place.offset < first.note.place.offset)
    (hdone : ∀ assignment ∈ rest, ∀ other ∈ done,
      assignment.note.place.offset < other.note.place.offset)
    (hothers : grammar.annotations query source = .ok others)
    (hsame : others.map (·.finding) = notes.map (findingAfter done)) :
    ∃ marked more, rest.foldlM Assignment.write source = .ok marked ∧
      grammar.annotations query marked = .ok more ∧
        more.map (·.finding) = notes.map (findingAfter (rest.reverse ++ done)) := by
  let holds : List Assignment → Bytes → Prop := fun done source =>
    ∃ others, grammar.annotations query source = .ok others ∧
      others.map (·.finding) = notes.map (findingAfter done)
  have hstep : ∀ assignment ∈ rest, ∀ done source,
      (∀ other ∈ done, assignment.note.place.offset < other.note.place.offset) →
        holds done source →
          ∃ marked, assignment.write source = .ok marked ∧ holds (assignment :: done) marked := by
    rintro assignment hassigned done source hbefore ⟨others, hothers, hsame⟩
    obtain ⟨marked, more, hmarked, hmore, hfindings⟩ :=
      write_annotations htolerant hnotes hmarkers (hfits assignment hassigned) hbefore hothers hsame
    exact ⟨marked, hmarked, more, hmore, hfindings⟩
  obtain ⟨marked, hmarked, more, hmore, hfindings⟩ :=
    foldlM_write hstep hsorted hdone ⟨others, hothers, hsame⟩
  exact ⟨marked, more, hmarked, hmore, hfindings⟩

/-- Holds of an annotation and of the one that it becomes once the references are written.  Only its
issue and its offset may be others. -/
structure ReportedAs (assignments : List Assignment) (note other : Annotation) : Prop where
  marker : other.marker = note.marker
  payload : other.payload = note.payload
  kind : other.kind = note.kind
  line : other.place.line = note.place.line
  assigned : ∀ assignment ∈ assignments, assignment.note = note →
    other.issue.map Int.ofNat = some assignment.issue
  unassigned : (∀ assignment ∈ assignments, assignment.note ≠ note) → other.issue = note.issue
  offset : other.place.offset = note.place.offset + insertedBefore assignments note.place.offset

variable {assignments : List Assignment}

/-- The issue that is assigned to an annotation is the one that it gets. -/
theorem issueAfter_of_mem (hdistinct : (assignments.map (·.note)).Nodup)
    (hassigned : assignment ∈ assignments) :
    issueAfter assignments assignment.note = some assignment.issue.toNat := by
  induction assignments with
  | nil => cases hassigned
  | cons first rest ih =>
      rcases List.nodup_cons.1 hdistinct with ⟨hnot, hdistinct⟩
      rcases List.mem_cons.1 hassigned with rfl | hassigned
      · rw [issueAfter, List.find?_cons_of_pos (by simp)]
      · have hne : first.note ≠ assignment.note := by
          intro hsame
          have hmem := List.mem_map_of_mem (f := fun other : Assignment => other.note) hassigned
          rw [← hsame] at hmem
          exact hnot hmem
        rw [issueAfter_cons_of_ne hne, ih hdistinct hassigned]

/-- An annotation without an assignment keeps its issue. -/
theorem issueAfter_of_forall_ne (hnone : ∀ assignment ∈ assignments, assignment.note ≠ note) :
    issueAfter assignments note = note.issue := by
  induction assignments with
  | nil => rfl
  | cons first rest ih =>
      rcases List.forall_mem_cons.1 hnone with ⟨hfirst, hrest⟩
      rw [issueAfter_cons_of_ne hfirst, ih hrest]

/-- The order of the assignments does not matter for how much is written in front of an offset. -/
theorem insertedBefore_perm {first second : List Assignment} (hperm : first.Perm second)
    (offset : Nat) : insertedBefore first offset = insertedBefore second offset :=
  ((hperm.filter _).map _).sum_nat

/-- What an annotation tells of once the references are written is what was to be shown. -/
theorem reportedAs_of_finding {written : List Assignment} {other : Annotation}
    (hperm : written.Perm assignments) (hdistinct : (assignments.map (·.note)).Nodup)
    (hnonneg : ∀ assignment ∈ assignments, 0 ≤ assignment.issue)
    (hmarker : other.marker = note.marker)
    (hfinding : other.finding = findingAfter written note) :
    ReportedAs assignments note other := by
  have hissue : other.issue = issueAfter written note := congrArg Finding.issue hfinding
  refine ⟨hmarker, congrArg Finding.payload hfinding, congrArg Finding.kind hfinding,
    congrArg Finding.line hfinding, ?_, ?_, ?_⟩
  · rintro assignment hassigned rfl
    rw [hissue, issueAfter_of_mem ((hperm.map _).nodup_iff.2 hdistinct)
      (hperm.mem_iff.2 hassigned)]
    exact congrArg some (Int.toNat_of_nonneg (hnonneg assignment hassigned))
  · intro hnone
    rw [hissue]
    exact issueAfter_of_forall_ne fun assignment hassigned =>
      hnone assignment (hperm.mem_iff.1 hassigned)
  · rw [← insertedBefore_perm hperm]
    exact congrArg Finding.offset hfinding

/-- Lists that agree under functions of their items are related item by item. -/
theorem forall₂_of_map_eq {α β γ : Type} {first : α → γ} {second : β → γ}
    {relation : α → β → Prop} {items : List α} {others : List β}
    (hsame : others.map second = items.map first)
    (hrelation : ∀ item ∈ items, ∀ other ∈ others, second other = first item →
      relation item other) :
    List.Forall₂ relation items others := by
  induction items generalizing others with
  | nil =>
      rw [List.map_nil, List.map_eq_nil_iff] at hsame
      rw [hsame]
      exact .nil
  | cons item items ih =>
      rcases List.map_eq_cons_iff.1 hsame with ⟨other, others, rfl, hfirst, hrest⟩
      refine .cons (hrelation item List.mem_cons_self other List.mem_cons_self hfirst) ?_
      apply ih hrest
      intro item hitem other hother
      exact hrelation item (List.mem_cons_of_mem _ hitem) other (List.mem_cons_of_mem _ hother)

/-- Assignments whose annotations stand at different offsets are written from the last one to the
first one. -/
theorem pairwise_mergeSort_of_nodup
    (hdistinct : (assignments.map (·.note.place.offset)).Nodup) :
    (assignments.mergeSort Assignment.notBefore).Pairwise fun first second =>
      second.note.place.offset < first.note.place.offset := by
  have hperm := List.mergeSort_perm assignments Assignment.notBefore
  have hsorted : (assignments.mergeSort Assignment.notBefore).Pairwise
      fun first second => first.notBefore second = true := by
    apply List.pairwise_mergeSort
    · intro first second third hfirst hsecond
      simp only [Assignment.notBefore, decide_eq_true_eq] at hfirst hsecond ⊢
      exact Nat.le_trans hsecond hfirst
    · intro first second
      simp only [Assignment.notBefore, Bool.or_eq_true, decide_eq_true_eq]
      exact Nat.le_total _ _
  have hothers := List.pairwise_map.1 ((hperm.map (·.note.place.offset)).nodup_iff.2 hdistinct)
  refine (hsorted.and hothers).imp fun {first second} hboth => ?_
  simp only [Assignment.notBefore, decide_eq_true_eq] at hboth
  exact Nat.lt_of_le_of_ne hboth.1 (Ne.symm hboth.2)

/-- The assignments are written in the order in which their annotations stand in the source, from
the last one to the first one. -/
theorem pairwise_mergeSort_notBefore (hnotes : notes.Pairwise (·.place.offset < ·.place.offset))
    (hknown : ∀ assignment ∈ assignments, assignment.note ∈ notes)
    (hdistinct : (assignments.map (·.note)).Nodup) :
    (assignments.mergeSort Assignment.notBefore).Pairwise fun first second =>
      second.note.place.offset < first.note.place.offset := by
  have hoffsets : (notes.map (·.place.offset)).Nodup :=
    List.pairwise_map.2 (hnotes.imp fun hless => Nat.ne_of_lt hless)
  apply pairwise_mergeSort_of_nodup
  refine List.pairwise_map.2 ((List.pairwise_map.1 hdistinct).imp_of_mem ?_)
  intro first second hfirst hsecond hne hsame
  exact hne (List.inj_on_of_nodup_map hoffsets (hknown first hfirst) (hknown second hsecond) hsame)

/-- Writing references back keeps the annotations.  In a source with one of the built-in grammars,
references to issues that are short enough can be written behind any of the different annotations
that have no issue yet.  The edited source then has the same annotations in the same order: those
with an assignment have the issue of the assignment, and each of them has moved by the bytes that
were written in front of it. -/
theorem writeReferences_annotations (hgrammar : grammar ∈ Grammar.builtin)
    (hnotes : grammar.annotations query source = .ok notes)
    (hfits : ∀ assignment ∈ assignments, assignment.Fits notes)
    (hdistinct : (assignments.map (·.note)).Nodup) :
    ∃ marked others, writeReferences source assignments = .ok marked ∧
      grammar.annotations query marked = .ok others ∧
        List.Forall₂ (ReportedAs assignments) notes others := by
  have hordered := pairwise_annotations hnotes
  have hmarkers : ∀ note ∈ notes, note.marker = query.marker :=
    fun note hnote => marker_of_mem_annotations hnotes hnote
  have hperm := List.mergeSort_perm assignments Assignment.notBefore
  have hstart : notes.map (·.finding) = notes.map (findingAfter []) := rfl
  obtain ⟨marked, others, hmarked, hothers, hfindings⟩ :=
    foldlM_write_annotations (Grammar.builtin_tolerant grammar hgrammar) hordered hmarkers
      (fun assignment hassigned => hfits assignment (hperm.mem_iff.1 hassigned))
      (pairwise_mergeSort_notBefore hordered (fun assignment hassigned =>
        (hfits assignment hassigned).known) hdistinct)
      (fun _ _ _ hnone => by cases hnone) hnotes hstart
  rw [List.append_nil] at hfindings
  refine ⟨marked, others, hmarked, hothers, forall₂_of_map_eq hfindings ?_⟩
  intro note hnote other hother hfinding
  refine reportedAs_of_finding ((List.reverse_perm _).trans hperm) hdistinct
    (fun assignment hassigned => (hfits assignment hassigned).nonneg) ?_ hfinding
  rw [hmarkers note hnote, marker_of_mem_annotations hothers hother]

/-- Two annotations of a source that are reported at once. -/
theorem writeReferences_two_annotations :
    ∃ first second marked others,
      Grammar.c.annotations ⟨.todo, .all, true⟩ (Text.encode "// @TODO a\nx /* @TODO b */") =
          .ok [first, second] ∧
        writeReferences (Text.encode "// @TODO a\nx /* @TODO b */") [⟨second, 7⟩, ⟨first, 12⟩] =
          .ok marked ∧
        marked = Text.encode "// @TODO(#12) a\nx /* @TODO(#7) b */" ∧
        Grammar.c.annotations ⟨.todo, .all, true⟩ marked = .ok others ∧
        List.Forall₂ (ReportedAs [⟨second, 7⟩, ⟨first, 12⟩]) [first, second] others := by
  obtain ⟨first, second, hnotes, hfirst, hsecond, hdistinct, hwritten⟩ :
      ∃ first second,
        Grammar.c.annotations ⟨.todo, .all, true⟩ (Text.encode "// @TODO a\nx /* @TODO b */") =
            .ok [first, second] ∧
          first.issue = none ∧ second.issue = none ∧ [second, first].Nodup ∧
          writeReferences (Text.encode "// @TODO a\nx /* @TODO b */")
            [⟨second, 7⟩, ⟨first, 12⟩] =
              .ok (Text.encode "// @TODO(#12) a\nx /* @TODO(#7) b */") := by
    refine ⟨⟨.todo, "a", ⟨3, 1, 4⟩, .lineComment, 0, 10, none⟩,
      ⟨.todo, "b", ⟨16, 2, 6⟩, .blockComment, 13, 26, none⟩, by decide +kernel, rfl, rfl,
      by decide +kernel, ?_⟩
    rw [writeReferences, List.mergeSort_of_pairwise (by decide +kernel)]
    decide +kernel
  have hshort : ∀ number : Nat, isTooLong number = false →
      (number : Int) < 10 ^ IssueTooLong.limit :=
    fun number => (isTooLong_eq_false_iff (Int.natCast_nonneg number)).1
  have hfits : ∀ assignment ∈ [Assignment.mk second 7, Assignment.mk first 12],
      assignment.Fits [first, second] := by
    intro assignment hassigned
    rcases List.mem_pair.1 hassigned with rfl | rfl
    · exact ⟨List.mem_cons_of_mem _ List.mem_cons_self, hsecond, Int.natCast_nonneg 7,
        hshort 7 (by decide)⟩
    · exact ⟨List.mem_cons_self, hfirst, Int.natCast_nonneg 12, hshort 12 (by decide)⟩
  rcases writeReferences_annotations (by decide +kernel) hnotes hfits hdistinct with
    ⟨marked, others, hmarked, hothers, hreported⟩
  refine ⟨first, second, marked, others, hnotes, hmarked, ?_, hothers, hreported⟩
  rw [hwritten] at hmarked
  exact (Except.ok.inj hmarked).symm

end CommentMarkers
