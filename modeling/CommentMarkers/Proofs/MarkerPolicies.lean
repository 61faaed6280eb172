import CommentMarkers.Proofs.JoinedAnnotations
import CommentMarkers.Proofs.PayloadPartition
import Mathlib.Data.List.SplitBy

/-!
# Marker policies

A comment with several markers becomes one annotation or several, as the policy says.  The only
annotation is the first one of them with a longer payload.  But for blanks, this payload is what the
payloads of all annotations tell one after the other, with the markers and issue references that
stand between them.  So nothing behind the first marker is lost, and nothing is there twice.

Main results:

- Theorem `Annotation.reference_eq`: the reference of an annotation is the one behind its marker.
- Theorem `solidChars_retold`: the annotations of a comment retell all text behind the first marker.
- Theorem `exists_retells`: the annotations of one comment under the two policies.
- Theorem `policies_tell_the_same`: the annotations of a source under the two policies.
-/

namespace CommentMarkers

variable {grammar : Grammar} {marker : Marker} {policy : MarkerPolicy} {join : Bool}
  {source : Bytes}

/-! ## References in the source -/

/-- The issue reference behind the marker of an annotation, as it is written in the source. -/
def Annotation.reference (note : Annotation) (source : Bytes) : Bytes :=
  match note.issue, IssueReference.digits? (source.drop note.markerStop) with
  | some _, some digits => IssueReference.opening ++ (digits ++ [IssueReference.closing])
  | _, _ => []

/-- The reference of an annotation is the one that stands behind its marker. -/
theorem Annotation.reference_eq {note : Annotation} {reference behind : Bytes}
    (hreference : IsReference reference note.issue)
    (hsource : source.drop note.markerStop = reference ++ behind) :
    note.reference source = reference := by
  unfold Annotation.reference
  rw [hsource]
  cases hissue : note.issue with
  | none =>
      rw [hissue] at hreference
      cases hreference
      rfl
  | some issue =>
      rw [hissue] at hreference
      cases hreference with
      | present digits hne hdigits =>
          have hfound : IssueReference.digits?
              (IssueReference.opening ++ (digits ++ [IssueReference.closing]) ++ behind) =
                some digits :=
            digits_eq_some_iff.2 ⟨hne, hdigits, behind, by simp⟩
          rw [hfound]

/-- What annotations tell one after the other: their payloads, with the markers and references that
stand between them. -/
def retold (source : Bytes) : List Annotation → String
  | [] => ""
  | [note] => note.payload
  | note :: next :: more =>
    note.payload ++ (next.marker.text ++ (Text.decode (next.reference source) ++
      retold source (next :: more)))

/-! ## The annotations of a comment -/

/-- Holds of the comments that go on with the text of a comment: with joining, the longest run of
them behind a line comment. -/
def Span.ContinuedBy (span : Span) (join : Bool) (source marker : Bytes)
    (following absorbed : List Span) : Prop :=
  if join = true ∧ span.kind = .lineComment then span.Absorbs source marker following absorbed
  else absorbed = []

/-- Relates the annotation of a comment of which the first marker counts to its annotations if all
markers count.  It is the first one of them in everything but the payload.  Its payload is what they
retell, and all of the text behind the marker and its reference. -/
structure Retells (grammar : Grammar) (marker : Marker) (join : Bool) (source : Bytes)
    (first : Annotation) (all : List Annotation) : Prop where
  head : ∃ note rest, all = note :: rest ∧ first = { note with payload := first.payload }
  payload : Text.solidChars first.payload = Text.solidChars (retold source all)
  references : ∀ note ∈ all, IsReference (note.reference source) note.issue ∧
    note.reference source <+: source.drop note.markerStop
  whole : ∃ before span following absorbed,
    (grammar.scan source).spans = before ++ span :: following ∧
      (∀ note ∈ all, note.spanStart = span.start) ∧
      span.ContinuedBy join source marker.bytes following absorbed ∧
      Text.solidChars first.payload = Text.solidChars (Text.decode
        (textBehind (span.linesWith source absorbed)
          (first.markerStop + (first.reference source).length)))

section Comment

variable {span : Span} {continuing : List Span} {found : List Hit} {hit : Hit} {line : CommentLine}

/-- The reference of an annotation is the text of the line between the marker and the end of the hit
that it was made from. -/
theorem reference_of_annotationOf {query : Query} {next : Option Hit} {note : Annotation}
    (hnote : note = annotationOf query source span continuing hit next)
    (hline : (span.linesWith source continuing)[hit.line]? = some line)
    (hhas : span.HasLine source line)
    (hhit : IsHit query.marker.bytes none 0 line.text hit.toLineHit) :
    note.reference source =
        Bytes.slice line.text (hit.start + query.marker.bytes.length) hit.stop ∧
      IsReference (note.reference source) note.issue ∧
      note.reference source <+: source.drop note.markerStop ∧
      note.markerStop + (note.reference source).length = line.offset + hit.stop := by
  obtain ⟨before, reference, behind, htext, hreference, -, -, hstart, hstop⟩ := hhit
  obtain ⟨front, back, hsource, hfront, -, -⟩ := hhas.exists_eq_append
  have hissue : note.issue = hit.issue := by
    rw [hnote]
    rfl
  have hmarkerStop : note.markerStop = line.offset + hit.start + query.marker.bytes.length := by
    rw [hnote]
    exact congrArg (· + query.marker.bytes.length) (offset_annotationOf query source next hline)
  have hbehind : source.drop note.markerStop = reference ++ (behind ++ back) := by
    rw [hsource, htext]
    simp only [List.append_assoc]
    rw [← List.append_assoc before, ← List.append_assoc front]
    exact List.drop_left' (by simp only [List.length_append]; omega)
  have hslice : Bytes.slice line.text (hit.start + query.marker.bytes.length) hit.stop =
      reference := by
    have hmiddle := slice_middle (before ++ query.marker.bytes) reference behind
    rw [List.append_assoc, List.length_append, ← htext] at hmiddle
    rwa [show hit.start + query.marker.bytes.length =
      before.length + query.marker.bytes.length by omega,
      show hit.stop = before.length + query.marker.bytes.length + reference.length by omega]
  rw [← hissue] at hreference
  have hsame := Annotation.reference_eq hreference hbehind
  rw [hsame]
  exact ⟨hslice.symm, hreference, ⟨_, hbehind.symm⟩, by omega⟩

/-- The annotations of a comment retell all of the text behind its first hit. -/
theorem solidChars_retold {query : Query} {rest : List Hit}
    (hlines : ∀ other ∈ hit :: rest, ∃ line,
      (span.linesWith source continuing)[other.line]? = some line ∧ span.HasLine source line ∧
        IsHit query.marker.bytes none 0 line.text other.toLineHit)
    (hordered : (hit :: rest).Pairwise Hit.Before) :
    Text.solidChars (Text.decode (payloadBytes (span.linesWith source continuing) hit none)) =
      Text.solidChars
        (retold source (annotationsOf query source span continuing (hit :: rest))) := by
  induction rest generalizing hit with
  | nil => rfl
  | cons next more ih =>
      obtain ⟨hfirst, hrest⟩ := List.forall_mem_cons.1 hlines
      obtain ⟨hbefore, hordered⟩ := List.pairwise_cons.1 hordered
      obtain ⟨line, hline, -, hhit⟩ := hfirst
      obtain ⟨other, hother, hhas, hnext⟩ := hrest next List.mem_cons_self
      have hbehind : hit.line < next.line ∨ hit.line = next.line ∧ hit.stop ≤ next.start := by
        refine (hbefore next List.mem_cons_self).imp_right fun ⟨hsame, hless⟩ => ⟨hsame, ?_⟩
        rw [hsame, hother] at hline
        cases hline
        exact hhit.stop_le_start query.marker.solid_bytes hnext hless
      have hreference := (reference_of_annotationOf
        (show _ = annotationOf query source span continuing next more.head? from rfl) hother hhas
          hnext).1
      have hretold :
          retold source (annotationsOf query source span continuing (hit :: next :: more)) =
            Text.decode (payloadBytes (span.linesWith source continuing) hit (some next)) ++
              (query.marker.text ++ (Text.decode ((annotationOf query source span continuing next
                more.head?).reference source) ++
                  retold source (annotationsOf query source span continuing (next :: more)))) :=
        rfl
      rw [solidChars_payloadBytes_next hline hother hnext hbehind, ih hrest hordered, hretold,
        hreference, Text.solidChars_append, Text.solidChars_append, Text.solidChars_append]

/-- What a comment absorbs are line comments. -/
theorem Span.Absorbs.isLine {mark : Bytes} {following absorbed : List Span}
    (habsorbs : span.Absorbs source mark following absorbed) :
    ∀ other ∈ absorbed, other.kind = .lineComment := by
  induction habsorbs with
  | done _ => exact nofun
  | more hgoes _ ih => exact List.forall_mem_cons.2 ⟨hgoes.isLine, ih⟩

/-- Comments that go on with the text of a comment stand behind it. -/
theorem Span.ContinuedBy.of_mem {mark : Bytes} {following absorbed : List Span}
    (hcontinued : span.ContinuedBy join source mark following absorbed) :
    ∀ other ∈ absorbed, other ∈ following ∧ other.kind = .lineComment := by
  intro other hother
  unfold ContinuedBy at hcontinued
  split at hcontinued
  · obtain ⟨front, back, rfl, hsublist, -⟩ := hcontinued.exists_front
    exact ⟨List.mem_append_left _ (hsublist.subset hother), hcontinued.isLine other hother⟩
  · rw [hcontinued] at hother
    cases hother

/-- The comments that are joined go on with the text of a comment. -/
theorem continuedBy_of_continuing {before following absorbed : List Span}
    (hspans : (grammar.scan source).spans = before ++ span :: following)
    (habsorbed : Query.continuing ⟨marker, policy, join⟩ source span following = .ok absorbed) :
    span.ContinuedBy join source marker.bytes following absorbed := by
  unfold Span.ContinuedBy
  cases join with
  | false =>
      rw [if_neg (by simp)]
      cases habsorbed
      rfl
  | true =>
      obtain ⟨hline, hother⟩ := absorbs_of_continuing hspans habsorbed
      split
      · next hkind => exact (hline hkind.2 absorbed).2 rfl
      · next hkind => exact hother fun hline => hkind ⟨rfl, hline⟩

/-- The spans behind a span start where it stops or later. -/
theorem stop_le_of_mem_following {before following : List Span} {other : Span}
    (hspans : (grammar.scan source).spans = before ++ span :: following)
    (hother : other ∈ following) : span.stop ≤ other.start := by
  have hapart := (tiles_textOf grammar source).pairwise
  rw [hspans] at hapart
  exact (List.pairwise_cons.1 (List.pairwise_append.1 hapart).2.1).1 other hother

/-- The line of a hit stands between the other lines that a text goes on in. -/
theorem exists_linesWith_eq {before following absorbed : List Span}
    (hspans : (grammar.scan source).spans = before ++ span :: following)
    (hkind : span.kind.isComment = true)
    (hcontinued : span.ContinuedBy join source marker.bytes following absorbed)
    (hline : (span.commentLines source)[hit.line]? = some line) :
    ∃ front back, span.linesWith source absorbed = front ++ line :: back ∧
      hit.line = front.length ∧
      (∀ other ∈ front, other.offset + other.text.length ≤ line.offset) ∧
      ∀ other ∈ back, line.offset + line.text.length ≤ other.offset := by
  have hordered := Span.pairwise_commentLines source hkind
  have hmem : ∀ other ∈ span :: following, other ∈ (grammar.scan source).spans := by
    intro other hother
    rw [hspans]
    exact List.mem_append_right _ hother
  have hhas := (mem_commentLines_iff_of_mem_scan (hmem span List.mem_cons_self) hkind).1
    (List.mem_of_getElem? hline)
  obtain ⟨front, back, hown, hnumber⟩ := exists_eq_append_of_getElem? hline
  rw [hown] at hordered
  obtain ⟨-, hback, hfront⟩ := List.pairwise_append.1 hordered
  refine ⟨front, back ++ absorbed.flatMap (·.commentLines source), ?_, hnumber,
    fun other hother => hfront other hother line List.mem_cons_self, ?_⟩
  · rw [Span.linesWith, hown, List.append_assoc, List.cons_append]
  · intro other hother
    rcases List.mem_append.1 hother with hother | hother
    · exact (List.pairwise_cons.1 hback).1 other hother
    · obtain ⟨comment, hcomment, hother⟩ := List.mem_flatMap.1 hother
      obtain ⟨hfollowing, hlineKind⟩ := hcontinued.of_mem comment hcomment
      have hcommentKind : comment.kind.isComment = true := by
        rw [hlineKind]
        rfl
      have hotherHas := (mem_commentLines_iff_of_mem_scan
        (hmem comment (List.mem_cons_of_mem _ hfollowing)) hcommentKind).1 hother
      have hnext := stop_le_of_mem_following hspans hfollowing
      obtain ⟨-, -, -, -, -, hstop⟩ := hhas.exists_eq_append
      obtain ⟨-, -, -, -, hbody, -⟩ := hotherHas.exists_eq_append
      have hopener : comment.start ≤ comment.bodyStart := Nat.le_add_right _ _
      omega

/-- The hits of a comment, with the lines that they are in. -/
theorem exists_line_of_mem_hits {before following : List Span}
    (hspans : (grammar.scan source).spans = before ++ span :: following)
    (hkind : span.kind.isComment = true)
    (hfound : hits marker.bytes (span.commentLines source) = .ok found) (absorbed : List Span) :
    ∀ hit ∈ found, ∃ line, (span.commentLines source)[hit.line]? = some line ∧
      (span.linesWith source absorbed)[hit.line]? = some line ∧ span.HasLine source line ∧
        IsHit marker.bytes none 0 line.text hit.toLineHit := by
  have hmem : span ∈ (grammar.scan source).spans := by
    rw [hspans]
    simp
  have hne : marker.bytes ≠ [] := marker.bytes_ne_nil
  intro hit hhit
  obtain ⟨line, hline, hplace⟩ := isHit_of_mem_hits hne marker.solid_bytes hfound hit hhit
  refine ⟨line, hline, ?_, ?_, hplace⟩
  · rw [Span.linesWith, List.getElem?_append_left (List.getElem?_eq_some_iff.1 hline).1, hline]
  · exact (mem_commentLines_iff_of_mem_scan hmem hkind).1 (List.mem_of_getElem? hline)

/-- The annotation of the first hit of a comment retells what those of all its hits tell. -/
theorem retells_of_hits {before following absorbed : List Span} {rest : List Hit}
    (hspans : (grammar.scan source).spans = before ++ span :: following)
    (hkind : span.kind.isComment = true)
    (hfound : hits marker.bytes (span.commentLines source) = .ok (hit :: rest))
    (habsorbed : Query.continuing ⟨marker, .all, join⟩ source span following = .ok absorbed) :
    Retells grammar marker join source
      (annotationOf ⟨marker, .first, join⟩ source span absorbed hit none)
      (annotationsOf ⟨marker, .all, join⟩ source span absorbed (hit :: rest)) := by
  have hne : marker.bytes ≠ [] := marker.bytes_ne_nil
  have hlines := exists_line_of_mem_hits hspans hkind hfound absorbed
  have hordered := (hitsFrom_exact hne marker.solid_bytes hfound).1
  have hcontinued := continuedBy_of_continuing hspans habsorbed
  refine ⟨⟨_, _, rfl, rfl⟩, ?_, ?_, before, span, following, absorbed, hspans,
    fun note hnote => (of_mem_annotateHits hnote).2.1, hcontinued, ?_⟩
  · refine solidChars_retold (fun other hother => ?_) hordered
    obtain ⟨line, -, hline⟩ := hlines other hother
    exact ⟨line, hline⟩
  · intro note hnote
    obtain ⟨front, own, back, hsplit, hmade⟩ := exists_of_mem_annotateHits hnote
    obtain ⟨line, -, hline, hhas, hhit⟩ := hlines own (by rw [hsplit]; simp)
    obtain ⟨-, hreference, hprefix, -⟩ := reference_of_annotationOf hmade hline hhas hhit
    exact ⟨hreference, hprefix⟩
  · obtain ⟨line, hown, hline, hhas, hhit⟩ := hlines hit List.mem_cons_self
    obtain ⟨front, back, hsplit, hnumber, hbefore, hafter⟩ :=
      exists_linesWith_eq hspans hkind hcontinued hown
    have hstop : ∀ note, note = annotationOf ⟨marker, .first, join⟩ source span absorbed hit none →
        note.markerStop + (note.reference source).length = line.offset + hit.stop :=
      fun note hnote => (reference_of_annotationOf hnote hline hhas hhit).2.2.2
    rw [hstop _ rfl, hsplit, solidChars_textBehind hnumber hhit.stop_le hbefore hafter, ← hsplit]
    rfl

/-- A comment under the two policies: either it has no annotations, or the one of its first marker
retells what those of all its markers tell. -/
theorem exists_retells {before following : List Span} {first all : List Annotation}
    (hspans : (grammar.scan source).spans = before ++ span :: following)
    (hkind : span.kind.isComment = true)
    (hfirst : annotateComment ⟨marker, .first, join⟩ source span following = .ok first)
    (hall : annotateComment ⟨marker, .all, join⟩ source span following = .ok all) :
    first = [] ∧ all = [] ∨
      (∀ note ∈ all, note.spanStart = span.start) ∧
        ∃ note, first = [note] ∧ Retells grammar marker join source note all := by
  obtain ⟨found, hfound, hchoice⟩ := exists_of_annotateComment hfirst
  obtain ⟨again, hagain, hother⟩ := exists_of_annotateComment hall
  obtain rfl : again = found := Except.ok.inj (hagain.symm.trans hfound)
  cases again with
  | nil =>
      obtain ⟨-, rfl⟩ := hchoice.resolve_right fun hsome => hsome.1 rfl
      obtain ⟨-, rfl⟩ := hother.resolve_right fun hsome => hsome.1 rfl
      exact Or.inl ⟨rfl, rfl⟩
  | cons hit rest =>
      obtain ⟨-, absorbed, habsorbed, rfl⟩ := hchoice.resolve_left (by simp)
      obtain ⟨-, others, hothers, rfl⟩ := hother.resolve_left (by simp)
      obtain rfl : others = absorbed := Except.ok.inj (hothers.symm.trans habsorbed)
      exact Or.inr ⟨fun note hnote => (of_mem_annotateHits hnote).2.1, _, rfl,
        retells_of_hits hspans hkind hfound hothers⟩

end Comment

/-! ## The annotations of a source -/

/-- The annotations of a comment are split from those of the comments behind it. -/
theorem splitBy_spanStart_append {own others : List Annotation} {start : Nat} (hsome : own ≠ [])
    (hown : ∀ note ∈ own, note.spanStart = start)
    (hothers : ∀ note ∈ others, start < note.spanStart) :
    (own ++ others).splitBy (·.spanStart == ·.spanStart) =
      own :: others.splitBy (·.spanStart == ·.spanStart) := by
  have hchain : own.IsChain fun note other => (note.spanStart == other.spanStart) = true := by
    apply List.Pairwise.isChain
    apply List.pairwise_of_forall_mem_list
    intro note hnote other hother
    rw [beq_iff_eq, hown note hnote, hown other hother]
  rw [List.splitBy_append, List.splitBy_of_isChain hsome hchain, List.singleton_append]
  intro note hnote other hother
  rw [hown note (List.mem_of_mem_getLast? hnote), beq_eq_false_iff_ne]
  exact Nat.ne_of_lt (hothers other (List.mem_of_mem_head? hother))

/-- The annotations of all comments under the two policies. -/
theorem forall₂_retells {before spans : List Span} {firsts alls : List Annotation}
    (hspans : (grammar.scan source).spans = before ++ spans)
    (hfirst : extract ⟨marker, .first, join⟩ source spans = .ok firsts)
    (hall : extract ⟨marker, .all, join⟩ source spans = .ok alls) :
    List.Forall₂ (Retells grammar marker join source) firsts
      (alls.splitBy (·.spanStart == ·.spanStart)) := by
  induction spans generalizing before firsts alls with
  | nil =>
      cases hfirst
      cases hall
      exact .nil
  | cons span following ih =>
      rw [extract_cons] at hfirst hall
      obtain ⟨here, hhere, hbind⟩ := bind_eq_ok_iff.1 hfirst
      obtain ⟨more, hmore, hsame⟩ := bind_eq_ok_iff.1 hbind
      cases hsame
      obtain ⟨own, hown, hbind⟩ := bind_eq_ok_iff.1 hall
      obtain ⟨others, hothers, hsame⟩ := bind_eq_ok_iff.1 hbind
      cases hsame
      have hnext := hspans
      rw [List.append_cons] at hnext
      have hrest := ih hnext hmore hothers
      by_cases hkind : span.kind.isComment = true
      · rw [if_pos hkind] at hhere hown
        rcases exists_retells hspans hkind hhere hown with ⟨rfl, rfl⟩ | ⟨hstarts, note, rfl, hnote⟩
        · exact hrest
        · obtain ⟨first, rest, hsome, -⟩ := hnote.head
          have hbehind : ∀ note ∈ others, span.start < note.spanStart := by
            intro note hnote
            obtain ⟨front, comment, back, continuing, hit, next, hsplit, hmade⟩ :=
              exists_madeFrom hothers hnote
            have hlong := (tiles_textOf grammar source).start_lt_stop span (by simp [hspans])
            have hapart := stop_le_of_mem_following hspans
              (show comment ∈ following by simp [hsplit])
            rw [hmade.foundIn.start]
            omega
          rw [splitBy_spanStart_append (by simp [hsome]) hstarts hbehind]
          exact .cons hnote hrest
      · rw [if_neg hkind] at hhere hown
        cases hhere
        cases hown
        exact hrest

/-- The two marker policies tell the same.  A source has annotations under the one exactly if it has
some under the other.  If only the first marker of a comment counts, there is one annotation for
each comment with annotations, and it retells all of them. -/
theorem policies_tell_the_same (grammar : Grammar) (marker : Marker) (join : Bool)
    (source : Bytes) :
    ((∃ notes, grammar.annotations ⟨marker, .first, join⟩ source = .ok notes) ↔
      ∃ notes, grammar.annotations ⟨marker, .all, join⟩ source = .ok notes) ∧
    ∀ firsts alls, grammar.annotations ⟨marker, .first, join⟩ source = .ok firsts →
      grammar.annotations ⟨marker, .all, join⟩ source = .ok alls →
        List.Forall₂ (Retells grammar marker join source) firsts
          (alls.splitBy (·.spanStart == ·.spanStart)) := by
  constructor
  · rw [exists_annotations_eq_ok_iff, exists_annotations_eq_ok_iff]
  · intro firsts alls hfirst hall
    have hspans : (grammar.scan source).spans = [] ++ (grammar.scan source).spans := rfl
    exact forall₂_retells hspans (extract_of_annotations hfirst).2 (extract_of_annotations hall).2

/-- A line comment with two markers that goes on in the comment below it, and another comment. -/
theorem policies_tell_the_same_joined :
    ∃ firsts alls,
      Grammar.c.annotations ⟨.todo, .first, true⟩
        (Text.encode "// @TODO(#3) a  @TODO(#07) b\n//  c\n/* x @TODO y */") = .ok firsts ∧
      Grammar.c.annotations ⟨.todo, .all, true⟩
        (Text.encode "// @TODO(#3) a  @TODO(#07) b\n//  c\n/* x @TODO y */") = .ok alls ∧
      firsts.map (·.payload) = ["a  @TODO(#07) b\nc", "y"] ∧
      alls.map (·.payload) = ["a", "b\nc", "y"] ∧
      List.Forall₂ (Retells .c .todo true
          (Text.encode "// @TODO(#3) a  @TODO(#07) b\n//  c\n/* x @TODO y */"))
        firsts (alls.splitBy (·.spanStart == ·.spanStart)) := by
  have hfirst : Grammar.c.annotations ⟨.todo, .first, true⟩
      (Text.encode "// @TODO(#3) a  @TODO(#07) b\n//  c\n/* x @TODO y */") =
        .ok [⟨.todo, "a  @TODO(#07) b\nc", ⟨3, 1, 4⟩, .lineComment, 0, 34, some 3⟩,
          ⟨.todo, "y", ⟨40, 3, 6⟩, .blockComment, 35, 50, none⟩] := by
    decide +kernel
  have hall : Grammar.c.annotations ⟨.todo, .all, true⟩
      (Text.encode "// @TODO(#3) a  @TODO(#07) b\n//  c\n/* x @TODO y */") =
        .ok [⟨.todo, "a", ⟨3, 1, 4⟩, .lineComment, 0, 34, some 3⟩,
          ⟨.todo, "b\nc", ⟨16, 1, 17⟩, .lineComment, 0, 34, some 7⟩,
          ⟨.todo, "y", ⟨40, 3, 6⟩, .blockComment, 35, 50, none⟩] := by
    decide +kernel
  have hsame := (policies_tell_the_same .c .todo true
    (Text.encode "// @TODO(#3) a  @TODO(#07) b\n//  c\n/* x @TODO y */")).2 _ _ hfirst hall
  exact ⟨_, _, hfirst, hall, rfl, rfl, hsame⟩

end CommentMarkers
