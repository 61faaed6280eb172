import CommentMarkers.Proofs.AbsorbedComments
import CommentMarkers.Proofs.ContinuedPayloads

/-!
# Joining line comments

Whether line comments are joined or not, the same markers are annotated.  Joining lets the last
payload of a line comment go on in the comments that it absorbs, and moves the end of all its
annotations behind them.  Nothing else changes.

Main results:

- Theorem `exists_run`: the annotations of one comment with and without joining.
- Theorem `exists_runs`: the annotations of all comments with and without joining.
- Theorem `Runs.sublist`: a comment is annotated or absorbed at most once.
- Theorem `joining_keeps_annotations`: joining never loses, adds or moves an annotation.
-/

namespace CommentMarkers

variable {grammar : Grammar} {marker : Marker} {policy : MarkerPolicy} {source : Bytes}

/-! ## Annotations of hits -/

/-- Holds of annotations that differ at most in their payloads and in where they stop. -/
structure Annotation.SameEntry (note other : Annotation) : Prop where
  marker : note.marker = other.marker
  place : note.place = other.place
  kind : note.kind = other.kind
  start : note.spanStart = other.spanStart
  issue : note.issue = other.issue

/-- The annotations for the hits in a comment whose text goes on in other comments. -/
def annotationsOf (query : Query) (source : Bytes) (span : Span) (continuing : List Span)
    (found : List Hit) : List Annotation :=
  annotateHits query source span (span.stopWith continuing) (span.linesWith source continuing) found

/-- The first hit becomes the first annotation. -/
theorem annotationsOf_cons (query : Query) (source : Bytes) (span : Span) (continuing : List Span)
    (hit : Hit) (rest : List Hit) :
    annotationsOf query source span continuing (hit :: rest) =
      annotationOf query source span continuing hit rest.head? ::
        annotationsOf query source span continuing rest :=
  rfl

/-- A comment without hits has no annotations, and the others have those of the hits that count. -/
theorem exists_of_annotateComment {query : Query} {span : Span} {following : List Span}
    {notes : List Annotation} (hnotes : annotateComment query source span following = .ok notes) :
    ∃ found, hits query.marker.bytes (span.commentLines source) = .ok found ∧
      (found = [] ∧ notes = [] ∨
        found ≠ [] ∧ ∃ continuing, query.continuing source span following = .ok continuing ∧
          notes = annotationsOf query source span continuing (query.policy.select found)) := by
  obtain ⟨found, hfound, hannotate⟩ := bind_eq_ok_iff.1 hnotes
  refine ⟨found, hfound, ?_⟩
  cases found with
  | nil =>
      cases hannotate
      exact Or.inl ⟨rfl, rfl⟩
  | cons hit rest =>
      obtain ⟨continuing, hcontinuing, hsame⟩ := bind_eq_ok_iff.1 hannotate
      cases hsame
      exact Or.inr ⟨List.cons_ne_nil hit rest, continuing, hcontinuing, rfl⟩

section Hits

variable {span : Span} {continuing : List Span} {found : List Hit}

/-- The hits that count are hits in lines of the comment. -/
theorem line_lt_of_mem_select
    (hfound : hits marker.bytes (span.commentLines source) = .ok found) :
    ∀ hit ∈ policy.select found, hit.line < (span.commentLines source).length := by
  have hne : marker.bytes ≠ [] := marker.bytes_ne_nil
  intro hit hhit
  have hmem := (policy.select_sublist found).subset hhit
  obtain ⟨line, hline, -⟩ := isHit_of_mem_hits hne marker.solid_bytes hfound hit hmem
  exact (List.getElem?_eq_some_iff.1 hline).1

/-- Comments that go on with a text do not change the offset of a hit. -/
theorem hitOffset_linesWith {hit : Hit} (hhit : hit.line < (span.commentLines source).length)
    (continuing : List Span) :
    hitOffset (span.linesWith source continuing) hit =
      hitOffset (span.commentLines source) hit := by
  rw [hitOffset, hitOffset, Span.linesWith, List.getElem?_append_left hhit]

/-- Annotations of the same hits are about the same markers. -/
theorem forall₂_annotationsOf
    (hhits : ∀ hit ∈ found, hit.line < (span.commentLines source).length) :
    List.Forall₂ Annotation.SameEntry (annotationsOf ⟨marker, policy, false⟩ source span [] found)
      (annotationsOf ⟨marker, policy, true⟩ source span continuing found) := by
  induction found with
  | nil => exact .nil
  | cons hit rest ih =>
      obtain ⟨hfirst, hrest⟩ := List.forall_mem_cons.1 hhits
      rw [annotationsOf_cons, annotationsOf_cons]
      refine .cons ⟨rfl, ?_, rfl, rfl, rfl⟩ (ih hrest)
      rw [annotationOf, annotationOf, hitOffset_linesWith hfirst, hitOffset_linesWith hfirst]

/-- Of the annotations of the same hits, only the payload of the last one is continued. -/
theorem exists_payloads (hsome : found ≠ [])
    (hhits : ∀ hit ∈ found, hit.line < (span.commentLines source).length)
    (hline : continuing ≠ [] → span.kind = .lineComment) :
    ∃ front last,
      (annotationsOf ⟨marker, policy, false⟩ source span [] found).map (·.payload) =
        front ++ [last] ∧
      (annotationsOf ⟨marker, policy, true⟩ source span continuing found).map (·.payload) =
        front ++ [continuedPayload last (continuing.flatMap (·.strippedTexts source))] := by
  induction found with
  | nil => exact absurd rfl hsome
  | cons hit rest ih =>
      obtain ⟨hfirst, hrest⟩ := List.forall_mem_cons.1 hhits
      simp only [annotationsOf_cons, List.map_cons]
      cases rest with
      | nil =>
          refine ⟨[], _, rfl, ?_⟩
          exact congrArg (fun payload => [payload]) (decode_payloadBytes_linesWith hfirst hline)
      | cons next more =>
          obtain ⟨front, last, hapart, hjoined⟩ := ih (List.cons_ne_nil next more) hrest
          have hnext := (List.forall_mem_cons.1 hrest).1
          -- The first payload ends at the next hit, which is in the lines of the comment itself.
          refine ⟨_ :: front, last, congrArg _ hapart, ?_⟩
          rw [hjoined, List.cons_append]
          congr 1
          change Text.decode (payloadBytes _ hit (some next)) =
            Text.decode (payloadBytes _ hit (some next))
          rw [Span.linesWith, Span.linesWith, payloadBytes_append hit hnext,
            payloadBytes_append hit hnext]

end Hits

/-! ## Annotated comments -/

/-- An annotated comment, the comments that it absorbs, and its annotations without and with
joining. -/
structure CommentRun where
  comment : Span
  absorbed : List Span
  apart : List Annotation
  joined : List Annotation

/-- The comments whose texts are annotated together. -/
def CommentRun.comments (run : CommentRun) : List Span :=
  run.comment :: run.absorbed

/-- What is known of an annotated comment, with the spans behind it: a line comment absorbs the
longest run of comments that go on with its text, and another comment absorbs nothing.  The
annotations agree in number and order, and in all but where they stop and the last payload. -/
structure CommentRun.IsIn (run : CommentRun) (source marker : Bytes) (following : List Span) :
    Prop where
  isMarked : run.comment.IsMarked source marker
  absorbs : run.comment.kind = .lineComment → ∀ absorbed,
    run.comment.Absorbs source marker following absorbed ↔ absorbed = run.absorbed
  alone : run.comment.kind ≠ .lineComment → run.absorbed = []
  same : List.Forall₂ Annotation.SameEntry run.apart run.joined
  apart : ∀ note ∈ run.apart, note.spanStart = run.comment.start ∧ note.spanStop = run.comment.stop
  joined : ∀ note ∈ run.joined, note.spanStop = run.comment.stopWith run.absorbed
  payloads : ∃ front last, run.apart.map (·.payload) = front ++ [last] ∧
    run.joined.map (·.payload) =
      front ++ [continuedPayload last (run.absorbed.flatMap (·.strippedTexts source))]

/-- Without hits there is nothing to select, and with hits there is. -/
theorem MarkerPolicy.select_ne_nil (policy : MarkerPolicy) {found : List Hit} (hsome : found ≠ []) :
    policy.select found ≠ [] := by
  obtain ⟨hit, rest, rfl⟩ := List.exists_cons_of_ne_nil hsome
  cases policy <;> exact List.cons_ne_nil _ _

/-- A line comment absorbs the longest run of comments that go on with its text, and another comment
absorbs nothing. -/
theorem absorbs_of_continuing {before following absorbed : List Span} {span : Span}
    (hspans : (grammar.scan source).spans = before ++ span :: following)
    (habsorbed : Query.continuing ⟨marker, policy, true⟩ source span following = .ok absorbed) :
    (span.kind = .lineComment → ∀ other,
      span.Absorbs source marker.bytes following other ↔ other = absorbed) ∧
      (span.kind ≠ .lineComment → absorbed = []) := by
  have hne : marker.bytes ≠ [] := marker.bytes_ne_nil
  rw [Query.continuing, Bool.true_and] at habsorbed
  constructor
  · intro hline other
    rw [if_pos (decide_eq_true hline)] at habsorbed
    have habsorbs := absorbs_of_continuation hne marker.solid_bytes hspans habsorbed
    constructor
    · intro hother
      exact hother.unique habsorbs
    · intro hsame
      rwa [hsame]
  · intro hother
    rw [if_neg (by simpa using hother)] at habsorbed
    exact (Except.ok.inj habsorbed).symm

/-- A comment with and without joining: either it has no marker and no annotations, or its
annotations are known. -/
theorem exists_run {before following : List Span} {span : Span} {apart joined : List Annotation}
    (hspans : (grammar.scan source).spans = before ++ span :: following)
    (hkind : span.kind.isComment = true)
    (hapart : annotateComment ⟨marker, policy, false⟩ source span following = .ok apart)
    (hjoined : annotateComment ⟨marker, policy, true⟩ source span following = .ok joined) :
    ¬ span.IsMarked source marker.bytes ∧ apart = [] ∧ joined = [] ∨
      ∃ absorbed,
        CommentRun.IsIn ⟨span, absorbed, apart, joined⟩ source marker.bytes following := by
  have hne : marker.bytes ≠ [] := marker.bytes_ne_nil
  have hmem : span ∈ (grammar.scan source).spans := by
    rw [hspans]
    simp
  obtain ⟨found, hfound, hchoice⟩ := exists_of_annotateComment hapart
  obtain ⟨again, hagain, hother⟩ := exists_of_annotateComment hjoined
  obtain rfl : again = found := Except.ok.inj (hagain.symm.trans hfound)
  have hempty := hits_eq_nil_iff hne marker.solid_bytes hmem hkind hfound
  by_cases hnone : again = []
  · obtain ⟨-, rfl⟩ := hchoice.resolve_right fun hsome => hsome.1 hnone
    obtain ⟨-, rfl⟩ := hother.resolve_right fun hsome => hsome.1 hnone
    exact Or.inl ⟨hempty.1 hnone, rfl, rfl⟩
  · obtain ⟨-, _, halone, rfl⟩ := hchoice.resolve_left fun hempty => hnone hempty.1
    obtain ⟨-, absorbed, habsorbed, rfl⟩ := hother.resolve_left fun hempty => hnone hempty.1
    cases halone
    obtain ⟨hline, hothers⟩ := absorbs_of_continuing hspans habsorbed
    have hhits : ∀ hit ∈ policy.select again, hit.line < (span.commentLines source).length :=
      line_lt_of_mem_select hfound
    right
    refine ⟨absorbed, ?_⟩
    exact {
      isMarked := not_not.1 fun hunmarked => hnone (hempty.2 hunmarked)
      absorbs := hline
      alone := hothers
      same := forall₂_annotationsOf hhits
      apart := fun note hnote => (of_mem_annotateHits hnote).2
      joined := fun note hnote => (of_mem_annotateHits hnote).2.2
      payloads := exists_payloads (policy.select_ne_nil hnone) hhits
        fun hsome => not_not.1 fun hkind => hsome (hothers hkind) }

/-! ## Annotated comments of a source -/

/-- Relates spans to the runs that begin at the marked ones among them. -/
inductive Runs (source marker : Bytes) : List Span → List CommentRun → Prop where
  | nil : Runs source marker [] []
  | skip {span : Span} {following : List Span} {runs : List CommentRun} :
      ¬ span.IsMarked source marker → Runs source marker following runs →
      Runs source marker (span :: following) runs
  | take {run : CommentRun} {following : List Span} {runs : List CommentRun} :
      run.IsIn source marker following → Runs source marker following runs →
      Runs source marker (run.comment :: following) (run :: runs)

/-- The annotations of a source with and without joining belong to the same runs. -/
theorem exists_runs {before spans : List Span} {apart joined : List Annotation}
    (hspans : (grammar.scan source).spans = before ++ spans)
    (hapart : extract ⟨marker, policy, false⟩ source spans = .ok apart)
    (hjoined : extract ⟨marker, policy, true⟩ source spans = .ok joined) :
    ∃ runs, Runs source marker.bytes spans runs ∧ apart = runs.flatMap (·.apart) ∧
      joined = runs.flatMap (·.joined) := by
  induction spans generalizing before apart joined with
  | nil =>
      cases hapart
      cases hjoined
      exact ⟨[], .nil, rfl, rfl⟩
  | cons span following ih =>
      rw [extract_cons] at hapart hjoined
      obtain ⟨here, hhere, hbind⟩ := bind_eq_ok_iff.1 hapart
      obtain ⟨more, hmore, hsame⟩ := bind_eq_ok_iff.1 hbind
      cases hsame
      obtain ⟨own, hown, hbind⟩ := bind_eq_ok_iff.1 hjoined
      obtain ⟨others, hothers, hsame⟩ := bind_eq_ok_iff.1 hbind
      cases hsame
      have hnext := hspans
      rw [List.append_cons] at hnext
      obtain ⟨runs, hruns, rfl, rfl⟩ := ih hnext hmore hothers
      by_cases hkind : span.kind.isComment = true
      · rw [if_pos hkind] at hhere hown
        rcases exists_run hspans hkind hhere hown with ⟨hunmarked, rfl, rfl⟩ | ⟨absorbed, hrun⟩
        · exact ⟨runs, .skip hunmarked hruns, rfl, rfl⟩
        · exact ⟨_ :: runs, .take hrun hruns, rfl, rfl⟩
      · rw [if_neg hkind] at hhere hown
        cases hhere
        cases hown
        exact ⟨runs, .skip (fun ⟨_, _, hmarker⟩ => hkind hmarker.isComment) hruns, rfl, rfl⟩

/-- Of the comments behind some spans without a marker, each is annotated or absorbed at most once,
and in the order of the source. -/
theorem Runs.sublist {marker : Bytes} {spans : List Span} {runs : List CommentRun}
    (hruns : Runs source marker spans runs) {front back : List Span}
    (hspans : spans = front ++ back)
    (hfront : ∀ span ∈ front, ¬ span.IsMarked source marker) :
    (runs.flatMap (·.comments)).Sublist back := by
  induction hruns generalizing front back with
  | nil => exact List.nil_sublist back
  | @skip span following runs hunmarked _ ih =>
      cases front with
      | nil =>
          rw [List.nil_append] at hspans
          rw [← hspans]
          exact (ih (List.nil_append following).symm nofun).cons span
      | cons first rest =>
          obtain ⟨-, hfollowing⟩ := List.cons.inj hspans
          exact ih hfollowing (List.forall_mem_cons.1 hfront).2
  | @take run following runs hrun _ ih =>
      cases front with
      | nil =>
          -- What is absorbed has no marker, so all other runs begin behind it.
          rw [List.nil_append] at hspans
          obtain ⟨passed, others, rfl, habsorbed, hpassed⟩ : ∃ passed others,
              following = passed ++ others ∧ run.absorbed.Sublist passed ∧
                ∀ other ∈ passed, ¬ other.IsMarked source marker := by
            by_cases hline : run.comment.kind = .lineComment
            · exact ((hrun.absorbs hline _).2 rfl).exists_front
            · exact ⟨[], following, rfl, by rw [hrun.alone hline], nofun⟩
          rw [← hspans, List.flatMap_cons, CommentRun.comments, List.cons_append]
          exact (habsorbed.append (ih rfl hpassed)).cons_cons run.comment
      | cons first rest =>
          obtain ⟨rfl, -⟩ := List.cons.inj hspans
          exact absurd hrun.isMarked (List.forall_mem_cons.1 hfront).1

/-- The annotations of runs agree one by one. -/
theorem Runs.forall₂ {marker : Bytes} {spans : List Span} {runs : List CommentRun}
    (hruns : Runs source marker spans runs) :
    List.Forall₂ Annotation.SameEntry (runs.flatMap (·.apart)) (runs.flatMap (·.joined)) := by
  induction hruns with
  | nil => exact .nil
  | skip _ _ ih => exact ih
  | take hrun _ ih => exact List.rel_append hrun.same ih

/-- No span of a scan is there twice. -/
theorem nodup_spans (grammar : Grammar) (source : Bytes) : (grammar.scan source).spans.Nodup := by
  have htiles := tiles_textOf grammar source
  apply htiles.pairwise.imp_of_mem
  rintro first second hfirst - hbehind rfl
  exact Nat.not_le_of_lt (htiles.start_lt_stop first hfirst) hbehind

/-- A source has annotations exactly if it scans to its end and all its comments have short
references. -/
theorem exists_annotations_eq_ok_iff {query : Query} :
    (∃ notes, grammar.annotations query source = .ok notes) ↔
      (grammar.scan source).failure = none ∧ ∀ span ∈ (grammar.scan source).spans,
        span.kind.isComment = true → span.HasShortReferences source query.marker.bytes := by
  rw [← exists_extract_eq_ok_iff]
  constructor
  · rintro ⟨notes, hnotes⟩
    obtain ⟨hfailure, hextract⟩ := extract_of_annotations hnotes
    exact ⟨hfailure, notes, hextract⟩
  · rintro ⟨hfailure, notes, hextract⟩
    refine ⟨notes, ?_⟩
    rw [Grammar.annotations, Scan.complete, hfailure]
    change (extract query source (grammar.scan source).spans).mapError _ = _
    rw [hextract]
    rfl

/-- Joining never loses, adds or moves an annotation.  A source has annotations with joining exactly
if it has some without.  They agree one by one in everything but where they stop and in payloads.
They belong to the same runs of comments, in which no comment is there twice. -/
theorem joining_keeps_annotations (grammar : Grammar) (marker : Marker) (policy : MarkerPolicy)
    (source : Bytes) :
    ((∃ notes, grammar.annotations ⟨marker, policy, false⟩ source = .ok notes) ↔
      ∃ notes, grammar.annotations ⟨marker, policy, true⟩ source = .ok notes) ∧
    ∀ apart joined, grammar.annotations ⟨marker, policy, false⟩ source = .ok apart →
      grammar.annotations ⟨marker, policy, true⟩ source = .ok joined →
        List.Forall₂ Annotation.SameEntry apart joined ∧
        ∃ runs, Runs source marker.bytes (grammar.scan source).spans runs ∧
          apart = runs.flatMap (·.apart) ∧ joined = runs.flatMap (·.joined) ∧
          (runs.flatMap (·.comments)).Sublist (grammar.scan source).spans ∧
          (runs.flatMap (·.comments)).Nodup := by
  constructor
  · rw [exists_annotations_eq_ok_iff, exists_annotations_eq_ok_iff]
  · intro apart joined hapart hjoined
    have hall : (grammar.scan source).spans = [] ++ (grammar.scan source).spans := rfl
    obtain ⟨runs, hruns, rfl, rfl⟩ := exists_runs hall (extract_of_annotations hapart).2
      (extract_of_annotations hjoined).2
    have hsublist := hruns.sublist hall nofun
    exact ⟨hruns.forall₂, runs, hruns, rfl, rfl, hsublist,
      (nodup_spans grammar source).sublist hsublist⟩

/-- Two markers in a comment, of which the second one goes on in the comment below it. -/
theorem joining_keeps_annotations_two_markers :
    ∃ apart joined,
      Grammar.c.annotations ⟨.todo, .all, false⟩
        (Text.encode "// @TODO a @TODO b\n//  more \n\n// x\n") = .ok apart ∧
      Grammar.c.annotations ⟨.todo, .all, true⟩
        (Text.encode "// @TODO a @TODO b\n//  more \n\n// x\n") = .ok joined ∧
      apart.map (fun note => (note.payload, note.spanStop)) = [("a", 18), ("b", 18)] ∧
      joined.map (fun note => (note.payload, note.spanStop)) = [("a", 28), ("b\nmore", 28)] ∧
      List.Forall₂ Annotation.SameEntry apart joined := by
  have hapart : Grammar.c.annotations ⟨.todo, .all, false⟩
      (Text.encode "// @TODO a @TODO b\n//  more \n\n// x\n") =
        .ok [⟨.todo, "a", ⟨3, 1, 4⟩, .lineComment, 0, 18, none⟩,
          ⟨.todo, "b", ⟨11, 1, 12⟩, .lineComment, 0, 18, none⟩] := by
    decide +kernel
  have hjoined : Grammar.c.annotations ⟨.todo, .all, true⟩
      (Text.encode "// @TODO a @TODO b\n//  more \n\n// x\n") =
        .ok [⟨.todo, "a", ⟨3, 1, 4⟩, .lineComment, 0, 28, none⟩,
          ⟨.todo, "b\nmore", ⟨11, 1, 12⟩, .lineComment, 0, 28, none⟩] := by
    decide +kernel
  obtain ⟨hsame, -⟩ := (joining_keeps_annotations .c .todo .all
    (Text.encode "// @TODO a @TODO b\n//  more \n\n// x\n")).2 _ _ hapart hjoined
  exact ⟨_, _, hapart, hjoined, rfl, rfl, hsame⟩

end CommentMarkers
