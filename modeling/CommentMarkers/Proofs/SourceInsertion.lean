import CommentMarkers.Edit.Report
import CommentMarkers.Proofs.CommentInsertion
import CommentMarkers.Proofs.LexingInsertion

/-!
# A source with an inserted reference

Writing a reference behind a marker of a source changes the comment that holds the marker and
nothing else.  So the annotations of the source stay what they are, except that the marker now has
an issue and that everything behind it stands further on.

Main results:

- Theorem `exists_comment_of_findings`: a finding of a source is one of a comment, and exchanging
  the comment exchanges its findings.
- Theorem `exists_exchange`: a reference exchanges the comment that holds its marker.
- Theorem `annotations_insert`: the annotations of a source with an inserted reference.
-/

namespace CommentMarkers

variable {query : Query} {before after : List Lexeme} {comment other : Lexeme}

/-! ## Exchanging a comment -/

/-- A comment is no line break. -/
theorem isLineBreak_of_isComment (hkind : comment.kind.isComment = true) :
    comment.isLineBreak = false := by
  unfold Lexeme.isLineBreak
  rw [decide_eq_false (SpanKind.ne_code_of_isComment hkind)]
  rfl

/-- The text of a comment ends in front of a comment with a marker, whatever else that comment
says. -/
theorem continuedTexts_change {marker : Bytes} (hkind : comment.kind.isComment = true)
    (hsame : other.kind = comment.kind) (hhits : HasHits marker comment)
    (hothers : HasHits marker other) (before : List Lexeme) :
    continuedTexts marker (before ++ other :: after) =
      continuedTexts marker (before ++ comment :: after) := by
  match before with
  | [] =>
      cases after with
      | nil => rfl
      | cons first rest =>
          rw [List.nil_append, List.nil_append, continuedTexts, continuedTexts,
            isLineBreak_of_isComment hkind, isLineBreak_of_isComment (hsame ▸ hkind)]
  | [gap] =>
      rcases hhits with ⟨found, hfound, hne⟩
      rcases hothers with ⟨others, hothersFound, hothersNe⟩
      rw [List.singleton_append, List.singleton_append, continuedTexts, continuedTexts, hsame,
        hfound, hothersFound]
      simp only [ok_bind, List.isEmpty_iff, hne, hothersNe, if_false]
  | gap :: first :: rest =>
      have hrest := continuedTexts_change hkind hsame hhits hothers rest
      rw [List.cons_append, List.cons_append, List.cons_append, List.cons_append, continuedTexts,
        continuedTexts, hrest]

/-- What is found in front of a comment with a marker does not depend on what else that comment
says. -/
theorem commentFindings_change {lexeme : Lexeme} (hkind : comment.kind.isComment = true)
    (hsame : other.kind = comment.kind) (hhits : HasHits query.marker.bytes comment)
    (hothers : HasHits query.marker.bytes other) :
    commentFindings query lexeme (before ++ other :: after) =
      commentFindings query lexeme (before ++ comment :: after) := by
  unfold commentFindings Query.continuedTexts
  rw [continuedTexts_change hkind hsame hhits hothers before]

/-- A finding behind nothing stays where it is. -/
theorem Finding.behind_nil (finding : Finding) : finding.behind [] = finding := by
  simp [behind, moved, Bytes.newlineCount]

/-- A finding behind two texts is behind both of them. -/
theorem Finding.behind_behind (finding : Finding) (first second : Bytes) :
    (finding.behind second).behind first = finding.behind (first ++ second) := by
  rw [behind, behind, moved_moved, behind, List.length_append, newlineCount_append]

/-- More bytes in the text in front of a finding move it. -/
theorem Finding.behind_longer (finding : Finding) {text longer : Bytes} {count : Nat}
    (hlength : longer.length = text.length + count)
    (hlines : Bytes.newlineCount longer = Bytes.newlineCount text) :
    finding.behind longer = (finding.behind text).moved count 0 := by
  rw [behind, behind, moved_moved, hlength, hlines, Nat.zero_add, Nat.add_comm]

/-- A finding may be moved before it gets a text in front of it. -/
theorem Finding.behind_moved (finding : Finding) (text : Bytes) (count : Nat) :
    (finding.moved count 0).behind text = (finding.behind text).moved count 0 := by
  rw [behind, behind, moved_moved, moved_moved, Nat.add_comm, Nat.zero_add, Nat.add_zero]

/-! ## The comment of a finding -/

/-- What is found in lexemes is found in the first one or behind it. -/
theorem findings_cons {lexeme : Lexeme} {rest : List Lexeme} {here more : List Finding}
    (hhere : (if lexeme.kind.isComment then commentFindings query lexeme rest else return []) =
      .ok here) (hmore : findings query rest = .ok more) :
    findings query (lexeme :: rest) = .ok (here ++ more.map (·.behind lexeme.text)) := by
  rw [findings, hhere, hmore]
  rfl

/-- A finding of a source is one of a comment.  If another text of the comment reports it, the same
source with that text reports it, and what is found behind it moves. -/
theorem exists_comment_of_findings {lexemes : List Lexeme} {pre post : List Finding}
    {finding : Finding} (hfindings : findings query lexemes = .ok (pre ++ finding :: post)) :
    ∃ before comment after first inner second,
      lexemes = before ++ comment :: after ∧ comment.kind.isComment = true ∧
        commentFindings query comment after = .ok (first ++ inner :: second) ∧
          finding = inner.behind (textOf before) ∧
            ∀ other issue count,
              Reports query comment other after first inner second issue count →
                findings query (before ++ other :: after) =
                  .ok (pre ++ { finding with issue := issue } :: post.map (·.moved count 0)) := by
  induction lexemes generalizing pre finding post with
  | nil =>
      have hnil := Except.ok.inj hfindings
      cases pre <;> cases hnil
  | cons lexeme rest ih =>
      rcases bind_eq_ok_iff.1 hfindings with ⟨here, hhere, hbind⟩
      rcases bind_eq_ok_iff.1 hbind with ⟨behind, hbehind, hsame⟩
      rcases map_eq_ok_iff.1 hbehind with ⟨more, hmore, rfl⟩
      rcases append_eq_append_cons (Except.ok.inj hsame) with
        ⟨inner, rfl, rfl⟩ | ⟨inner, rfl, hinner⟩
      · -- The finding is one of the first lexeme, which is a comment then.
        by_cases hkind : lexeme.kind.isComment = true
        · rw [if_pos hkind] at hhere
          refine ⟨[], lexeme, rest, pre, finding, inner, rfl, hkind, hhere,
            finding.behind_nil.symm, fun other issue count hreports => ?_⟩
          rw [List.nil_append, findings_cons
            ((if_pos (hreports.kind.symm ▸ hkind)).trans hreports.findings) hmore]
          have hmoved : more.map (·.behind other.text) =
              (more.map (·.behind lexeme.text)).map (·.moved count 0) := by
            rw [List.map_map]
            apply List.map_congr_left
            intro finding _
            exact finding.behind_longer hreports.length hreports.lines
          rw [hmoved, List.map_append, List.append_assoc, List.cons_append]
        · rw [if_neg hkind] at hhere
          have hnil := Except.ok.inj hhere
          cases pre <;> cases hnil
      · -- The finding is one of the other lexemes.
        rcases List.map_eq_append_iff.1 hinner with ⟨front, others, rfl, rfl, hothers⟩
        rcases List.map_eq_cons_iff.1 hothers with ⟨found, back, rfl, rfl, rfl⟩
        rcases ih hmore with
          ⟨before, comment, after, first, own, second, rfl, hkind, hcomment, rfl, hchange⟩
        refine ⟨lexeme :: before, comment, after, first, own, second, rfl, hkind, hcomment,
          own.behind_behind _ _, fun other issue count hreports => ?_⟩
        have hfirst : (if lexeme.kind.isComment then
            commentFindings query lexeme (before ++ other :: after) else return []) = .ok here := by
          rw [commentFindings_change hkind hreports.kind hreports.found hreports.foundAgain]
          exact hhere
        have hmoved : (back.map (·.moved count 0)).map (·.behind lexeme.text) =
            (back.map (·.behind lexeme.text)).map (·.moved count 0) := by
          rw [List.map_map, List.map_map]
          apply List.map_congr_left
          intro finding _
          exact finding.behind_moved lexeme.text count
        rw [List.cons_append, findings_cons hfirst (hchange other issue count hreports),
          List.map_append, List.map_cons, hmoved, List.append_assoc]
        rfl

/-! ## The edited source -/

variable {grammar : Grammar} {source : Bytes} {lexing : Lexing}

/-- A line comment of a source closes with nothing. -/
theorem Lexes.encode_closer (hlexes : Lexes grammar.openers source lexing)
    (hkind : comment.kind.isComment = true) (hsplit : lexing.lexemes = before ++ comment :: after)
    (hsource : source = textOf before ++ (comment.text ++ textOf after)) :
    comment.kind = .lineComment → Text.encode comment.closer = [] := by
  rcases hlexes.exists_opener (SpanKind.ne_code_of_isComment hkind) hsplit hsource with
    ⟨opener, hopener, word, rfl, -⟩
  intro hline
  obtain ⟨token, -, rfl⟩ := Grammar.exists_ofLine hopener hline
  rfl

/-- Inserting behind a front. -/
theorem Bytes.insert_append (front back inserted : Bytes) :
    Bytes.insert (front ++ back) front.length inserted = front ++ (inserted ++ back) := by
  rw [Bytes.insert, List.take_left, List.drop_left, List.append_assoc]

/-- What a reference does to a source: a comment of the source gets another text with the same
marker in it, and the edited source is cut in the same way.  The marker stops at `cut`. -/
structure Exchange (grammar : Grammar) (query : Query) (source edited : Bytes) (cut count : Nat)
    (before after : List Lexeme) (comment other : Lexeme) : Prop where
  split : (lex grammar.openers source).lexemes = before ++ comment :: after
  edited : Lexes grammar.openers edited ⟨before ++ other :: after, none⟩
  isComment : comment.kind.isComment = true
  kind : other.kind = comment.kind
  found : HasHits query.marker.bytes comment
  foundAgain : HasHits query.marker.bytes other
  length : other.text.length = comment.text.length + count
  begins : (textOf before).length + query.marker.bytes.length ≤ cut
  ends : cut ≤ (textOf before).length + comment.text.length

/-- A reference behind a marker that is found in a comment of a source exchanges the comment for one
that reports the marker. -/
theorem exists_exchange_of_comment (htolerant : Tolerant grammar.openers) {reference : Bytes}
    {number : Nat} (hreference : IsReference reference (some number))
    (hshort : reference.length ≤ IssueTooLong.limit + 3)
    (hclosed : (lex grammar.openers source).unclosed = none)
    (hsplit : (lex grammar.openers source).lexemes = before ++ comment :: after)
    (hkind : comment.kind.isComment = true) {pre post : List Finding} {finding : Finding}
    (hcomment : commentFindings query comment after = .ok (pre ++ finding :: post))
    (hissue : finding.issue = none) {cut : Nat}
    (hcut : cut = (textOf before).length + (finding.offset + query.marker.bytes.length)) :
    ∃ other,
      Exchange grammar query source (Bytes.insert source cut reference) cut reference.length before
          after comment other ∧
        Reports query comment other after pre finding post (some number) reference.length := by
  have hlexes := lexes_lex grammar.openers source
  have hsource : source = textOf before ++ (comment.text ++ textOf after) := by
    have htexts := hlexes.texts_eq
    rw [hclosed, hsplit, textOf_append, textOf_cons] at htexts
    exact htexts
  have hlexeme : comment.WellFormed := by
    apply hlexes.wellFormed comment
    rw [hsplit]
    exact List.mem_append_right _ List.mem_cons_self
  obtain ⟨left, right, htext, hleft, hopener, hend, hright, hreports⟩ :=
    commentFindings_insert hlexeme hkind (hlexes.encode_closer hkind hsplit hsource) hreference
      hshort hcomment hissue
  -- The edited source is cut in the same way.
  have hinserted := hlexes.insert htolerant hreference hkind hsplit hsource htext hopener hend
    hright
  rw [hclosed] at hinserted
  have hplace : cut = (textOf before ++ left).length := by
    rw [hcut, List.length_append, hleft]
  have hedited : Bytes.insert source cut reference =
      textOf before ++ (left ++ (reference ++ (right ++ textOf after))) := by
    have hshape : source = textOf before ++ left ++ (right ++ textOf after) := by
      rw [hsource, htext]
      simp only [List.append_assoc]
    rw [hplace, hshape, Bytes.insert_append, List.append_assoc]
  refine ⟨_, {
    split := hsplit
    edited := hedited ▸ hinserted
    isComment := hkind
    kind := hreports.kind
    found := hreports.found
    foundAgain := hreports.foundAgain
    length := hreports.length
    begins := by omega
    ends := by
      rw [hplace, htext, List.length_append, List.length_append]
      omega }, hreports⟩

/-- A reference behind a marker of a source exchanges a comment.  The issue of the marker is found
in the edited source, and what is behind it moves. -/
theorem exists_exchange (htolerant : Tolerant grammar.openers) {reference : Bytes} {number : Nat}
    (hreference : IsReference reference (some number))
    (hshort : reference.length ≤ IssueTooLong.limit + 3) {pre post : List Annotation}
    {note : Annotation} (hnotes : grammar.annotations query source = .ok (pre ++ note :: post))
    (hissue : note.issue = none) :
    ∃ before after comment other found,
      Exchange grammar query source (Bytes.insert source note.markerStop reference)
          note.markerStop reference.length before after comment other ∧
        findings query (before ++ other :: after) = .ok found ∧
          found.map (·.moved 0 1) = pre.map (·.finding) ++
            { note.finding with issue := some number } ::
              (post.map (·.finding)).map (·.moved reference.length 0) := by
  rcases exists_findings_of_annotations (lexes_lex grammar.openers source) hnotes with
    ⟨hclosed, found, hfound, hsame⟩
  have hmarker : note.marker = query.marker :=
    marker_of_mem_extract (extract_of_annotations hnotes).2 note
      (List.mem_append_right _ List.mem_cons_self)
  rw [List.map_append, List.map_cons] at hsame
  rcases List.map_eq_append_iff.1 hsame with ⟨first, rest, rfl, hfirst, hrest⟩
  rcases List.map_eq_cons_iff.1 hrest with ⟨finding, second, rfl, hfinding, hsecond⟩
  rcases exists_comment_of_findings hfound with
    ⟨before, comment, after, own, inner, more, hsplit, hkind, hcomment, rfl, hchange⟩
  have hunreported : inner.issue = none := by
    rw [← hissue]
    exact congrArg Finding.issue hfinding
  have hplace : note.markerStop =
      (textOf before).length + (inner.offset + query.marker.bytes.length) := by
    have hoffset := congrArg Finding.offset hfinding
    change 0 + ((textOf before).length + inner.offset) = note.place.offset at hoffset
    unfold Annotation.markerStop
    rw [← hoffset, hmarker, Nat.zero_add, Nat.add_assoc]
  obtain ⟨other, hexchange, hreports⟩ := exists_exchange_of_comment htolerant hreference hshort
    hclosed hsplit hkind hcomment hunreported hplace
  refine ⟨before, after, comment, other, _, hexchange, hchange _ _ _ hreports, ?_⟩
  rw [← hfirst, ← hfinding, ← hsecond, List.map_append, List.map_cons, List.map_map, List.map_map]
  congr 2
  apply List.map_congr_left
  intro finding _
  simp only [Function.comp, Finding.moved_moved, Nat.add_comm, Nat.zero_add]

/-- A reference behind a marker of a source becomes the issue of the marker, and moves what is
behind it.  Nothing else changes. -/
theorem annotations_insert (htolerant : Tolerant grammar.openers) {reference : Bytes}
    {number : Nat} (hreference : IsReference reference (some number))
    (hshort : reference.length ≤ IssueTooLong.limit + 3) {pre post : List Annotation}
    {note : Annotation} (hnotes : grammar.annotations query source = .ok (pre ++ note :: post))
    (hissue : note.issue = none) :
    ∃ others, grammar.annotations query (Bytes.insert source note.markerStop reference) =
        .ok others ∧
      others.map (·.finding) = pre.map (·.finding) ++
        { note.finding with issue := some number } ::
          (post.map (·.finding)).map (·.moved reference.length 0) := by
  obtain ⟨before, after, comment, other, found, hexchange, hfound, hfindings⟩ :=
    exists_exchange htolerant hreference hshort hnotes hissue
  obtain ⟨others, hothers, hsame⟩ := exists_annotations_of_findings hexchange.edited rfl hfound
  exact ⟨others, hothers, hsame.trans hfindings⟩

end CommentMarkers
