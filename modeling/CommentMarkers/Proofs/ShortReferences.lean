import CommentMarkers.Annotation.Extraction
import CommentMarkers.Proofs.CommentHits
import CommentMarkers.Proofs.Findings

/-!
# Searches that succeed

The search for a marker fails at a reference with more digits than are read, and at nothing else.
It skips the rest of a hit, but a hit leaves no room for such a reference, so none is overlooked:
whether extraction succeeds can be told from the comments alone, without following the search.

Main results:

- Theorem `hasShortReferences_iff`: a line is searched with success exactly if its references are
  short.
- Theorem `exists_extract_eq_ok_iff`: extraction succeeds exactly if all comments have short
  references.
-/

namespace CommentMarkers

variable {marker : Bytes}

/-! ## Lines -/

/-- A solid beginning of a text ends where a boundary is. -/
theorem Solid.prefix_of_isBoundary {word front behind : Bytes} (hsolid : Solid word)
    (hbehind : isBoundary behind.head? = true) (hstarts : word <+: front ++ behind) :
    word <+: front := by
  cases behind with
  | nil => rwa [List.append_nil] at hstarts
  | cons blank back => exact hsolid.prefix_of_append_blank front back hbehind hstarts

/-- What is read as a reference has no more digits than are read. -/
theorem IssueReference.length_le_limit {text : Bytes} {reference : IssueReference}
    (hread : IssueReference.read text = .ok (some reference)) :
    reference.length ≤ IssueTooLong.limit + 3 := by
  unfold IssueReference.read at hread
  split at hread
  · cases hread
  · split at hread
    · cases hread
    · rename_i hlimit
      cases hread
      exact Nat.add_le_add_right (Nat.not_lt.1 hlimit) 3

/-- References are short if the one behind the marker at the front is, and those further on are. -/
theorem HasShortReferences.cons {byte : UInt8} {rest : Bytes}
    (hfront : ∀ digits behind, byte :: rest = marker ++
        (IssueReference.opening ++ (digits ++ IssueReference.closing :: behind)) →
      (∀ digit ∈ digits, Bytes.isDigit digit) → digits.length ≤ IssueTooLong.limit)
    (hrest : HasShortReferences marker rest) : HasShortReferences marker (byte :: rest) := by
  intro before digits behind htext hall
  cases before with
  | nil => exact hfront digits behind htext hall
  | cons first before => exact hrest before digits behind (List.cons.inj htext).2 hall

/-- References are short if those behind a hit are: the hit is too short to have a long one
inside, and a long one cannot begin inside and end behind it. -/
theorem HasShortReferences.append_word {word behind : Bytes} (hsolid : Solid marker)
    (hlength : word.length ≤ marker.length + (IssueTooLong.limit + 3))
    (hboundary : isBoundary behind.head? = true) (hbehind : HasShortReferences marker behind) :
    HasShortReferences marker (word ++ behind) := by
  intro before digits rest htext hall
  rcases List.append_eq_append_iff.1 htext with ⟨more, hbefore, hmore⟩ | ⟨more, hword, hmore⟩
  · exact hbehind more digits rest hmore hall
  · -- The reference begins inside the word, so it ends there.
    rcases List.eq_nil_or_concat digits with rfl | ⟨_, _, rfl⟩
    · exact Nat.zero_le _
    rename_i init last
    have hreference := (IsReference.present (init.concat last) (by simp) hall).solid
    have hinside := (hsolid.append hreference).prefix_of_isBoundary hboundary
      ⟨rest, by rw [← hmore]; simp⟩
    have hfits := hinside.length_le
    have hwhole := congrArg List.length hword
    simp only [List.length_append, IssueReference.opening, List.length_cons, List.length_nil]
      at hfits hwhole
    omega

/-- A search that succeeds has passed short references only. -/
theorem HasShortReferences.of_lineHits (hne : marker ≠ []) (hsolid : Solid marker)
    {previous : Option UInt8} {index : Nat} {text : Bytes} {found : List LineHit}
    (hfound : lineHits marker previous index text = .ok found) :
    HasShortReferences marker text := by
  induction hsize : text.length using Nat.strongRecOn
    generalizing text previous index found with
  | ind size ih =>
      cases text with
      | nil =>
          intro before digits behind htext
          exact absurd (List.append_eq_nil_iff.1 (List.append_eq_nil_iff.1 htext.symm).2).1 hne
      | cons byte rest =>
          have hnext : ∀ {more}, lineHits marker (some byte) (index + 1) rest = .ok more →
              HasShortReferences marker rest := by
            intro more hmore
            refine ih rest.length ?_ hmore rfl
            rw [← hsize, List.length_cons]
            exact Nat.lt_succ_self _
          by_cases hmarker : marker <+: byte :: rest
          · rcases hmarker with ⟨after, hafter⟩
            cases hread : IssueReference.read after with
            | error fault =>
                rw [← hafter, lineHits_of_error hne hread] at hfound
                cases hfound
            | ok reference? =>
                obtain ⟨reference, behind, hsplit, -, hlength⟩ := IsReference.of_read hread
                rw [hsplit] at hafter hread
                rw [lineHits_of_read previous index hne hafter.symm hread hlength] at hfound
                split at hfound
                · -- The marker is a hit, and the search went on behind it.
                  rename_i halone
                  rcases map_eq_ok_iff.1 hfound with ⟨more, hmore, rfl⟩
                  have hpos := List.length_pos_iff.2 hne
                  have hcount := congrArg List.length hafter
                  rw [List.length_append, List.length_append] at hcount
                  have hbehind := ih behind.length (by omega) hmore rfl
                  rw [← hafter, ← List.append_assoc]
                  refine hbehind.append_word hsolid ?_ (Bool.and_eq_true_iff.1 halone).2
                  rw [List.length_append, hlength]
                  cases reference? with
                  | none => exact Nat.add_le_add_left (Nat.zero_le _) _
                  | some found =>
                      exact Nat.add_le_add_left (IssueReference.length_le_limit hread) _
                · -- The marker does not stand alone, but its reference was read.
                  refine HasShortReferences.cons ?_ (hnext hfound)
                  intro digits others htext hall
                  cases digits with
                  | nil => exact Nat.zero_le _
                  | cons digit digits =>
                      rw [← hafter, List.append_cancel_left_eq] at htext
                      exact length_le_of_read hread
                        (digits_eq_some_iff.2 ⟨List.cons_ne_nil _ _, hall, others, htext⟩)
          · rw [lineHits_of_no_marker hmarker] at hfound
            refine HasShortReferences.cons ?_ (hnext hfound)
            intro digits behind htext
            exact absurd ⟨_, htext.symm⟩ hmarker

/-- A line is searched with success exactly if its references are short. -/
theorem hasShortReferences_iff (previous : Option UInt8) (index : Nat) {text : Bytes}
    (hne : marker ≠ []) (hsolid : Solid marker) :
    HasShortReferences marker text ↔ ∃ found, lineHits marker previous index text = .ok found :=
  ⟨exists_lineHits_eq_ok previous index hne, fun ⟨_, hfound⟩ => .of_lineHits hne hsolid hfound⟩

/-! ## Comments -/

/-- A comment is searched with success exactly if its lines have short references. -/
theorem exists_hits_eq_ok_iff {lines : List CommentLine} (number : Nat) (hne : marker ≠ [])
    (hsolid : Solid marker) :
    (∃ found, hitsFrom marker number lines = .ok found) ↔
      ∀ line ∈ lines, HasShortReferences marker line.text := by
  refine ⟨?_, exists_hitsFrom_eq_ok number hne⟩
  induction lines generalizing number with
  | nil =>
      intro _ line hline
      cases hline
  | cons line rest ih =>
      rintro ⟨found, hfound⟩
      rcases bind_eq_ok_iff.1 hfound with ⟨here, hhere, hbind⟩
      rcases bind_eq_ok_iff.1 hbind with ⟨more, hmore, -⟩
      exact List.forall_mem_cons.2 ⟨.of_lineHits hne hsolid hhere, ih (number + 1) ⟨more, hmore⟩⟩

/-- Holds if no marker in a comment is directly followed by a reference with more digits than are
read. -/
def Span.HasShortReferences (span : Span) (source marker : Bytes) : Prop :=
  ∀ line ∈ span.commentLines source, CommentMarkers.HasShortReferences marker line.text

/-- The comments among spans that may be looked at for a continuation have short references. -/
theorem exists_continuation_eq_ok {source : Bytes} {spans : List Span} (hne : marker ≠ [])
    (hshort : ∀ span ∈ spans, span.kind.isComment = true →
      span.HasShortReferences source marker) :
    ∃ continuing, continuation marker source spans = .ok continuing := by
  fun_induction continuation marker source spans with
  | case1 gap comment rest hnext ih =>
      rcases List.forall_mem_cons.1 (List.forall_mem_cons.1 hshort).2 with ⟨hcomment, hrest⟩
      simp only [Bool.and_eq_true, decide_eq_true_eq] at hnext
      have hkind : comment.kind.isComment = true := by
        rw [hnext.2]
        rfl
      obtain ⟨found, hfound⟩ := exists_hitsFrom_eq_ok 0 hne (hcomment hkind)
      obtain ⟨more, hmore⟩ := ih hrest
      rw [hits, hfound, ok_bind]
      split
      · exact ⟨comment :: more, by rw [hmore]; rfl⟩
      · exact ⟨[], rfl⟩
  | case2 => exact ⟨[], rfl⟩
  | case3 => exact ⟨[], rfl⟩

/-- A comment is annotated if it and the comments behind it have short references. -/
theorem exists_annotateComment_eq_ok {query : Query} {source : Bytes} {span : Span}
    {following : List Span} (hne : query.marker.bytes ≠ [])
    (hshort : span.HasShortReferences source query.marker.bytes)
    (hothers : ∀ other ∈ following, other.kind.isComment = true →
      other.HasShortReferences source query.marker.bytes) :
    ∃ notes, annotateComment query source span following = .ok notes := by
  obtain ⟨found, hfound⟩ := exists_hitsFrom_eq_ok 0 hne hshort
  obtain ⟨continuing, hcontinuing⟩ :
      ∃ continuing, query.continuing source span following = .ok continuing := by
    unfold Query.continuing
    split
    · exact exists_continuation_eq_ok hne hothers
    · exact ⟨[], rfl⟩
  rw [annotateComment, hits, hfound, ok_bind]
  cases found with
  | nil => exact ⟨[], rfl⟩
  | cons hit rest => exact ⟨_, by rw [hcontinuing]; rfl⟩

/-! ## Sources -/

/-- Extraction succeeds exactly if all comments have short references: a comment that is looked at
as a continuation is looked at in its own right, too. -/
theorem exists_extract_eq_ok_iff {query : Query} {source : Bytes} {spans : List Span} :
    (∃ notes, extract query source spans = .ok notes) ↔
      ∀ span ∈ spans, span.kind.isComment = true →
        span.HasShortReferences source query.marker.bytes := by
  have hne : query.marker.bytes ≠ [] := query.marker.bytes_ne_nil
  induction spans with
  | nil =>
      constructor
      · intro _ span hspan
        cases hspan
      · intro _
        exact ⟨[], rfl⟩
  | cons span rest ih =>
      rw [List.forall_mem_cons]
      constructor
      · rintro ⟨notes, hnotes⟩
        rw [extract_cons] at hnotes
        rcases bind_eq_ok_iff.1 hnotes with ⟨here, hhere, hbind⟩
        rcases bind_eq_ok_iff.1 hbind with ⟨more, hmore, -⟩
        refine ⟨fun hkind => ?_, ih.1 ⟨more, hmore⟩⟩
        rw [if_pos hkind] at hhere
        rcases bind_eq_ok_iff.1 hhere with ⟨found, hfound, -⟩
        exact (exists_hits_eq_ok_iff 0 hne query.marker.solid_bytes).1 ⟨found, hfound⟩
      · rintro ⟨hspan, hothers⟩
        rcases ih.2 hothers with ⟨more, hmore⟩
        rw [extract_cons, hmore]
        split
        · rename_i hkind
          obtain ⟨here, hhere⟩ := exists_annotateComment_eq_ok hne (hspan hkind) hothers
          exact ⟨here ++ more, by rw [hhere]; rfl⟩
        · exact ⟨more, rfl⟩

/-- Holds if all comments of a source that scans to its end have short references. -/
def Grammar.HasShortReferences (grammar : Grammar) (source marker : Bytes) : Prop :=
  (grammar.scan source).failure = none → ∀ span ∈ (grammar.scan source).spans,
    span.kind.isComment = true → span.HasShortReferences source marker

/-- The annotations of a source fail at a reference that is too long exactly if there is one in a
comment. -/
theorem Grammar.hasShortReferences_iff {grammar : Grammar} {source : Bytes} (query : Query) :
    grammar.HasShortReferences source query.marker.bytes ↔
      ∀ fault, grammar.annotations query source ≠ .error (.issueTooLong fault) := by
  unfold Grammar.annotations Scan.complete HasShortReferences
  cases (grammar.scan source).failure with
  | some failure =>
      constructor
      · intro _ fault hfault
        cases hfault
      · intro _ hcomplete
        cases hcomplete
  | none =>
      rw [forall_prop_of_true rfl, ← exists_extract_eq_ok_iff]
      constructor
      · rintro ⟨notes, hnotes⟩ fault hfault
        change (extract query source (grammar.scan source).spans).mapError _ = _ at hfault
        rw [hnotes] at hfault
        cases hfault
      · intro hnone
        cases hnotes : extract query source (grammar.scan source).spans with
        | ok notes => exact ⟨notes, rfl⟩
        | error fault =>
            refine absurd ?_ (hnone fault)
            change (extract query source (grammar.scan source).spans).mapError _ = _
            rw [hnotes]
            rfl

end CommentMarkers
