import CommentMarkers.Proofs.MeetingBytes
import CommentMarkers.Proofs.PurgedRanges

/-!
# What purging leaves to find

Purging leaves all annotations whose comments are not purged: they are found again in the same
order, with the same texts, issues and kinds.  This needs that the bytes that meet where a comment
was deleted do not make up a delimiter, since purging deletes no more than the comment where there
is code behind it.

Main results:

- Theorem `annotations_without`: a deletion that spares comments and literals, and glues no
  delimiters, leaves the annotations of the comments that it leaves.
- Theorem `purge_keeps_annotations`: so does purging.
- Theorem `exists_glued_of_not_seamless`: in which grammars this depends on the bytes that meet.
-/

namespace CommentMarkers

/-! ## What annotations say -/

/-- What an annotation says about its marker, except for its place. -/
structure Content where
  payload : String
  issue : Option Nat
  kind : SpanKind
  deriving DecidableEq, Repr

/-- What an annotation says, except for its place. -/
def Annotation.content (note : Annotation) : Content :=
  ⟨note.payload, note.issue, note.kind⟩

/-- What a finding says, except for its place. -/
def Finding.content (finding : Finding) : Content :=
  ⟨finding.payload, finding.issue, finding.kind⟩

/-- Findings say the same wherever they stand. -/
theorem map_content_moved (found : List Finding) (bytes lines : Nat) :
    (found.map (·.moved bytes lines)).map (·.content) = found.map (·.content) := by
  rw [List.map_map]
  rfl

/-- Annotations say what their findings say. -/
theorem map_content_finding (notes : List Annotation) :
    (notes.map (·.finding)).map (·.content) = notes.map (·.content) := by
  rw [List.map_map]
  rfl

/-- What is said in comments. -/
def contentsOf (query : Query) : List Lexeme → Except IssueTooLong (List Content)
  | [] => return []
  | comment :: rest => do
    let here ← (commentFindings query comment []).map (·.map (·.content))
    let more ← contentsOf query rest
    return here ++ more

variable {query : Query}

/-- If texts do not go on, what is found in a comment does not depend on what is behind it. -/
theorem commentFindings_congr (hjoin : query.join = false) (comment : Lexeme)
    (following other : List Lexeme) :
    commentFindings query comment following = commentFindings query comment other := by
  unfold commentFindings Query.continuedTexts
  rw [hjoin]
  rfl

/-- What is found in lexemes is found in their comments. -/
theorem findings_contents (hjoin : query.join = false) (lexemes : List Lexeme) :
    (findings query lexemes).map (·.map (·.content)) = contentsOf query (comments lexemes) := by
  induction lexemes with
  | nil => rfl
  | cons lexeme rest ih =>
      have hmore : ((findings query rest).map (·.map (·.behind lexeme.text))).map
          (·.map (·.content)) = contentsOf query (comments rest) := by
        rw [← ih]
        cases findings query rest with
        | error fault => rfl
        | ok found => exact congrArg Except.ok (map_content_moved found _ _)
      rw [findings, map_bind_append, hmore]
      cases hkind : lexeme.kind.isComment with
      | true =>
          have hcomments : comments (lexeme :: rest) = lexeme :: comments rest :=
            List.filter_cons_of_pos hkind
          rw [if_pos rfl, commentFindings_congr hjoin lexeme rest [], hcomments, contentsOf]
      | false =>
          have hcomments : comments (lexeme :: rest) = comments rest :=
            List.filter_cons_of_neg (by rw [hkind]; exact Bool.false_ne_true)
          rw [if_neg Bool.false_ne_true, hcomments]
          cases contentsOf query (comments rest) <;> rfl

/-- The annotations of a comment come from where it starts. -/
theorem spanStart_of_mem_annotateComment {source : Bytes} {span : Span} {following : List Span}
    {notes : List Annotation} {note : Annotation}
    (hnotes : annotateComment query source span following = .ok notes) (hnote : note ∈ notes) :
    note.spanStart = span.start := by
  rcases bind_eq_ok_iff.1 hnotes with ⟨found, -, hfound⟩
  cases found with
  | nil =>
      cases hfound
      cases hnote
  | cons hit found =>
      rcases bind_eq_ok_iff.1 hfound with ⟨continuing, -, hsame⟩
      cases hsame
      exact (of_mem_annotateHits hnote).2.1

/-! ## What is left to find -/

variable {gone : Nat → Bool} {lexemes : List Lexeme} {notes : List Annotation}

/-- What is said in the comments that a deletion leaves is said by the annotations that come from
them. -/
theorem contentsOf_keptComments {place : Position} {source front back : Bytes}
    (hjoin : query.join = false) (hlexemes : ∀ lexeme ∈ lexemes, lexeme.WellFormed)
    (hsource : source = front ++ (textOf lexemes ++ back)) (hplace : place.offset = front.length)
    (hnotes : extract query source (placeSpans place lexemes) = .ok notes) :
    contentsOf query (keptComments (fun offset => gone (place.offset + offset)) lexemes) =
      .ok ((notes.filter fun note => !gone note.spanStart).map (·.content)) := by
  induction lexemes generalizing place front notes with
  | nil =>
      cases hnotes
      rfl
  | cons lexeme rest ih =>
      rw [placeSpans, extract_cons] at hnotes
      rcases bind_eq_ok_iff.1 hnotes with ⟨here, hhere, hbind⟩
      rcases bind_eq_ok_iff.1 hbind with ⟨more, hmore, hsame⟩
      cases hsame
      have hbehind : (place.advance lexeme.text).offset = (front ++ lexeme.text).length := by
        rw [Position.offset_advance, hplace, List.length_append]
      have hrest := ih (List.forall_mem_cons.1 hlexemes).2 (by rw [hsource]; simp) hbehind hmore
      simp only [Position.offset_advance, Nat.add_assoc] at hrest
      rw [List.filter_append, List.map_append, keptComments, Nat.add_zero]
      change (if (lexeme.kind.isComment) = true then _ else _ : Except IssueTooLong _) = _ at hhere
      cases hkind : lexeme.kind.isComment with
      | false =>
          rw [hkind, if_neg Bool.false_ne_true] at hhere
          cases hhere
          exact hrest
      | true =>
          rw [hkind, if_pos rfl] at hhere
          have hstarts : ∀ note ∈ here, note.spanStart = place.offset := fun note hnote =>
            spanStart_of_mem_annotateComment hhere hnote
          cases hgone : gone place.offset with
          | true =>
              have hnone : here.filter (fun note => !gone note.spanStart) = [] := by
                refine List.filter_eq_nil_iff.2 fun note hnote => ?_
                rw [hstarts note hnote, hgone]
                exact Bool.false_ne_true
              rw [hnone]
              exact hrest
          | false =>
              have hall : here.filter (fun note => !gone note.spanStart) = here := by
                refine List.filter_eq_self.2 fun note hnote => ?_
                rw [hstarts note hnote, hgone]
                rfl
              have hfound := annotateComment_spanAt query hlexemes hkind hsource hplace
              rw [hhere] at hfound
              rcases map_eq_ok_iff.1 hfound.symm with ⟨found, hfindings, hsame⟩
              have hcontents : found.map (·.content) = here.map (·.content) := by
                rw [← map_content_finding here, ← map_content_moved found place.offset place.line]
                exact congrArg _ hsame
              change contentsOf query (lexeme :: keptComments _ rest) = _
              rw [contentsOf, commentFindings_congr hjoin lexeme [] rest, hfindings, hrest, hall,
                ← hcontents]
              rfl

/-- A deletion that takes no part of a comment or a literal, unless it takes a comment as a whole,
and that leaves no delimiter in code but those that were there, leaves the annotations of the
comments that it leaves. -/
theorem annotations_without {grammar : Grammar} {source : Bytes}
    (hdefinite : Definite grammar.openers) (hjoin : query.join = false)
    (hnotes : grammar.annotations query source = .ok notes)
    (hspares : Spares gone (lex grammar.openers source).lexemes)
    (hunglued : grammar.Unglued source gone) :
    ∃ others, grammar.annotations query (Bytes.without source gone) = .ok others ∧
      others.map (·.content) =
        (notes.filter fun note => !gone note.spanStart).map (·.content) := by
  have hlexes := lexes_lex grammar.openers source
  rcases exists_findings_of_annotations hlexes hnotes with ⟨hcomplete, -⟩
  have hsource := hlexes.texts_eq
  rw [hcomplete] at hsource
  have hcuts := cuts_without hlexes hcomplete hdefinite hspares fun offset hoffset hcode hstays =>
    hunglued offset hoffset hstays fun hencloses => hcode (encloses_iff.1 hencloses)
  rcases hcuts with ⟨lexing, hagain, hclosed, hcomments⟩
  have hkept : contentsOf query (keptComments (fun offset => gone (Position.first.offset + offset))
      (lex grammar.openers source).lexemes) =
        .ok ((notes.filter fun note => !gone note.spanStart).map (·.content)) :=
    contentsOf_keptComments hjoin hlexes.wellFormed
      (show source = [] ++ (textOf _ ++ []) by rw [List.append_nil]; exact hsource) rfl
      (extract_of_annotations hnotes).2
  simp only [show Position.first.offset = 0 from rfl, Nat.zero_add] at hkept
  have hcontents := findings_contents hjoin lexing.lexemes
  rw [hcomments, hkept] at hcontents
  rcases map_eq_ok_iff.1 hcontents with ⟨found, hfound, hsame⟩
  rcases exists_annotations_of_findings hagain hclosed hfound with ⟨others, hothers, hfindings⟩
  refine ⟨others, hothers, ?_⟩
  rw [← hsame, ← map_content_finding others, hfindings, map_content_moved]

/-! ## What is left by purging -/

/-- Annotations of a source are all about the same marker. -/
theorem map_marker_content {grammar : Grammar} {source : Bytes} {part : List Annotation}
    (hnotes : grammar.annotations query source = .ok notes) (hpart : part ⊆ notes) :
    part.map (fun note => (note.marker, note.content)) =
      (part.map (·.content)).map fun content => (query.marker, content) := by
  rw [List.map_map]
  refine List.map_congr_left fun note hnote => ?_
  rw [marker_of_mem_extract (extract_of_annotations hnotes).2 note (hpart hnote)]
  rfl

/-- Purging leaves all annotations whose comments are not purged.  They are found again in the same
order and with the same marker, text, issue and kind, and nothing else is found: in the grammars in
which bytes that meet do not make up a delimiter, in the other ones without limited literals if the
purged comments end their lines, and in all of them if no delimiter is left in code but those that
were there. -/
theorem purge_keeps_annotations {grammar : Grammar} (hgrammar : grammar ∈ Grammar.builtin)
    {source : Bytes} (issues : Option (List Int)) (hjoin : query.join = false)
    (hnotes : grammar.annotations query source = .ok notes)
    (hseams : grammar.language ∈ seamlessLanguages ∨
      grammar.language ≠ "rust" ∧
        (∀ note ∈ notes, note.isWanted issues = true → note.comment.endsLine source = true) ∨
      grammar.Unglued source (ByteRange.covers (selectedRanges source notes issues))) :
    ∃ others, grammar.annotations query (purge source notes issues) = .ok others ∧
      others.map (fun note => (note.marker, note.content)) =
        (notes.filter fun note => !isPurged notes issues note.comment).map
          fun note => (note.marker, note.content) := by
  have hsolid := Grammar.builtin_solid grammar hgrammar
  have hunglued : grammar.Unglued source
      (ByteRange.covers (selectedRanges source notes issues)) := by
    rcases hseams with hlanguage | ⟨hlanguage, hends⟩ | hunglued
    · refine unglued_selectedRanges hsolid (Grammar.builtin_unbounded grammar hgrammar ?_) hjoin
        hnotes (Or.inl (Grammar.builtin_seamless grammar hgrammar hlanguage))
      intro hrust
      rw [hrust] at hlanguage
      revert hlanguage
      decide
    · refine unglued_selectedRanges hsolid (Grammar.builtin_unbounded grammar hgrammar hlanguage)
        hjoin hnotes (Or.inr fun comment hpurged => ?_)
      rcases isPurged_iff.1 hpurged with ⟨note, hnote, hwanted, rfl⟩
      exact hends note hnote hwanted
    · exact hunglued
  rcases annotations_without (Grammar.builtin_definite grammar hgrammar) hjoin hnotes
    (spares_selectedRanges hsolid hjoin hnotes) hunglued with ⟨others, hothers, hcontents⟩
  have hpurge := purge_of_apart grammar (fun note hnote =>
    ⟨query, ⟨notes, hnotes, hnote⟩, Or.inl hjoin⟩) issues
  have hkept : (notes.filter fun note =>
        !ByteRange.covers (selectedRanges source notes issues) note.spanStart) =
      notes.filter fun note => !isPurged notes issues note.comment := by
    refine List.filter_congr fun note hnote => ?_
    rcases exists_span_of_mem hjoin hnotes hnote with ⟨span, hspan, hkind, hcomment⟩
    have hstart : note.spanStart = span.start := congrArg ByteRange.start hcomment
    have hlong := (tiles_of_annotations hnotes).start_lt_stop span hspan
    rw [hstart, hcomment, covers_eq_isPurged hsolid hjoin hnotes hspan
      (SpanKind.ne_code_of_isComment hkind) (Nat.le_refl _) hlong]
  rw [hkept] at hcontents
  refine ⟨others, by rw [hpurge]; exact hothers, ?_⟩
  rw [map_marker_content hothers (List.Subset.refl _), hcontents,
    map_marker_content hnotes (List.filter_sublist.subset)]

/-- Comments inside a line and at its end are purged, and what is left is found again: where bytes
that meet make up no delimiter anyway, where the purged comments end their lines, and where the
bytes that meet happen not to make up one. -/
theorem purge_keeps_annotations_inline :
    (∃ notes others,
      Grammar.c.annotations ⟨.todo, .all, false⟩
          (Text.encode "x /* @TODO(#1) a */ = /* @TODO b */ y; // @TODO(#1) c\n") = .ok notes ∧
        Grammar.c.annotations ⟨.todo, .all, false⟩
          (purge (Text.encode "x /* @TODO(#1) a */ = /* @TODO b */ y; // @TODO(#1) c\n") notes
            (some [1])) = .ok others ∧
        others.map (fun note => (note.marker, note.content)) =
          [(.todo, ⟨"b", none, .blockComment⟩)]) ∧
      (∃ notes others,
        Grammar.python.annotations ⟨.todo, .first, false⟩
            (Text.encode "# @TODO(#2) a\nx = 1  # @TODO(#1) b\ny = 2  # @TODO c\n") = .ok notes ∧
          Grammar.python.annotations ⟨.todo, .first, false⟩
            (purge (Text.encode "# @TODO(#2) a\nx = 1  # @TODO(#1) b\ny = 2  # @TODO c\n") notes
              (some [2, 1])) = .ok others ∧
          others.map (fun note => (note.marker, note.content)) =
            [(.todo, ⟨"c", none, .lineComment⟩)]) ∧
      ∃ notes others,
        Grammar.sql.annotations ⟨.todo, .first, false⟩
            (Text.encode "a/* @TODO(#1) */-b -- @TODO c\n") = .ok notes ∧
          Grammar.sql.annotations ⟨.todo, .first, false⟩
            (purge (Text.encode "a/* @TODO(#1) */-b -- @TODO c\n") notes (some [1])) =
              .ok others ∧
          others.map (fun note => (note.marker, note.content)) =
            [(.todo, ⟨"c", none, .lineComment⟩)] := by
  refine ⟨?_, ?_, ?_⟩
  · have hnotes : Grammar.c.annotations ⟨.todo, .all, false⟩
        (Text.encode "x /* @TODO(#1) a */ = /* @TODO b */ y; // @TODO(#1) c\n") =
          .ok [⟨.todo, "a", ⟨5, 1, 6⟩, .blockComment, 2, 19, some 1⟩,
            ⟨.todo, "b", ⟨25, 1, 26⟩, .blockComment, 22, 35, none⟩,
            ⟨.todo, "c", ⟨42, 1, 43⟩, .lineComment, 39, 53, some 1⟩] := by
      decide +kernel
    rcases purge_keeps_annotations (by decide) (some [1]) rfl hnotes (Or.inl (by decide)) with
      ⟨others, hothers, hcontents⟩
    exact ⟨_, others, hnotes, hothers, hcontents.trans (by decide +kernel)⟩
  · have hnotes : Grammar.python.annotations ⟨.todo, .first, false⟩
        (Text.encode "# @TODO(#2) a\nx = 1  # @TODO(#1) b\ny = 2  # @TODO c\n") =
          .ok [⟨.todo, "a", ⟨2, 1, 3⟩, .lineComment, 0, 13, some 2⟩,
            ⟨.todo, "b", ⟨23, 2, 10⟩, .lineComment, 21, 34, some 1⟩,
            ⟨.todo, "c", ⟨44, 3, 10⟩, .lineComment, 42, 51, none⟩] := by
      decide +kernel
    rcases purge_keeps_annotations (by decide) (some [2, 1]) rfl hnotes
      (Or.inr (Or.inl ⟨by decide, by decide +kernel⟩)) with ⟨others, hothers, hcontents⟩
    exact ⟨_, others, hnotes, hothers, hcontents.trans (by decide +kernel)⟩
  · have hnotes : Grammar.sql.annotations ⟨.todo, .first, false⟩
        (Text.encode "a/* @TODO(#1) */-b -- @TODO c\n") =
          .ok [⟨.todo, "", ⟨4, 1, 5⟩, .blockComment, 1, 16, some 1⟩,
            ⟨.todo, "c", ⟨22, 1, 23⟩, .lineComment, 19, 29, none⟩] := by
      decide +kernel
    rcases purge_keeps_annotations (by decide) (some [1]) rfl hnotes
      (Or.inr (Or.inr (by decide +kernel))) with ⟨others, hothers, hcontents⟩
    exact ⟨_, others, hnotes, hothers, hcontents.trans (by decide +kernel)⟩

/-- Where code follows, only the comment goes.  Two operators meet and begin a line comment, in
which another annotation is found with more text and another kind. -/
theorem purge_glues_operators :
    ∃ notes others,
      Grammar.sql.annotations ⟨.todo, .first, false⟩
          (Text.encode "5-/* @TODO(#1) */-3 /* @TODO keep */\n") = .ok notes ∧
        purge (Text.encode "5-/* @TODO(#1) */-3 /* @TODO keep */\n") notes (some [1]) =
          Text.encode "5--3 /* @TODO keep */\n" ∧
        Grammar.sql.annotations ⟨.todo, .first, false⟩
          (purge (Text.encode "5-/* @TODO(#1) */-3 /* @TODO keep */\n") notes (some [1])) =
            .ok others ∧
        (notes.filter fun note => !isPurged notes (some [1]) note.comment).map
            (fun note => (note.marker, note.content)) = [(.todo, ⟨"keep", none, .blockComment⟩)] ∧
        others.map (fun note => (note.marker, note.content)) =
          [(.todo, ⟨"keep */", none, .lineComment⟩)] := by
  have hpurge : purge (Text.encode "5-/* @TODO(#1) */-3 /* @TODO keep */\n")
      [⟨.todo, "", ⟨5, 1, 6⟩, .blockComment, 2, 17, some 1⟩,
        ⟨.todo, "keep", ⟨23, 1, 24⟩, .blockComment, 20, 36, none⟩] (some [1]) =
        Text.encode "5--3 /* @TODO keep */\n" := by
    rw [purge, removalRanges, List.mergeSort_of_pairwise (by decide +kernel)]
    decide +kernel
  refine ⟨_, [⟨.todo, "keep */", ⟨8, 1, 9⟩, .lineComment, 1, 21, none⟩], by decide +kernel, hpurge,
    ?_, by decide +kernel, by decide +kernel⟩
  rw [hpurge]
  decide +kernel

/-- A single annotation is purged by one deletion. -/
theorem purge_singleton (source : Bytes) (note : Annotation) :
    purge source [note] none =
      deleteRanges source (source.length + 1) [removalRange source note.comment] := by
  have hranges : removalRanges source [note] = [removalRange source note.comment] :=
    List.mergeSort_singleton _
  exact congrArg (deleteRanges source (source.length + 1)) hranges

/-- The seamless grammars are all in which bytes that meet never make up a delimiter: in each of the
other built-in grammars there is a source that does not scan to its end any more if its only comment
is purged. -/
theorem exists_glued_of_not_seamless : ∀ grammar ∈ Grammar.builtin,
    grammar.language ∉ seamlessLanguages →
      ∃ source note, grammar.annotations ⟨.todo, .first, false⟩ source = .ok [note] ∧
        (grammar.annotations ⟨.todo, .first, false⟩ (purge source [note] none)).isOk = false := by
  intro grammar hgrammar hlanguage
  have hglues : ∀ text start offset stop,
      grammar.annotations ⟨.todo, .first, false⟩ (Text.encode text) =
          .ok [⟨.todo, "", ⟨offset, 1, offset + 1⟩, .blockComment, start, stop, none⟩] →
        (grammar.annotations ⟨.todo, .first, false⟩
          (deleteRanges (Text.encode text) ((Text.encode text).length + 1)
            [removalRange (Text.encode text) ⟨start, stop⟩])).isOk = false →
          ∃ source note, grammar.annotations ⟨.todo, .first, false⟩ source = .ok [note] ∧
            (grammar.annotations ⟨.todo, .first, false⟩ (purge source [note] none)).isOk =
              false := by
    intro text start offset stop hnotes hfails
    refine ⟨Text.encode text, _, hnotes, ?_⟩
    rw [purge_singleton]
    exact hfails
  simp only [Grammar.builtin, List.mem_cons, List.not_mem_nil, or_false] at hgrammar
  rcases hgrammar with rfl | rfl | rfl | rfl | rfl | rfl | rfl | rfl | rfl | rfl | rfl | rfl | rfl |
    rfl | rfl | rfl
  · exact absurd (by decide) hlanguage
  · exact absurd (by decide) hlanguage
  · exact absurd (by decide) hlanguage
  · exact hglues "'a/* @TODO */'\"'\n" 2 5 13 (by decide +kernel) (by decide +kernel)
  · exact absurd (by decide) hlanguage
  · exact hglues "''\"\"\" @TODO \"\"\"'x'\n" 2 6 15 (by decide +kernel) (by decide +kernel)
  · exact absurd (by decide) hlanguage
  · exact hglues "=b=begin @TODO =endegin\n" 2 9 19 (by decide +kernel) (by decide +kernel)
  · exact absurd (by decide) hlanguage
  · exact absurd (by decide) hlanguage
  · exact hglues "\x7b\x7b- @TODO -\x7d-\n" 1 4 12 (by decide +kernel) (by decide +kernel)
  · exact hglues "//* @TODO */*\n" 1 4 12 (by decide +kernel) (by decide +kernel)
  · exact hglues "<!<!-- @TODO -->--\n" 2 7 16 (by decide +kernel) (by decide +kernel)
  · exact hglues "##| @TODO |#|\n" 1 4 12 (by decide +kernel) (by decide +kernel)
  · exact hglues "((* @TODO *)*\n" 1 4 12 (by decide +kernel) (by decide +kernel)
  · exact absurd (by decide) hlanguage

end CommentMarkers
