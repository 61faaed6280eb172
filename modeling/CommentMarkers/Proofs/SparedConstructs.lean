import CommentMarkers.Grammar.Builtin
import CommentMarkers.Proofs.AnnotatedComments
import CommentMarkers.Proofs.DeletedComments

/-!
# What purging spares

With a comment that is purged nothing of another comment or of a literal is deleted: these begin
with a token, which has no blanks, and end with one or in front of a newline.  So a comment that is
not purged is left as a whole, and the newline behind it as well.

Main results:

- Theorem `Grammar.builtin_definite`: the delimiters of the built-in grammars leave no doubt about
  where constructs open and close.
- Theorem `isFirm_of_isTrimmed`: comments and literals have firm ends.
- Theorem `spares_selectedRanges`: purging spares all comments that are not purged, and all
  literals.
-/

namespace CommentMarkers

/-! ## Built-in delimiters -/

/-- The delimiters of the built-in grammars leave no doubt about where constructs open and close. -/
theorem Grammar.builtin_definite : ∀ grammar ∈ Grammar.builtin, Definite grammar.openers := by
  have hchecked : ∀ grammar ∈ Grammar.builtin, ∀ opener ∈ grammar.openers,
      opener.closing.isLocal = true ∧
        (opener.closing.isBounded = true → opener.token.length = 1) ∧
        (opener.closing = .endOfLine → opener.kind = .lineComment) ∧
        (opener.closing = .quote opener.closing.terminator (some opener.closing.terminator) →
          opener.closing.terminator = opener.token ∧ opener.kind.isComment = false ∧
            ∀ other ∈ grammar.openers,
              other.token.head? = opener.closing.terminator.head? → other = opener) := by
    decide +kernel
  intro grammar hgrammar
  constructor
  · exact fun opener hopener => kind_ne_code_of_mem_openers hopener
  · exact fun opener hopener =>
      Closing.stable_of_isLocal (hchecked grammar hgrammar opener hopener).1
  · exact fun opener hopener => (hchecked grammar hgrammar opener hopener).2.1
  · exact fun opener hopener => (hchecked grammar hgrammar opener hopener).2.2.1
  · intro opener hopener token hclosing
    have hdoubled := (hchecked grammar hgrammar opener hopener).2.2.2
    rw [hclosing] at hdoubled
    exact hdoubled rfl

/-- Holds of an opener without blanks in its delimiters.  Only line comments have no closing one. -/
structure Opener.IsSolid (opener : Opener) : Prop where
  token : Solid opener.token
  terminator : Solid opener.closing.terminator
  closes : opener.kind ≠ .lineComment → opener.closing.terminator ≠ []

/-- The delimiters of the built-in grammars have no blanks. -/
theorem Grammar.builtin_solid :
    ∀ grammar ∈ Grammar.builtin, ∀ opener ∈ grammar.openers, opener.IsSolid := by
  have hchecked : ∀ grammar ∈ Grammar.builtin, ∀ opener ∈ grammar.openers,
      (∀ byte ∈ opener.token, Bytes.isBlank byte = false) ∧
        (∀ byte ∈ opener.closing.terminator, Bytes.isBlank byte = false) ∧
        (opener.kind ≠ .lineComment → opener.closing.terminator ≠ []) := by
    decide +kernel
  intro grammar hgrammar opener hopener
  obtain ⟨htoken, hterminator, hcloses⟩ := hchecked grammar hgrammar opener hopener
  exact ⟨htoken, hterminator, hcloses⟩

/-! ## Comments and literals with firm ends -/

/-- Holds of an opener with delimiters that neither begin nor end with a blank.  Only line comments
have no closing one. -/
structure Opener.IsTrimmed (opener : Opener) : Prop where
  first : ∀ byte ∈ opener.token.head?, Bytes.isBlank byte = false
  last : opener.kind ≠ .lineComment →
    ∃ byte ∈ opener.closing.terminator.getLast?, Bytes.isBlank byte = false

/-- Delimiters without blanks neither begin nor end with one. -/
theorem Opener.IsSolid.isTrimmed {opener : Opener} (hsolid : opener.IsSolid) :
    opener.IsTrimmed := by
  constructor
  · exact fun byte hbyte => hsolid.token byte (List.mem_of_mem_head? hbyte)
  · intro hkind
    have hlast := List.getLast?_eq_some_getLast (hsolid.closes hkind)
    exact ⟨_, hlast, hsolid.terminator _ (List.getLast_mem _)⟩

variable {grammar : Grammar} {source : Bytes} {span : Span}

/-- The offsets of a span. -/
def Span.range (span : Span) : ByteRange :=
  ⟨span.start, span.stop⟩

/-- A byte in the middle of a text. -/
theorem getElem?_middle (front : Bytes) (byte : UInt8) (back : Bytes) :
    (front ++ byte :: back)[front.length]? = some byte := by
  rw [List.getElem?_append_right (Nat.le_refl _), Nat.sub_self]
  rfl

/-- Comments and literals begin with a byte that is no blank, and end with one or in front of a
newline or of nothing. -/
theorem isFirm_of_isTrimmed (htrimmed : ∀ opener ∈ grammar.openers, opener.IsTrimmed)
    (hspan : span ∈ (grammar.scan source).spans) (hkind : span.kind ≠ .code) :
    span.range.IsFirm source := by
  have hline := newline_of_lineComment hspan
  rcases List.append_of_mem hspan with ⟨before, after, hspans⟩
  rcases exists_split_of_scan hspans with
    ⟨front, lexeme, back, hsplit, rfl, rfl, rfl, hfront, hsource⟩
  have hplace := (spanAt_mem_scan hsplit).2
  rcases (lexes_lex grammar.openers source).exists_opener hkind hsplit hsource with
    ⟨opener, hopener, inner, rfl, hclosed, hopening⟩
  obtain ⟨htoken, hcloses⟩ := htrimmed opener hopener
  obtain ⟨first, token, htokenEq⟩ := List.exists_cons_of_ne_nil
    (List.length_pos_iff.1 (token_prefix_of_opening hopening).2)
  generalize hrest : source.drop _ = rest at hsource hclosed
  have hstop : (textOf front).length + (opener.token ++ inner).length ≤ source.length := by
    rw [hsource]
    simp only [Lexeme.text_ofConstruct, List.length_append]
    omega
  constructor
  · simp [Span.range, Lexeme.spanAt, htokenEq]
  · simp only [Span.range, Lexeme.spanAt, hplace]
    exact hstop
  · intro byte hbyte
    simp only [Span.range, Lexeme.spanAt, hplace] at hbyte
    rw [hsource, Lexeme.text_ofConstruct, htokenEq, List.cons_append, List.cons_append,
      getElem?_middle] at hbyte
    cases hbyte
    exact htoken first (by rw [htokenEq]; rfl)
  · by_cases hcomment : opener.kind = .lineComment
    · exact Or.inr (hline hcomment)
    · left
      have hends := Closing.ends_with_terminator hclosed
      rw [List.take_left] at hends
      rcases hends with ⟨body, rfl⟩
      obtain ⟨last, hlast, hsolid⟩ := hcloses hcomment
      obtain ⟨init, hterminator⟩ := List.getLast?_eq_some_iff.1 hlast
      have hsplit :
          source = (textOf front ++ (opener.token ++ (body ++ init))) ++ last :: rest := by
        rw [hsource, Lexeme.text_ofConstruct, hterminator]
        simp
      have hindex : (textOf front).length + (opener.token ++
          (body ++ opener.closing.terminator)).length - 1 =
            (textOf front ++ (opener.token ++ (body ++ init))).length := by
        rw [hterminator]
        simp only [List.length_append, List.length_singleton]
        omega
      intro byte hbyte
      simp only [Span.range, Lexeme.spanAt, Lexeme.text_ofConstruct, hplace] at hbyte
      rw [hindex, hsplit, getElem?_middle] at hbyte
      cases hbyte
      exact hsolid

/-- The same where the delimiters have no blanks at all. -/
theorem isFirm_of_mem_scan (hsolid : ∀ opener ∈ grammar.openers, opener.IsSolid)
    (hspan : span ∈ (grammar.scan source).spans) (hkind : span.kind ≠ .code) :
    span.range.IsFirm source :=
  isFirm_of_isTrimmed (fun opener hopener => (hsolid opener hopener).isTrimmed) hspan hkind

/-- A comment or a literal begins with the token that opens it. -/
theorem exists_token_of_mem_scan (hspan : span ∈ (grammar.scan source).spans)
    (hkind : span.kind ≠ .code) :
    ∃ opener ∈ grammar.openers, opener.kind = span.kind ∧
      opener.token <+: source.drop span.start := by
  rcases List.append_of_mem hspan with ⟨before, after, hspans⟩
  rcases exists_split_of_scan hspans with
    ⟨front, lexeme, back, hsplit, rfl, rfl, rfl, hfront, hsource⟩
  rcases (lexes_lex grammar.openers source).exists_opener hkind hsplit hsource with
    ⟨opener, hopener, inner, rfl, -, -⟩
  refine ⟨opener, hopener, rfl, ?_⟩
  generalize source.drop _ = rest at hsource
  rw [hsource]
  simp only [Lexeme.spanAt, (spanAt_mem_scan hsplit).2, List.drop_left, Lexeme.text_ofConstruct,
    List.append_assoc]
  exact List.prefix_append _ _

/-! ## What is deleted of comments and literals -/

/-- Holds of a comment that is purged: an annotation that was found in it is wanted. -/
def isPurged (notes : List Annotation) (issues : Option (List Int)) (comment : ByteRange) : Bool :=
  notes.any fun note => note.isWanted issues && note.comment = comment

/-- What a purged comment has. -/
theorem isPurged_iff {notes : List Annotation} {issues : Option (List Int)} {comment : ByteRange} :
    isPurged notes issues comment = true ↔
      ∃ note ∈ notes, note.isWanted issues = true ∧ note.comment = comment := by
  simp only [isPurged, List.any_eq_true, Bool.and_eq_true, decide_eq_true_eq]

/-- An offset is deleted if it is in the range of a purged comment. -/
theorem covers_selectedRanges_iff {notes : List Annotation} {issues : Option (List Int)}
    {offset : Nat} :
    ByteRange.covers (selectedRanges source notes issues) offset = true ↔
      ∃ comment, isPurged notes issues comment = true ∧
        (removalRange source comment).contains offset = true := by
  rw [ByteRange.covers, List.any_eq_true]
  constructor
  · rintro ⟨range, hrange, hcontains⟩
    rcases List.mem_map.1 hrange with ⟨note, hnote, rfl⟩
    rw [List.mem_filter] at hnote
    exact ⟨_, isPurged_iff.2 ⟨note, hnote.1, hnote.2, rfl⟩, hcontains⟩
  · rintro ⟨comment, hpurged, hcontains⟩
    rcases isPurged_iff.1 hpurged with ⟨note, hnote, hwanted, rfl⟩
    exact ⟨_, List.mem_map_of_mem (List.mem_filter.2 ⟨hnote, hwanted⟩), hcontains⟩

variable {query : Query} {notes : List Annotation} {note : Annotation}

/-- An annotation whose text does not go on was taken from its comment alone. -/
theorem Annotation.FoundIn.comment_eq {following : List Span} (hjoin : query.join = false)
    (hfound : note.FoundIn query source span following) : note.comment = span.range := by
  rcases hfound.stop with ⟨continuing, hcontinuing, hstop⟩
  rw [Query.continuing, hjoin, Bool.false_and, if_neg Bool.false_ne_true] at hcontinuing
  cases hcontinuing
  unfold Annotation.comment
  rw [hfound.start, hstop]
  rfl

/-- The comments of annotations are among the spans of the source. -/
theorem exists_span_of_mem (hjoin : query.join = false)
    (hnotes : grammar.annotations query source = .ok notes) (hnote : note ∈ notes) :
    ∃ span ∈ (grammar.scan source).spans, span.kind.isComment = true ∧
      note.comment = span.range := by
  have hfinds : grammar.Finds query source note := ⟨notes, hnotes, hnote⟩
  rcases hfinds.exists_foundIn with ⟨-, before, span, following, hspans, hfound⟩
  refine ⟨span, ?_, hfound.isComment, hfound.comment_eq hjoin⟩
  rw [hspans]
  exact List.mem_append_right _ List.mem_cons_self

/-- The comments that are purged are among the spans of the source. -/
theorem exists_span_of_isPurged {issues : Option (List Int)} {comment : ByteRange}
    (hjoin : query.join = false) (hnotes : grammar.annotations query source = .ok notes)
    (hpurged : isPurged notes issues comment = true) :
    ∃ span ∈ (grammar.scan source).spans, span.kind.isComment = true ∧ comment = span.range := by
  rcases isPurged_iff.1 hpurged with ⟨note, hnote, -, rfl⟩
  exact exists_span_of_mem hjoin hnotes hnote

/-- Spans of a source that have the same offsets are the same. -/
theorem eq_of_range_eq {first second : Span}
    (htiles : Tiles 0 source.length (grammar.scan source).spans)
    (hfirst : first ∈ (grammar.scan source).spans) (hsecond : second ∈ (grammar.scan source).spans)
    (hsame : first.range = second.range) : first = second := by
  have hlong := htiles.start_lt_stop second hsecond
  have hstart : first.start = second.start := congrArg ByteRange.start hsame
  have hstop : first.stop = second.stop := congrArg ByteRange.stop hsame
  rcases htiles.eq_or_apart hfirst hsecond with heq | hbehind | hbefore
  · exact heq
  all_goals omega

/-- With a comment nothing is deleted of another comment or of a literal, nor the newline behind
another line comment. -/
theorem removalRange_spares {first second : Span}
    (hsolid : ∀ opener ∈ grammar.openers, opener.IsSolid)
    (htiles : Tiles 0 source.length (grammar.scan source).spans)
    (hfirst : first ∈ (grammar.scan source).spans) (hfirstKind : first.kind ≠ .code)
    (hsecond : second ∈ (grammar.scan source).spans) (hsecondKind : second.kind ≠ .code)
    (hne : first.range ≠ second.range) :
    (∀ offset, second.start ≤ offset → offset < second.stop →
        (removalRange source first.range).contains offset = false) ∧
      (second.kind = .lineComment →
        (removalRange source first.range).contains second.stop = false) := by
  have hfirstFirm := isFirm_of_mem_scan hsolid hfirst hfirstKind
  have hsecondFirm := isFirm_of_mem_scan hsolid hsecond hsecondKind
  have hnonempty : second.start < second.stop := hsecondFirm.nonempty
  have hout : ∀ offset, (removalRange source first.range).stop ≤ offset ∨
      offset < (removalRange source first.range).start →
        (removalRange source first.range).contains offset = false := by
    intro offset hoffset
    rw [Bool.eq_false_iff, ne_eq, ByteRange.contains_iff]
    omega
  rcases htiles.eq_or_apart hfirst hsecond with rfl | hbehind | hbefore
  · exact absurd rfl hne
  · have hstop : (removalRange source first.range).stop ≤ second.start :=
      removalRange_stop_le hsecondFirm hbehind
    constructor
    · exact fun offset hstart _ => hout offset (Or.inl (Nat.le_trans hstop hstart))
    · exact fun _ => hout _ (Or.inl (by omega))
  · constructor
    · intro offset _ hoffset
      have hstart := le_removalRange_start hfirstFirm hsecondFirm hbefore
      exact hout offset (Or.inr (Nat.lt_of_lt_of_le hoffset hstart))
    · intro hline
      exact hout _ (Or.inr (lt_removalRange_start hfirstFirm hbefore
        (newline_of_lineComment hsecond hline)))

section Purging

variable {issues : Option (List Int)}

/-- Of comments and literals those that are purged are deleted, and nothing of the others. -/
theorem covers_eq_isPurged (hsolid : ∀ opener ∈ grammar.openers, opener.IsSolid)
    (hjoin : query.join = false) (hnotes : grammar.annotations query source = .ok notes)
    (hspan : span ∈ (grammar.scan source).spans) (hkind : span.kind ≠ .code) {offset : Nat}
    (hstart : span.start ≤ offset) (hstop : offset < span.stop) :
    ByteRange.covers (selectedRanges source notes issues) offset =
      isPurged notes issues span.range := by
  rw [Bool.eq_iff_iff, covers_selectedRanges_iff]
  constructor
  · rintro ⟨comment, hpurged, hcontains⟩
    rcases exists_span_of_isPurged hjoin hnotes hpurged with ⟨own, hown, hcomment, rfl⟩
    by_cases hsame : own.range = span.range
    · rwa [← hsame]
    · have hspared := removalRange_spares hsolid (tiles_of_annotations hnotes) hown
        (SpanKind.ne_code_of_isComment hcomment) hspan hkind hsame
      rw [hspared.1 offset hstart hstop] at hcontains
      cases hcontains
  · intro hpurged
    have hwhole := removalRange_comment (isFirm_of_mem_scan hsolid hspan hkind).inside
    refine ⟨span.range, hpurged, ByteRange.contains_iff.2 ?_⟩
    exact ⟨Nat.le_trans hwhole.1 hstart, Nat.lt_of_lt_of_le hstop hwhole.2⟩

/-- The newline behind a line comment that is not purged is left. -/
theorem covers_stop_eq_false (hsolid : ∀ opener ∈ grammar.openers, opener.IsSolid)
    (hjoin : query.join = false) (hnotes : grammar.annotations query source = .ok notes)
    (hspan : span ∈ (grammar.scan source).spans) (hline : span.kind = .lineComment)
    (hkept : isPurged notes issues span.range = false) :
    ByteRange.covers (selectedRanges source notes issues) span.stop = false := by
  rw [Bool.eq_false_iff, ne_eq, covers_selectedRanges_iff]
  rintro ⟨comment, hpurged, hcontains⟩
  rcases exists_span_of_isPurged hjoin hnotes hpurged with ⟨own, hown, hcomment, rfl⟩
  by_cases hsame : own.range = span.range
  · rw [hsame, hkept] at hpurged
    cases hpurged
  · have hspared := removalRange_spares hsolid (tiles_of_annotations hnotes) hown
      (SpanKind.ne_code_of_isComment hcomment) hspan (by rw [hline]; decide) hsame
    rw [hspared.2 hline] at hcontains
    cases hcontains

/-- Purging takes the purged comments as a whole, and nothing of other comments and literals. -/
theorem spares_selectedRanges (hsolid : ∀ opener ∈ grammar.openers, opener.IsSolid)
    (hjoin : query.join = false) (hnotes : grammar.annotations query source = .ok notes) :
    Spares (ByteRange.covers (selectedRanges source notes issues))
      (lex grammar.openers source).lexemes := by
  intro before construct after hsplit hkind
  obtain ⟨hspan, hplace⟩ := spanAt_mem_scan hsplit
  generalize hown : construct.spanAt (Position.first.advance (textOf before)) = span at hspan
  have hspanKind : span.kind = construct.kind := by rw [← hown]; rfl
  have hstart : span.start = (textOf before).length := by rw [← hown]; exact hplace
  have hstop : span.stop = (textOf before).length + construct.text.length := by
    rw [← hown, ← hplace]
    rfl
  rw [← hspanKind] at hkind
  have hcovers : ∀ offset < construct.text.length,
      ByteRange.covers (selectedRanges source notes issues) ((textOf before).length + offset) =
        isPurged notes issues span.range := fun offset hoffset =>
    covers_eq_isPurged hsolid hjoin hnotes hspan hkind (by omega) (by omega)
  rw [Lexeme.SparedBy, ← hspanKind, ← hstop]
  cases hpurged : isPurged notes issues span.range with
  | true =>
      rcases exists_span_of_isPurged hjoin hnotes hpurged with ⟨own, hmem, hcomment, hrange⟩
      obtain rfl := eq_of_range_eq (tiles_of_annotations hnotes) hspan hmem hrange
      rw [hpurged] at hcovers
      exact Or.inl ⟨hcomment, hcovers⟩
  | false =>
      rw [hpurged] at hcovers
      exact Or.inr ⟨hcovers, fun hline =>
        covers_stop_eq_false hsolid hjoin hnotes hspan hline hpurged⟩

end Purging

end CommentMarkers
