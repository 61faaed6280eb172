import CommentMarkers.Proofs.AcceptedTables
import CommentMarkers.Proofs.PurgedRanges
import CommentMarkers.Proofs.SparedConstructs

/-!
# What purging deletes beside comments

The range that is removed with a comment is wider than the comment.  If the delimiters of a grammar
neither begin nor end with a blank, then what is removed beside a comment are blanks of the code
around it.  So purging deletes the comments of the selected annotations, some blanks of the code,
and nothing else: every literal and every other comment is left as it is.

Main results:

- Theorem `Grammar.Accepted.isTrimmed`: the openers of such a grammar begin and end without blanks.
- Theorem `Annotation.FoundIn.inside_or_apart`: an annotation stands for whole spans.
- Theorem `Grammar.Finds.blank_of_removed`: what is removed beside a comment are blanks of code.
- Theorem `Tiles.without_eq`: a source without some bytes is what is left of its spans.
- Theorem `purge_deletes_blanks`: what purging deletes, and what it leaves.
-/

namespace CommentMarkers

/-! ## Delimiters without blanks at their ends -/

/-- Holds of a text that neither begins nor ends with a blank. -/
def Bytes.IsTrimmed (text : Bytes) : Prop :=
  (∀ byte ∈ text.head?, isBlank byte = false) ∧ ∀ byte ∈ text.getLast?, isBlank byte = false

instance (text : Bytes) : Decidable text.IsTrimmed :=
  inferInstanceAs (Decidable (_ ∧ _))

/-- The delimiters that open and close the comments and literals of a grammar. -/
def Grammar.delimiters (grammar : Grammar) : List String :=
  grammar.lineComments ++ grammar.blockComments.flatMap (fun block => [block.start, block.stop])
    ++ (grammar.strings ++ grammar.chars).map (·.token)

/-- Holds of a grammar with delimiters that neither begin nor end with a blank. -/
def Grammar.HasTrimmedDelimiters (grammar : Grammar) : Prop :=
  ∀ delimiter ∈ grammar.delimiters, (Text.encode delimiter).IsTrimmed

instance (grammar : Grammar) : Decidable grammar.HasTrimmedDelimiters :=
  inferInstanceAs (Decidable (∀ delimiter ∈ grammar.delimiters, _))

/-- A delimiter that does not end with a blank, and is not empty, ends with something else. -/
theorem Bytes.IsTrimmed.exists_last {text : Bytes} (htrimmed : text.IsTrimmed) (hne : text ≠ []) :
    ∃ byte ∈ text.getLast?, isBlank byte = false := by
  have hlast := List.getLast?_eq_some_getLast hne
  exact ⟨_, hlast, htrimmed.2 _ hlast⟩

/-- The openers of an accepted grammar begin and end without blanks if its delimiters do. -/
theorem Grammar.Accepted.isTrimmed {grammar : Grammar} (haccepted : grammar.Accepted)
    (htrimmed : grammar.HasTrimmedDelimiters) :
    ∀ opener ∈ grammar.openers, opener.IsTrimmed := by
  intro opener hopener
  obtain ⟨htoken, hterminator⟩ := Grammar.delimiters_of_mem_openers hopener
  have hne := haccepted.token_ne_nil hopener
  rcases Grammar.opener_cases hopener with
    ⟨block, hblock, rfl⟩ | ⟨token, hmem, rfl⟩ | ⟨quote, hquote, kind, -, rfl⟩
  · have hends : ∀ delimiter ∈ [block.start, block.stop], (Text.encode delimiter).IsTrimmed :=
      fun delimiter hdelimiter => htrimmed delimiter (List.mem_append_left _
        (List.mem_append_right _ (List.mem_flatMap.2 ⟨block, hblock, hdelimiter⟩)))
    constructor
    · rw [htoken]
      exact (hends block.start (by simp)).1
    · intro _
      rw [hterminator]
      exact (hends block.stop (by simp)).exists_last
        (Text.encode_ne_nil (haccepted.blockStop_ne_empty hblock))
  · have hends : (Text.encode token).IsTrimmed := htrimmed token
      (List.mem_append_left _ (List.mem_append_left _ hmem))
    constructor
    · rw [htoken]
      exact hends.1
    · exact fun hkind => absurd rfl hkind
  · have hends : (Text.encode quote.token).IsTrimmed := htrimmed quote.token
      (List.mem_append_right _ (List.mem_map_of_mem hquote))
    rw [htoken] at hne
    constructor
    · rw [htoken]
      exact hends.1
    · intro _
      rw [hterminator]
      exact hends.exists_last hne

/-! ## Spans around an offset -/

/-- Every offset in a range lies in one of the spans that tile it. -/
theorem Tiles.exists_contains {start stop offset : Nat} {spans : List Span}
    (htiles : Tiles start stop spans) (hstart : start ≤ offset) (hstop : offset < stop) :
    ∃ span ∈ spans, span.range.contains offset = true := by
  induction spans generalizing start with
  | nil =>
      have hempty : start = stop := htiles
      omega
  | cons span rest ih =>
      rcases htiles with ⟨hbegins, -, hrest⟩
      rcases Nat.lt_or_ge offset span.stop with hinside | hbehind
      · refine ⟨span, List.mem_cons_self, ByteRange.contains_iff.2 ⟨?_, hinside⟩⟩
        rw [Span.range, hbegins]
        exact hstart
      · rcases ih hrest hbehind with ⟨other, hother, hcontains⟩
        exact ⟨other, List.mem_cons_of_mem _ hother, hcontains⟩

/-- The text of a span without the bytes that are gone from the source. -/
def Span.textWithout (span : Span) (source : Bytes) (gone : Nat → Bool) : Bytes :=
  Bytes.without (span.text source) fun offset => gone (span.start + offset)

/-- A span that loses no byte has its text. -/
theorem Span.textWithout_eq_text {span : Span} {source : Bytes} {gone : Nat → Bool}
    (hstays : ∀ offset, span.range.contains offset = true → gone offset = false) :
    span.textWithout source gone = span.text source := by
  refine Bytes.without_eq_self fun offset hoffset => hstays _ ?_
  have hlength := Bytes.length_slice_le source span.start span.stop
  rw [ByteRange.contains_iff]
  simp only [Span.range, Span.text] at hoffset ⊢
  omega

/-- A slice is a first part of it and the rest. -/
theorem slice_eq_append (source : Bytes) {start middle stop : Nat} (hfirst : start ≤ middle)
    (hsecond : middle ≤ stop) :
    Bytes.slice source start stop =
      Bytes.slice source start middle ++ Bytes.slice source middle stop := by
  have hcount : stop - start = (middle - start) + (stop - middle) := by
    omega
  rw [Bytes.slice, Bytes.slice, Bytes.slice, hcount, List.take_add, List.drop_drop,
    Nat.add_sub_cancel' hfirst]

/-- What is left of a range is what is left of the spans that tile it, in their order. -/
theorem Tiles.without_eq {source : Bytes} {start stop : Nat} {spans : List Span}
    (htiles : Tiles start stop spans) (hinside : stop ≤ source.length) (gone : Nat → Bool) :
    Bytes.without (Bytes.slice source start stop) (fun offset => gone (start + offset)) =
      spans.flatMap (·.textWithout source gone) := by
  induction spans generalizing start with
  | nil =>
      have hempty : start = stop := htiles
      rw [hempty, Bytes.slice, Nat.sub_self]
      rfl
  | cons span rest ih =>
      rcases htiles with ⟨rfl, hpos, hrest⟩
      have hle := hrest.bounds.1
      have hlength : (Bytes.slice source span.start span.stop).length = span.stop - span.start :=
        length_slice (Nat.le_trans hle hinside)
      have hbehind : ∀ offset, span.start + (span.stop - span.start + offset) =
          span.stop + offset := by
        omega
      rw [slice_eq_append source (Nat.le_of_lt hpos) hle, Bytes.without_append, hlength,
        List.flatMap_cons, ← ih hrest]
      simp only [hbehind]
      rfl

/-! ## What is removed beside a comment -/

variable {grammar : Grammar} {query : Query} {source : Bytes} {note : Annotation}

/-- An annotation stands for whole spans: another span lies between its ends or apart from it. -/
theorem Annotation.FoundIn.inside_or_apart {start stop : Nat} {before following : List Span}
    {span other : Span} (hfound : note.FoundIn query source span following)
    (htiles : Tiles start stop (before ++ span :: following))
    (hother : other ∈ before ++ span :: following) :
    (note.spanStart ≤ other.start ∧ other.stop ≤ note.spanStop) ∨
      other.stop ≤ note.spanStart ∨ note.spanStop ≤ other.start := by
  have hown : span ∈ before ++ span :: following := by simp
  have horder := (List.pairwise_append.1 htiles.pairwise).2.1
  have hpos := htiles.start_lt_stop
  have hstop := hfound.le_stop horder fun later hlater => hpos later (by simp [hlater])
  rw [hfound.start]
  rcases htiles.eq_or_apart hother hown with rfl | hbefore | hbehind
  · exact Or.inl ⟨Nat.le_refl _, hstop⟩
  · exact Or.inr (Or.inl hbefore)
  · rcases hfound.stop_cases with hends | ⟨-, last, hlast, -, hends⟩
    · exact Or.inr (Or.inr (by rw [hends]; exact hbehind))
    · -- The text goes on in line comments, the last of which ends it.
      rw [hends]
      have hlong := hpos span hown
      have hlastLong := hpos last (by simp [hlast])
      rcases htiles.eq_or_apart hother (show last ∈ _ by simp [hlast]) with rfl | hfirst | hlater
      all_goals omega

namespace Grammar.Finds

/-- The range of an annotation has firm ends. -/
theorem isFirm (hfinds : grammar.Finds query source note)
    (htrimmed : ∀ opener ∈ grammar.openers, opener.IsTrimmed) : note.comment.IsFirm source := by
  rcases hfinds.exists_foundIn with ⟨htiles, before, span, following, hspans, hfound⟩
  have hmem : ∀ other ∈ span :: following, other ∈ (grammar.scan source).spans := by
    intro other hother
    rw [hspans]
    exact List.mem_append_right _ hother
  have hown := isFirm_of_isTrimmed htrimmed (hmem span List.mem_cons_self)
    (SpanKind.ne_code_of_isComment hfound.isComment)
  have hstop : span.stop ≤ note.spanStop := by
    rw [hspans] at htiles
    exact hfound.le_stop (List.pairwise_append.1 htiles.pairwise).2.1
      fun other hother => htiles.start_lt_stop other (by simp [hother])
  constructor
  · have hnonempty : span.start < span.stop := hown.nonempty
    simp only [hfound.start, Annotation.comment]
    omega
  · exact hfinds.inside.1
  · simp only [hfound.start, Annotation.comment]
    exact hown.first
  · unfold Annotation.comment
    rcases hfound.stop_cases with hends | ⟨-, last, hlast, hkind, hends⟩
    · rw [hends]
      exact hown.last
    · rw [hends]
      exact (isFirm_of_isTrimmed htrimmed (hmem last (List.mem_cons_of_mem _ hlast))
        (by rw [hkind]; decide)).last

/-- A comment or a literal that does not lie between the ends of an annotation is not removed. -/
theorem removed_inside (hfinds : grammar.Finds query source note)
    (htrimmed : ∀ opener ∈ grammar.openers, opener.IsTrimmed) {span : Span}
    (hspan : span ∈ (grammar.scan source).spans) (hkind : span.kind ≠ .code) {offset : Nat}
    (hoffset : span.range.contains offset = true)
    (hremoved : (removalRange source note.comment).contains offset = true) :
    note.spanStart ≤ span.start ∧ span.stop ≤ note.spanStop := by
  have hcomment := hfinds.isFirm htrimmed
  have hother := isFirm_of_isTrimmed htrimmed hspan hkind
  rcases hfinds.exists_foundIn with ⟨htiles, before, own, following, hspans, hfound⟩
  rw [hspans] at htiles hspan
  rw [ByteRange.contains_iff] at hoffset hremoved
  rcases hfound.inside_or_apart htiles hspan with hinside | hbefore | hbehind
  · exact hinside
  · have hstarts : span.stop ≤ (removalRange source note.comment).start :=
      le_removalRange_start hcomment hother hbefore
    simp only [Span.range] at hoffset
    omega
  · have hstops : (removalRange source note.comment).stop ≤ span.start :=
      removalRange_stop_le hother hbehind
    simp only [Span.range] at hoffset
    omega

/-- What is removed beside the comment of an annotation are blanks of code. -/
theorem blank_of_removed (hfinds : grammar.Finds query source note)
    (htrimmed : ∀ opener ∈ grammar.openers, opener.IsTrimmed) {offset : Nat}
    (hremoved : (removalRange source note.comment).contains offset = true)
    (hbeside : note.comment.contains offset = false) :
    (∃ span ∈ (grammar.scan source).spans, span.kind = .code ∧
        span.range.contains offset = true) ∧
      ∃ byte, source[offset]? = some byte ∧ Bytes.isBlank byte = true := by
  have hfirm := hfinds.isFirm htrimmed
  have hblank : ∃ byte, source[offset]? = some byte ∧ Bytes.isBlank byte = true := by
    have hstart : note.comment.start ≤ source.length :=
      Nat.le_trans (Nat.le_of_lt hfirm.nonempty) hfirm.inside
    rw [ByteRange.contains_iff] at hremoved
    rw [Bool.eq_false_iff, ne_eq, ByteRange.contains_iff] at hbeside
    rcases Nat.lt_or_ge offset note.comment.start with hfront | hback
    · rcases removalRange_front hstart hremoved.1 hfront with ⟨byte, hbyte, hbytes, -⟩
      exact ⟨byte, hbyte, hbytes⟩
    · exact removalRange_back hfirm.inside (by omega) hremoved.2
  refine ⟨?_, hblank⟩
  rcases hblank with ⟨byte, hbyte, -⟩
  rcases hfinds.exists_foundIn with ⟨htiles, -⟩
  rcases htiles.exists_contains (Nat.zero_le _) (List.getElem?_eq_some_iff.1 hbyte).1 with
    ⟨span, hspan, hcontains⟩
  refine ⟨span, hspan, ?_, hcontains⟩
  by_contra hkind
  -- Otherwise the comment or literal would lie between the ends of the annotation.
  have hinside := hfinds.removed_inside htrimmed hspan hkind hcontains hremoved
  rw [ByteRange.contains_iff] at hcontains
  rw [Bool.eq_false_iff, ne_eq, ByteRange.contains_iff] at hbeside
  simp only [Span.range, Annotation.comment] at hcontains hbeside
  omega

end Grammar.Finds

/-! ## What purging deletes -/

/-- Purging deletes the comments of the selected annotations, blanks of code, and nothing else, if
the delimiters neither begin nor end with a blank.  What is left are the spans of the source in
their order; every literal and every comment that does not lie in the range of a selected annotation
is left as it is. -/
theorem purge_deletes_blanks (haccepted : grammar.Accepted)
    (htrimmed : grammar.HasTrimmedDelimiters) {notes : List Annotation}
    (hnotes : grammar.annotations query source = .ok notes) (issues : Option (List Int)) :
    ∃ gone : Nat → Bool,
      purge source notes issues = Bytes.without source gone ∧
      (∀ note ∈ notes, note.isWanted issues = true →
        ∀ offset, note.comment.contains offset = true → gone offset = true) ∧
      (∀ offset, gone offset = true →
        (∃ note ∈ notes, note.isWanted issues = true ∧ note.comment.contains offset = true) ∨
          (∃ span ∈ (grammar.scan source).spans, span.kind = .code ∧
              span.range.contains offset = true) ∧
            ∃ byte, source[offset]? = some byte ∧ Bytes.isBlank byte = true) ∧
      purge source notes issues =
        (grammar.scan source).spans.flatMap (·.textWithout source gone) ∧
      ∀ span ∈ (grammar.scan source).spans, span.kind ≠ .code →
        (∀ note ∈ notes, note.isWanted issues = true →
          ¬ (note.spanStart ≤ span.start ∧ span.stop ≤ note.spanStop)) →
        span.textWithout source gone = span.text source := by
  have hopeners := haccepted.isTrimmed htrimmed
  have hfinds : ∀ note ∈ notes, grammar.Finds query source note :=
    fun note hnote => ⟨notes, hnotes, hnote⟩
  have hpurge : purge source notes issues =
      Bytes.without source (ByteRange.covers (selectedRanges source notes issues)) := by
    refine purge_of_apart grammar (fun note hnote => ⟨query, hfinds note hnote, Or.inr ?_⟩) issues
    intro other hother
    rw [(hfinds other hother).marker, (hfinds note hnote).marker]
  have hcovers : ∀ {offset}, ByteRange.covers (selectedRanges source notes issues) offset = true ↔
      ∃ note ∈ notes, note.isWanted issues = true ∧
        (removalRange source note.comment).contains offset = true := by
    intro offset
    simp only [ByteRange.covers, selectedRanges, List.any_map, List.any_eq_true, List.mem_filter,
      Function.comp_apply, and_assoc]
  refine ⟨_, hpurge, ?_, ?_, ?_, ?_⟩
  · intro note hnote hwanted offset hcontains
    refine hcovers.2 ⟨note, hnote, hwanted, ?_⟩
    have hinside : note.comment.stop ≤ source.length := (hfinds note hnote).inside.1
    have hwhole := removalRange_comment hinside
    rw [ByteRange.contains_iff] at hcontains ⊢
    omega
  · intro offset hgone
    rcases hcovers.1 hgone with ⟨note, hnote, hwanted, hremoved⟩
    cases hbeside : note.comment.contains offset with
    | true => exact Or.inl ⟨note, hnote, hwanted, hbeside⟩
    | false => exact Or.inr ((hfinds note hnote).blank_of_removed hopeners hremoved hbeside)
  · rw [hpurge, ← (tiles_of_annotations hnotes).without_eq (Nat.le_refl _)]
    simp only [Bytes.slice, List.drop_zero, Nat.sub_zero, List.take_length, Nat.zero_add]
  · intro span hspan hkind houtside
    refine Span.textWithout_eq_text fun offset hoffset => ?_
    rw [Bool.eq_false_iff, ne_eq, hcovers]
    rintro ⟨note, hnote, hwanted, hremoved⟩
    exact houtside note hnote hwanted
      ((hfinds note hnote).removed_inside hopeners hspan hkind hoffset hremoved)

/-- A comment at the end of a line is purged with the comment that goes on with its text.  The
string in front of them and the comment behind them are left as they are. -/
theorem purge_deletes_blanks_around :
    ∃ notes gone,
      Grammar.c.annotations ⟨.todo, .all, true⟩
          (Text.encode "s = \"// @TODO a\";  // @TODO(#1) b\n  // c\n/* @TODO d */\n") = .ok notes ∧
        purge (Text.encode "s = \"// @TODO a\";  // @TODO(#1) b\n  // c\n/* @TODO d */\n") notes
            (some [1]) =
          Bytes.without
            (Text.encode "s = \"// @TODO a\";  // @TODO(#1) b\n  // c\n/* @TODO d */\n") gone ∧
        (∀ offset, 19 ≤ offset → offset < 40 → gone offset = true) ∧
        (⟨.stringLiteral, 4, 16, 1, 5, "\"", "\""⟩ : Span).textWithout
            (Text.encode "s = \"// @TODO a\";  // @TODO(#1) b\n  // c\n/* @TODO d */\n") gone =
          Text.encode "\"// @TODO a\"" ∧
        (⟨.blockComment, 41, 54, 3, 1, "/*", "*/"⟩ : Span).textWithout
            (Text.encode "s = \"// @TODO a\";  // @TODO(#1) b\n  // c\n/* @TODO d */\n") gone =
          Text.encode "/* @TODO d */" := by
  have hnotes : Grammar.c.annotations ⟨.todo, .all, true⟩
      (Text.encode "s = \"// @TODO a\";  // @TODO(#1) b\n  // c\n/* @TODO d */\n") =
        .ok [⟨.todo, "b\nc", ⟨22, 1, 23⟩, .lineComment, 19, 40, some 1⟩,
          ⟨.todo, "d", ⟨44, 3, 4⟩, .blockComment, 41, 54, none⟩] := by
    decide +kernel
  rcases purge_deletes_blanks (Grammar.builtin_accepted _ (by decide)) (by decide +kernel) hnotes
    (some [1]) with ⟨gone, hpurge, hcomments, -, -, hspans⟩
  refine ⟨_, gone, hnotes, hpurge, fun offset hstart hstop => ?_, ?_, ?_⟩
  · exact hcomments _ List.mem_cons_self (by decide) offset
      (ByteRange.contains_iff.2 ⟨hstart, hstop⟩)
  · exact (hspans _ (by decide +kernel) (by decide) (by decide +kernel)).trans (by decide +kernel)
  · exact (hspans _ (by decide +kernel) (by decide) (by decide +kernel)).trans (by decide +kernel)

end CommentMarkers
