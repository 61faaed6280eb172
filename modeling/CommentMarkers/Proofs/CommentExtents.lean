import CommentMarkers.Proofs.Positions
import CommentMarkers.Proofs.RangeInsertion
import CommentMarkers.Proofs.SourceInsertion

/-!
# The comments of annotations

The comment of an annotation begins with the lexeme that holds the marker and ends with the last
line comment that goes on with its text.  So it is known from the lexemes of the source and from the
offset of the annotation.

Main results:

- Theorem `isExtent_comment`: the comment of an annotation is the extent at its offset.
- Theorem `IsExtent.eq`: there is only one extent at an offset.
- Theorem `Exchange.comment_eq`: exchanging a comment moves the comments of annotations.
-/

namespace CommentMarkers

/-! ## Extents -/

/-- Holds of the range that begins with the lexeme at an offset and ends with the last of the line
comments that go on with the text of that lexeme.  There is a gap in front of each of them. -/
def IsExtent (query : Query) (lexemes : List Lexeme) (offset : Nat) (range : ByteRange) : Prop :=
  ∃ front lexeme back texts, lexemes = front ++ lexeme :: back ∧
    (textOf front).length ≤ offset ∧ offset < (textOf front).length + lexeme.text.length ∧
      query.continuedTexts lexeme back = .ok texts ∧
        range = ⟨(textOf front).length,
          (textOf (lexemes.take (front.length + 1 + 2 * texts.length))).length⟩

variable {query : Query} {source : Bytes} {lexemes : List Lexeme}

/-- The comments that go on with a text end with the last of the lexemes that they take. -/
theorem stopWith_placeSpans {marker : Bytes} {lexemes : List Lexeme} {place : Position}
    {continuing : List Span} {span : Span} (hstop : span.stop = place.offset)
    (hcontinuing : continuation marker source (placeSpans place lexemes) = .ok continuing) :
    span.stopWith continuing =
      place.offset + (textOf (lexemes.take (2 * continuing.length))).length := by
  match lexemes with
  | [] =>
      cases hcontinuing
      exact hstop
  | [gap] =>
      cases hcontinuing
      exact hstop
  | gap :: comment :: rest =>
      rw [placeSpans, placeSpans, continuation] at hcontinuing
      split at hcontinuing
      · rcases bind_eq_ok_iff.1 hcontinuing with ⟨found, -, hchoice⟩
        split at hchoice
        · rcases bind_eq_ok_iff.1 hchoice with ⟨more, hmore, hsame⟩
          cases hsame
          have hstop : (comment.spanAt (place.advance gap.text)).stop =
              ((place.advance gap.text).advance comment.text).offset := by
            rw [Position.offset_advance]
            rfl
          have hrest := stopWith_placeSpans hstop hmore
          rw [Span.stopWith_cons, hrest, List.length_cons, Nat.mul_succ, List.take_succ_cons,
            List.take_succ_cons, textOf_cons, textOf_cons, Position.offset_advance,
            Position.offset_advance, List.length_append, List.length_append]
          omega
        · cases hchoice
          exact hstop
      · cases hcontinuing
        exact hstop

/-- Line comments have one line each. -/
theorem length_flatMap_commentLines {continuing : List Span}
    (hkinds : ∀ comment ∈ continuing, comment.kind = .lineComment) :
    (continuing.flatMap (·.commentLines source)).length = continuing.length := by
  induction continuing with
  | nil => rfl
  | cons comment rest ih =>
      rcases List.forall_mem_cons.1 hkinds with ⟨hkind, hrest⟩
      rw [List.flatMap_cons, List.length_append, ih hrest, Span.commentLines, if_pos hkind,
        List.length_cons, Nat.add_comm]
      rfl

/-- The comments that go on with the text of a placed comment are as many as their texts, and they
end with the last of the lexemes that they take. -/
theorem exists_continuedTexts {lexeme : Lexeme} {back : List Lexeme} {place : Position}
    {front rest : Bytes} {continuing : List Span}
    (hback : ∀ member ∈ back, member.WellFormed)
    (hsource : source = front ++ (lexeme.text ++ (textOf back ++ rest)))
    (hplace : place.offset = front.length)
    (hcontinuing : query.continuing source (lexeme.spanAt place)
      (placeSpans (place.advance lexeme.text) back) = .ok continuing) :
    ∃ texts, query.continuedTexts lexeme back = .ok texts ∧
      (lexeme.spanAt place).stopWith continuing =
        front.length + (lexeme.text.length + (textOf (back.take (2 * texts.length))).length) := by
  have hbehind : (place.advance lexeme.text).offset = (front ++ lexeme.text).length := by
    rw [Position.offset_advance, hplace, List.length_append]
  have htexts := continuing_placeSpans query lexeme place hback
    (hsource.trans (List.append_assoc _ _ _).symm) hbehind
  rw [hcontinuing] at htexts
  refine ⟨_, htexts.symm, ?_⟩
  rw [List.length_map, length_flatMap_commentLines fun comment hcomment =>
    (of_mem_continuing hcontinuing hcomment).2.2]
  have hstop : (lexeme.spanAt place).stop = (place.advance lexeme.text).offset := by
    rw [Position.offset_advance]
    rfl
  unfold Query.continuing at hcontinuing
  split at hcontinuing
  · rw [stopWith_placeSpans hstop hcontinuing, hbehind, List.length_append, Nat.add_assoc]
  · cases hcontinuing
    change place.offset + lexeme.text.length = _
    rw [hplace]
    rfl

/-- The comment of an annotation is the extent at its offset. -/
theorem isExtent_comment {grammar : Grammar} {note : Annotation}
    (hfinds : grammar.Finds query source note) :
    IsExtent query (lex grammar.openers source).lexemes note.place.offset note.comment := by
  obtain ⟨before, span, following, continuing, hit, next, hspans, hmade, hdelimited, hinside⟩ :=
    hfinds.exists_madeFrom
  obtain ⟨inner, reference, behind, -, hoffset, -, hbegin, hend⟩ :=
    hmade.exists_marker hdelimited hinside
  have hne := note.marker.length_bytes_pos
  rcases exists_split_of_scan hspans with ⟨front, lexeme, back, hsplit, rfl, rfl, rfl, -, -⟩
  have hlexes := lexes_lex grammar.openers source
  have hwellFormed := hlexes.wellFormed
  obtain ⟨rest, hsource⟩ := exists_eq_textOf_append grammar source
  rw [hsplit] at hwellFormed hsource
  have hplace : (Position.first.advance (textOf front)).offset = (textOf front).length := by
    rw [Position.offset_advance]
    exact Nat.zero_add _
  have hshape : source = textOf front ++ (lexeme.text ++ (textOf back ++ rest)) :=
    hsource.trans (by simp)
  obtain ⟨texts, htexts, hstop⟩ := exists_continuedTexts
    (fun member hmember => hwellFormed member (by simp [hmember])) hshape hplace hmade.continues
  have htake : (front ++ lexeme :: back).take (front.length + 1 + 2 * texts.length) =
      front ++ lexeme :: back.take (2 * texts.length) := by
    rw [Nat.add_assoc, List.take_length_add_append, Nat.add_comm, List.take_succ_cons]
  have hstart : (textOf front).length ≤ inner.length := by
    rw [← hplace]
    exact Nat.le_trans (Nat.le_add_right _ _) hbegin
  have hlast : inner.length < (textOf front).length + lexeme.text.length := by
    rw [← hplace]
    change _ ≤ (Position.first.advance (textOf front)).offset + lexeme.text.length at hend
    omega
  refine ⟨front, lexeme, back, texts, hsplit, hoffset ▸ hstart, hoffset ▸ hlast, htexts, ?_⟩
  rw [hsplit, htake, textOf_append, textOf_cons, List.length_append, List.length_append, ← hstop,
    ← hplace, hmade.note_eq]
  rfl

/-! ## Extents of the same source -/

/-- Only one lexeme has an offset in it. -/
theorem eq_of_textOf_le {front more back behind : List Lexeme} {first second : Lexeme}
    {offset : Nat} (hsplit : front ++ first :: back = more ++ second :: behind)
    (hfirst : (textOf front).length ≤ offset)
    (hfirstEnd : offset < (textOf front).length + first.text.length)
    (hsecond : (textOf more).length ≤ offset)
    (hsecondEnd : offset < (textOf more).length + second.text.length) :
    front = more ∧ first = second ∧ back = behind := by
  rcases append_eq_append_cons hsplit with ⟨inner, rfl, -⟩ | ⟨inner, rfl, hrest⟩
  · -- The second lexeme would end in front of the first one.
    simp only [textOf_append, textOf_cons, List.length_append] at hfirst
    omega
  · cases inner with
    | nil =>
        rcases List.cons.inj hrest with ⟨rfl, rfl⟩
        exact ⟨(List.append_nil front).symm, rfl, rfl⟩
    | cons own inner =>
        -- The first lexeme would end in front of the second one.
        rcases List.cons.inj hrest with ⟨rfl, -⟩
        simp only [textOf_append, textOf_cons, List.length_append] at hsecond
        omega

/-- There is only one extent at an offset. -/
theorem IsExtent.eq {offset : Nat} {first second : ByteRange}
    (hfirst : IsExtent query lexemes offset first)
    (hsecond : IsExtent query lexemes offset second) : first = second := by
  obtain ⟨front, lexeme, back, texts, rfl, hstart, hend, htexts, rfl⟩ := hfirst
  obtain ⟨more, other, behind, otherTexts, hsplit, hotherStart, hotherEnd, hotherTexts, rfl⟩ :=
    hsecond
  obtain ⟨rfl, rfl, rfl⟩ := eq_of_textOf_le hsplit hstart hend hotherStart hotherEnd
  rw [htexts] at hotherTexts
  cases hotherTexts
  rfl

/-! ## Exchanging a comment -/

variable {before after : List Lexeme} {comment other : Lexeme} {cut count : Nat}

namespace Exchange

variable {grammar : Grammar} {edited : Bytes}

/-- The marker stops behind the start of the comment. -/
theorem before_lt
    (hexchange : Exchange grammar query source edited cut count before after comment other) :
    (textOf before).length < cut := by
  have hne := query.marker.length_bytes_pos
  have hbegins := hexchange.begins
  omega

/-- Lexemes up to somewhere have a text that grows with the comment, if it is one of them. -/
theorem length_textOf_take
    (hexchange : Exchange grammar query source edited cut count before after comment other)
    (number : Nat) :
    (textOf ((before ++ other :: after).take number)).length =
      shiftedOffset cut count (textOf ((before ++ comment :: after).take number)).length := by
  have hbefore := hexchange.before_lt
  have hcut := hexchange.ends
  have hlength := hexchange.length
  by_cases hnumber : number ≤ before.length
  · rw [List.take_append_of_le_length hnumber, List.take_append_of_le_length hnumber,
      shiftedOffset_of_lt]
    refine Nat.lt_of_le_of_lt ?_ hbefore
    have hsplit := congrArg List.length (congrArg textOf (List.take_append_drop number before))
    rw [textOf_append, List.length_append] at hsplit
    omega
  · obtain ⟨more, rfl⟩ := Nat.exists_eq_add_of_lt (Nat.lt_of_not_le hnumber)
    rw [Nat.add_assoc, List.take_length_add_append, List.take_length_add_append,
      List.take_succ_cons, List.take_succ_cons]
    simp only [textOf_append, textOf_cons, List.length_append]
    rw [shiftedOffset_of_le (by omega)]
    omega

/-- Where a lexeme of the edited source begins, by where the one at the same index of the source
does. -/
theorem length_front
    (hexchange : Exchange grammar query source edited cut count before after comment other)
    {front more rest behind : List Lexeme} (hsplit : before ++ comment :: after = front ++ rest)
    (hagain : before ++ other :: after = more ++ behind) (hindex : more.length = front.length) :
    (textOf more).length = shiftedOffset cut count (textOf front).length := by
  have htake := hexchange.length_textOf_take front.length
  rw [hsplit, List.take_left] at htake
  rwa [hagain, ← hindex, List.take_left] at htake

/-- A lexeme of the edited source whose text goes on in as many comments as that of the lexeme at
the same index of the source has the extent of that one, once it moved. -/
theorem isExtent_shifted
    (hexchange : Exchange grammar query source edited cut count before after comment other)
    {front more back behind : List Lexeme} {lexeme own : Lexeme} {texts : List Bytes} {moved : Nat}
    (hsplit : before ++ comment :: after = front ++ lexeme :: back)
    (hagain : before ++ other :: after = more ++ own :: behind)
    (hindex : more.length = front.length) (hstart : (textOf more).length ≤ moved)
    (hend : moved < (textOf more).length + own.text.length)
    (htexts : query.continuedTexts own behind = .ok texts) :
    IsExtent query (before ++ other :: after) moved
      ((ByteRange.mk (textOf front).length (textOf ((before ++ comment :: after).take
        (front.length + 1 + 2 * texts.length))).length).shifted cut count) := by
  refine ⟨more, own, behind, texts, hagain, hstart, hend, htexts, ?_⟩
  rw [hexchange.length_textOf_take, hexchange.length_front hsplit hagain hindex, hindex,
    ByteRange.shifted]

/-- An extent of a source is one of the edited source once it moved.  It is found at an offset that
stays if it is not behind the comment, and that moves if it is not in front of it. -/
theorem isExtent
    (hexchange : Exchange grammar query source edited cut count before after comment other)
    {offset moved : Nat}
    (hoffset : offset < (textOf before).length + comment.text.length ∧ moved = offset ∨
      (textOf before).length ≤ offset ∧ moved = offset + count) {range : ByteRange}
    (hextent : IsExtent query (before ++ comment :: after) offset range) :
    IsExtent query (before ++ other :: after) moved (range.shifted cut count) := by
  have hlength := hexchange.length
  obtain ⟨front, lexeme, back, texts, hsplit, hstart, hend, htexts, rfl⟩ := hextent
  rcases append_eq_append_cons hsplit with ⟨inner, rfl, rfl⟩ | ⟨inner, rfl, hrest⟩
  · -- The lexeme is in front of the comment.
    simp only [textOf_append, textOf_cons, List.length_append] at hoffset
    have hagain : front ++ lexeme :: inner ++ other :: after =
        front ++ lexeme :: (inner ++ other :: after) := by
      simp
    refine hexchange.isExtent_shifted hsplit hagain rfl (by omega) (by omega) ?_
    rw [← htexts]
    unfold Query.continuedTexts
    rw [continuedTexts_change hexchange.isComment hexchange.kind hexchange.found
      hexchange.foundAgain inner]
  · cases inner with
    | nil =>
        -- The lexeme is the comment.
        rcases List.cons.inj hrest with ⟨rfl, rfl⟩
        rw [List.append_nil] at hsplit hstart hend ⊢
        refine hexchange.isExtent_shifted hsplit rfl rfl (by omega) (by omega) ?_
        rw [← htexts]
        unfold Query.continuedTexts
        rw [hexchange.kind]
    | cons own inner =>
        -- The lexeme is behind the comment.
        rcases List.cons.inj hrest with ⟨rfl, rfl⟩
        have hagain : before ++ other :: (inner ++ lexeme :: back) =
            before ++ other :: inner ++ lexeme :: back := by
          simp
        refine hexchange.isExtent_shifted hsplit hagain (by simp) ?_ ?_ htexts
        all_goals
          simp only [textOf_append, textOf_cons, List.length_append] at hstart hend ⊢
          omega

/-- The comment of an annotation moves and grows.  The annotation may have another offset if its own
comment was exchanged or is behind the one that was. -/
theorem comment_eq
    (hexchange : Exchange grammar query source edited cut count before after comment other)
    {note changed : Annotation} (hfinds : grammar.Finds query source note)
    (hagain : grammar.Finds query edited changed)
    (hoffset : note.place.offset < (textOf before).length + comment.text.length ∧
          changed.place.offset = note.place.offset ∨
        (textOf before).length ≤ note.place.offset ∧
          changed.place.offset = note.place.offset + count) :
    changed.comment = note.comment.shifted cut count := by
  have hextent := isExtent_comment hfinds
  have hchanged := isExtent_comment hagain
  rw [hexchange.split] at hextent
  rw [← hexchange.edited.eq_lex] at hchanged
  exact hchanged.eq (hexchange.isExtent hoffset hextent)

end Exchange

end CommentMarkers
