import CommentMarkers.Proofs.CommentExtents
import CommentMarkers.Proofs.PurgedBlanks

/-!
# Line endings

Some sources end their lines with a carriage return and a newline.  Purging keeps these line endings
but for one case: a comment at the end of a line that it shares with something in front of it is
removed up to the newline, and the carriage return goes with it.  Then the newline is left behind
whatever is left in front of the comment.

Main results:

- Theorem `Bytes.hasCrlfEndings_without_iff`: when a text that loses bytes has such line endings.
- Theorem `removalRange_before_newline`: which comments are removed up to a newline.
- Theorem `covers_lineStop_eq_false`: the newline behind such a comment is left.
- Theorem `purge_keeps_crlf`: when purging keeps the line endings of a source.
-/

namespace CommentMarkers

/-! ## Newlines behind carriage returns -/

namespace Bytes

/-- Holds of a text in which every newline stands directly behind a carriage return. -/
def HasCrlfEndings (text : Bytes) : Prop :=
  ∀ offset < text.length, text[offset]? = some newline →
    (text.take offset).getLast? = some carriageReturn

instance (text : Bytes) : Decidable text.HasCrlfEndings :=
  inferInstanceAs (Decidable (∀ offset < text.length, _))

/-- Holds of a text in which a newline stands directly behind every carriage return. -/
def HasPairedReturns (text : Bytes) : Prop :=
  ∀ offset < text.length, text[offset]? = some carriageReturn →
    text[offset + 1]? = some newline

instance (text : Bytes) : Decidable text.HasPairedReturns :=
  inferInstanceAs (Decidable (∀ offset < text.length, _))

/-- The last byte that is left in front of an offset. -/
def lastLeft? (text : Bytes) (gone : Nat → Bool) (offset : Nat) : Option UInt8 :=
  (without (text.take offset) gone).getLast?

variable {text : Bytes} {gone : Nat → Bool} {offset : Nat} {byte : UInt8}

/-- A newline at the end of a text has to stand behind a carriage return. -/
theorem hasCrlfEndings_concat_iff :
    (text ++ [byte]).HasCrlfEndings ↔
      text.HasCrlfEndings ∧ (byte = newline → text.getLast? = some carriageReturn) := by
  unfold HasCrlfEndings
  rw [List.length_append, List.length_singleton, Nat.forall_lt_succ_right, List.take_left,
    getElem?_middle, Option.some.injEq]
  refine and_congr_left fun _ => forall₂_congr fun offset hoffset => ?_
  rw [List.getElem?_append_left hoffset, List.take_append_of_le_length (Nat.le_of_lt hoffset)]

/-- What is left up to and with a byte. -/
theorem without_take_succ (hbyte : text[offset]? = some byte) :
    without (text.take (offset + 1)) gone =
      without (text.take offset) gone ++ if gone offset then [] else [byte] := by
  have hlength : (text.take offset).length = offset :=
    List.length_take_of_le (Nat.le_of_lt (List.getElem?_eq_some_iff.1 hbyte).1)
  rw [List.take_add_one, hbyte, Option.toList_some, without_append, hlength, without_cons,
    without_nil, List.append_nil, Nat.add_zero]

/-- A byte that stays is the last one that is left in front of the next offset. -/
theorem lastLeft?_succ_of_stays (hbyte : text[offset]? = some byte) (hstays : gone offset = false) :
    text.lastLeft? gone (offset + 1) = some byte := by
  rw [lastLeft?, without_take_succ hbyte, hstays, if_neg Bool.false_ne_true, List.getLast?_concat]

/-- A byte that is gone is not left. -/
theorem lastLeft?_succ_of_gone (hgone : gone offset = true) :
    text.lastLeft? gone (offset + 1) = text.lastLeft? gone offset := by
  cases hbyte : text[offset]? with
  | none =>
      rw [lastLeft?, List.take_add_one, hbyte, Option.toList_none, List.append_nil, lastLeft?]
  | some byte =>
      rw [lastLeft?, without_take_succ hbyte, hgone, if_pos rfl, List.append_nil, lastLeft?]

/-- Behind bytes that are all gone the last one that is left is the one in front of them. -/
theorem lastLeft?_of_gone {start stop : Nat} (horder : start ≤ stop)
    (hgone : ∀ offset, start ≤ offset → offset < stop → gone offset = true) :
    text.lastLeft? gone stop = text.lastLeft? gone start := by
  induction stop, horder using Nat.le_induction with
  | base => rfl
  | succ stop hstart ih =>
      rw [lastLeft?_succ_of_gone (hgone stop hstart (Nat.lt_succ_self stop)),
        ih fun offset hfrom hoffset => hgone offset hfrom (Nat.lt_succ_of_lt hoffset)]

/-- The last byte that is left stands somewhere in the text, and all bytes behind it are gone. -/
theorem exists_of_lastLeft? (hinside : offset ≤ text.length)
    (hleft : text.lastLeft? gone offset = some byte) :
    ∃ place < offset, text[place]? = some byte ∧ gone place = false ∧
      ∀ later, place < later → later < offset → gone later = true := by
  induction offset with
  | zero => cases hleft
  | succ offset ih =>
      cases hgone : gone offset with
      | true =>
          rw [lastLeft?_succ_of_gone hgone] at hleft
          obtain ⟨place, hplace, hbyte, hstays, hlater⟩ := ih (Nat.le_of_succ_le hinside) hleft
          refine ⟨place, Nat.lt_succ_of_lt hplace, hbyte, hstays, fun later hbehind hbefore => ?_⟩
          rcases Nat.lt_succ_iff_lt_or_eq.1 hbefore with hbefore | rfl
          · exact hlater later hbehind hbefore
          · exact hgone
      | false =>
          have hlast := List.getElem?_eq_getElem (Nat.lt_of_succ_le hinside)
          rw [lastLeft?_succ_of_stays hlast hgone] at hleft
          exact ⟨offset, Nat.lt_succ_self offset, hlast.trans hleft, hgone, by omega⟩

/-- A text that loses bytes has all newlines behind carriage returns exactly if a carriage return is
the last byte that is left in front of each newline that is left. -/
theorem hasCrlfEndings_without_iff (text : Bytes) (gone : Nat → Bool) :
    (without text gone).HasCrlfEndings ↔
      ∀ offset, text[offset]? = some newline → gone offset = false →
        text.lastLeft? gone offset = some carriageReturn := by
  have hfront : ∀ count ≤ text.length, (without (text.take count) gone).HasCrlfEndings ↔
      ∀ offset < count, text[offset]? = some newline → gone offset = false →
        text.lastLeft? gone offset = some carriageReturn := by
    intro count hcount
    induction count with
    | zero => exact iff_of_true (fun _ hoffset => absurd hoffset (Nat.not_lt_zero _)) nofun
    | succ count ih =>
        have hbyte := List.getElem?_eq_getElem (Nat.lt_of_succ_le hcount)
        rw [Nat.forall_lt_succ_right, ← ih (Nat.le_of_succ_le hcount), without_take_succ hbyte,
          hbyte, Option.some.injEq]
        cases hgone : gone count with
        | true => simp
        | false =>
            rw [if_neg Bool.false_ne_true, hasCrlfEndings_concat_iff]
            simp [lastLeft?]
  have hwhole := hfront text.length (Nat.le_refl _)
  rw [List.take_length] at hwhole
  rw [hwhole]
  refine forall_congr' fun offset => ⟨fun hends hbyte => ?_, fun hends _ => hends⟩
  exact hends (List.getElem?_eq_some_iff.1 hbyte).1 hbyte

end Bytes

/-! ## Comments that are removed up to a newline -/

/-- Holds of a comment at the end of a line that it shares with something in front of it, where a
newline ends the line. -/
def ByteRange.trailsLine (source : Bytes) (comment : ByteRange) : Bool :=
  comment.endsLine source &&
    !Bytes.isBlankText (Bytes.slice source (lineStart source comment.start) comment.start) &&
    lineStop source comment.stop < source.length

variable {source : Bytes} {comment : ByteRange}

/-- A comment at the end of a shared line is removed up to the newline. -/
theorem removalRange_stop_of_trailsLine (htrails : comment.trailsLine source = true) :
    (removalRange source comment).stop = lineStop source comment.stop := by
  simp only [ByteRange.trailsLine, ByteRange.endsLine, Bool.and_eq_true] at htrails
  obtain ⟨⟨hends, hshares⟩, -⟩ := htrails
  rw [removalRange_eq, hends, if_neg (by decide), if_pos hshares]

/-- Behind a comment at the end of a shared line there is a newline. -/
theorem newline_of_trailsLine (hinside : comment.stop ≤ source.length)
    (htrails : comment.trailsLine source = true) :
    source[lineStop source comment.stop]? = some Bytes.newline := by
  simp only [ByteRange.trailsLine, Bool.and_eq_true, decide_eq_true_eq] at htrails
  exact (lineStop_spec hinside).2.2 htrails.2

/-- A comment that is removed up to a newline is at the end of a shared line, or it was removed with
whole lines and another newline. -/
theorem removalRange_before_newline (hinside : comment.stop ≤ source.length)
    (hnewline : source[(removalRange source comment).stop]? = some Bytes.newline) :
    comment.trailsLine source = true ∨
      source[(removalRange source comment).stop - 1]? = some Bytes.newline := by
  have hbefore := (List.getElem?_eq_some_iff.1 hnewline).1
  rw [removalRange_eq] at hnewline hbefore ⊢
  split at hnewline
  · -- Nothing is behind a comment in front of a newline.
    rename_i hcode
    rw [slice_lineStop_eq_nil fun byte hbyte => Option.some.inj (hbyte.symm.trans hnewline)]
      at hcode
    cases hcode
  · rename_i hblank
    rw [if_neg hblank] at hbefore ⊢
    rw [Bool.not_eq_true, Bool.not_eq_false'] at hblank
    split at hnewline
    · rename_i hshares
      rw [if_pos hshares] at hbefore
      left
      simp only [ByteRange.trailsLine, ByteRange.endsLine, Bool.and_eq_true, decide_eq_true_eq]
      exact ⟨⟨hblank, hshares⟩, hbefore⟩
    · rename_i halone
      rw [if_neg halone] at hbefore ⊢
      right
      dsimp only at hbefore ⊢
      split at hbefore
      · rename_i hmore
        rw [if_pos hmore]
        exact (lineStop_spec hinside).2.2 hmore
      · rename_i hend
        exact absurd hbefore hend

/-! ## Comments of the same query -/

variable {grammar : Grammar} {query : Query} {notes : List Annotation}

/-- The extent at an offset is also the one where it starts. -/
theorem IsExtent.at_start {lexemes : List Lexeme} {offset : Nat} {range : ByteRange}
    (hextent : IsExtent query lexemes offset range) :
    IsExtent query lexemes range.start range := by
  obtain ⟨front, lexeme, back, texts, hsplit, hstart, hend, htexts, rfl⟩ := hextent
  refine ⟨front, lexeme, back, texts, hsplit, Nat.le_refl _, ?_, htexts, rfl⟩
  exact Nat.lt_of_le_of_lt hstart hend

/-- Annotations of one query whose comments start together have the same comment. -/
theorem Grammar.Finds.comment_eq_of_start {note other : Annotation}
    (hfirst : grammar.Finds query source note) (hsecond : grammar.Finds query source other)
    (hstart : note.spanStart = other.spanStart) : note.comment = other.comment := by
  have hextent := (isExtent_comment hsecond).at_start
  have hsame : other.comment.start = note.comment.start := hstart.symm
  rw [hsame] at hextent
  exact (isExtent_comment hfirst).at_start.eq hextent

/-! ## What purging does to line endings -/

/-- What holds of the purged comments holds of the comments of wanted annotations. -/
theorem forall_isPurged_iff {issues : Option (List Int)} (holds : ByteRange → Prop) :
    (∀ comment, isPurged notes issues comment = true → holds comment) ↔
      ∀ note ∈ notes, note.isWanted issues = true → holds note.comment := by
  constructor
  · exact fun hall note hnote hwanted => hall _ (isPurged_iff.2 ⟨note, hnote, hwanted, rfl⟩)
  · intro hall comment hpurged
    obtain ⟨note, hnote, hwanted, rfl⟩ := isPurged_iff.1 hpurged
    exact hall note hnote hwanted

section Purging

variable {issues : Option (List Int)} (htrimmed : ∀ opener ∈ grammar.openers, opener.IsTrimmed)
  (hnotes : grammar.annotations query source = .ok notes)

include hnotes in
/-- A purged comment is the comment of an annotation that the query finds. -/
theorem finds_of_isPurged (hpurged : isPurged notes issues comment = true) :
    ∃ note, grammar.Finds query source note ∧ note.comment = comment := by
  obtain ⟨note, hnote, -, hcomment⟩ := isPurged_iff.1 hpurged
  exact ⟨note, ⟨notes, hnotes, hnote⟩, hcomment⟩

include htrimmed hnotes in
/-- The newline behind a purged comment at the end of a shared line is left. -/
theorem covers_lineStop_eq_false (hpurged : isPurged notes issues comment = true)
    (htrails : comment.trailsLine source = true) :
    ByteRange.covers (selectedRanges source notes issues) (lineStop source comment.stop) =
      false := by
  have hstop := removalRange_stop_of_trailsLine htrails
  obtain ⟨note, hfinds, rfl⟩ := finds_of_isPurged hnotes hpurged
  rw [Bool.eq_false_iff, ne_eq, covers_selectedRanges_iff]
  rintro ⟨range, hselected, hcontains⟩
  obtain ⟨other, hother, rfl⟩ := finds_of_isPurged hnotes hselected
  rcases Nat.lt_trichotomy note.spanStart other.spanStart with hlt | heq | hgt
  · have happart := hfinds.stop_le hother (Or.inr rfl) hlt
    rw [removalRange_leaves_newline (hfinds.isFirm htrimmed) (hother.isFirm htrimmed)
      (Or.inl happart) hstop] at hcontains
    cases hcontains
  · rw [← hfinds.comment_eq_of_start hother heq, ByteRange.contains_iff, hstop] at hcontains
    exact Nat.lt_irrefl _ hcontains.2
  · have happart := hother.stop_le hfinds (Or.inr rfl) hgt
    rw [removalRange_leaves_newline (hfinds.isFirm htrimmed) (hother.isFirm htrimmed)
      (Or.inr happart) hstop] at hcontains
    cases hcontains

include hnotes in
/-- In front of the newline behind a purged comment the last byte that is left is the one in front
of the range of the comment. -/
theorem lastLeft?_lineStop (hpurged : isPurged notes issues comment = true)
    (htrails : comment.trailsLine source = true) :
    source.lastLeft? (ByteRange.covers (selectedRanges source notes issues))
        (lineStop source comment.stop) =
      source.lastLeft? (ByteRange.covers (selectedRanges source notes issues))
        (removalRange source comment).start := by
  have hstop := removalRange_stop_of_trailsLine htrails
  obtain ⟨note, hfinds, rfl⟩ := finds_of_isPurged hnotes hpurged
  have hinside : note.comment.stop ≤ source.length := hfinds.inside.1
  have hwhole := removalRange_comment hinside
  have hnonempty : note.comment.start ≤ note.comment.stop := by
    obtain ⟨-, offset, byte, hstart, hoffset, -⟩ := hfinds.inside
    omega
  refine Bytes.lastLeft?_of_gone (by omega) fun offset hfrom hoffset => ?_
  refine covers_selectedRanges_iff.2 ⟨note.comment, hpurged, ByteRange.contains_iff.2 ⟨hfrom, ?_⟩⟩
  rw [hstop]
  exact hoffset

include htrimmed hnotes in
/-- Purging keeps line endings exactly if a carriage return is left in front of each purged comment
at the end of a shared line. -/
theorem hasCrlfEndings_purge_iff (hcrlf : source.HasCrlfEndings) :
    (purge source notes issues).HasCrlfEndings ↔
      ∀ comment, isPurged notes issues comment = true → comment.trailsLine source = true →
        source.lastLeft? (ByteRange.covers (selectedRanges source notes issues))
          (removalRange source comment).start = some Bytes.carriageReturn := by
  rw [purge_of_query hnotes (List.Subset.refl _), Bytes.hasCrlfEndings_without_iff]
  constructor
  · intro hkept comment hpurged htrails
    obtain ⟨note, hfinds, rfl⟩ := finds_of_isPurged hnotes hpurged
    rw [← lastLeft?_lineStop hnotes hpurged htrails]
    exact hkept _ (newline_of_trailsLine hfinds.inside.1 htrails)
      (covers_lineStop_eq_false htrimmed hnotes hpurged htrails)
  · intro hleft offset hnewline hstays
    have hbefore := hcrlf offset (List.getElem?_eq_some_iff.1 hnewline).1 hnewline
    obtain ⟨before, rfl⟩ : ∃ before, offset = before + 1 := by
      refine Nat.exists_eq_succ_of_ne_zero ?_
      rintro rfl
      cases hbefore
    have hreturn : source[before]? = some Bytes.carriageReturn := by
      have hinside : before < source.length :=
        Nat.lt_of_succ_lt (List.getElem?_eq_some_iff.1 hnewline).1
      have hbyte := List.getElem?_eq_getElem hinside
      rwa [List.getLast?_take, if_neg (Nat.succ_ne_zero before), Nat.add_sub_cancel, hbyte,
        Option.some_or, ← hbyte] at hbefore
    cases hgone : ByteRange.covers (selectedRanges source notes issues) before with
    | false => exact Bytes.lastLeft?_succ_of_stays hreturn hgone
    | true =>
        -- The range that takes the carriage return stops in front of the newline.
        obtain ⟨comment, hpurged, hcontains⟩ := covers_selectedRanges_iff.1 hgone
        have hnot : ¬ (removalRange source comment).contains (before + 1) = true := fun hmore => by
          rw [covers_selectedRanges_iff.2 ⟨comment, hpurged, hmore⟩] at hstays
          cases hstays
        rw [ByteRange.contains_iff] at hcontains hnot
        have hstop : (removalRange source comment).stop = before + 1 := by
          omega
        obtain ⟨note, hfinds, rfl⟩ := finds_of_isPurged hnotes hpurged
        rcases removalRange_before_newline hfinds.inside.1 (hstop ▸ hnewline) with
          htrails | hagain
        · rw [← hleft _ hpurged htrails, ← lastLeft?_lineStop hnotes hpurged htrails,
            ← removalRange_stop_of_trailsLine htrails, hstop]
        · rw [hstop, Nat.add_sub_cancel, hreturn] at hagain
          cases hagain

include htrimmed hnotes in
/-- Where carriage returns only stand in front of newlines, none is left in front of a purged
comment at the end of a shared line. -/
theorem lastLeft?_ne_carriageReturn
    (hpaired : source.HasPairedReturns) (hpurged : isPurged notes issues comment = true) :
    source.lastLeft? (ByteRange.covers (selectedRanges source notes issues))
      (removalRange source comment).start ≠ some Bytes.carriageReturn := by
  intro hleft
  -- No range of a purged comment starts at a newline.
  have hstarts : ∀ {range offset}, isPurged notes issues range = true →
      source[offset]? = some Bytes.newline → offset ≤ (removalRange source range).start →
        offset < (removalRange source range).start := by
    intro range offset hselected hnewline hoffset
    obtain ⟨other, hother, rfl⟩ := finds_of_isPurged hnotes hselected
    refine lt_removalRange_start (hother.isFirm htrimmed)
      (Nat.le_trans hoffset (removalRange_start_le source _)) fun byte hbyte => ?_
    exact Option.some.inj (hbyte.symm.trans hnewline)
  have hinside : (removalRange source comment).start ≤ source.length := by
    obtain ⟨note, hfinds, rfl⟩ := finds_of_isPurged hnotes hpurged
    exact Nat.le_trans (removalRange_start_le source _) hfinds.start_le
  obtain ⟨place, hplace, hreturn, hstays, hlater⟩ := Bytes.exists_of_lastLeft? hinside hleft
  have hnewline := hpaired place (Nat.lt_of_lt_of_le hplace hinside) hreturn
  have hbefore := hstarts hpurged hnewline hplace
  -- So a range that takes the newline behind the carriage return takes the carriage return, too.
  obtain ⟨other, hother, hcontains⟩ :=
    covers_selectedRanges_iff.1 (hlater (place + 1) (Nat.lt_succ_self place) hbefore)
  rw [ByteRange.contains_iff] at hcontains
  have hfrom : (removalRange source other).start ≤ place := by
    refine Nat.le_of_not_lt fun hbehind => ?_
    exact absurd (hstarts hother hnewline hbehind) (Nat.not_lt.2 hcontains.1)
  rw [Bool.eq_false_iff, ne_eq, covers_selectedRanges_iff] at hstays
  exact hstays ⟨other, hother, ByteRange.contains_iff.2 ⟨hfrom, by omega⟩⟩

end Purging

/-- When purging keeps line endings.  If all newlines of a source stand behind carriage returns,
then so do those that purging leaves, exactly if a carriage return is left in front of each purged
comment at the end of a shared line.  If the source has carriage returns in front of newlines only,
this means that no purged comment is at the end of a shared line: all of them are alone on their
lines, have something behind them on the line, or end the source. -/
theorem purge_keeps_crlf (hgrammar : grammar ∈ Grammar.builtin) (hcrlf : source.HasCrlfEndings)
    (hnotes : grammar.annotations query source = .ok notes) (issues : Option (List Int)) :
    ((purge source notes issues).HasCrlfEndings ↔
      ∀ note ∈ notes, note.isWanted issues = true → note.comment.trailsLine source = true →
        source.lastLeft? (ByteRange.covers (selectedRanges source notes issues))
          (removalRange source note.comment).start = some Bytes.carriageReturn) ∧
    (source.HasPairedReturns →
      ((purge source notes issues).HasCrlfEndings ↔
        ∀ note ∈ notes, note.isWanted issues = true → note.comment.trailsLine source = false)) := by
  have htrimmed : ∀ opener ∈ grammar.openers, opener.IsTrimmed :=
    fun opener hopener => (Grammar.builtin_solid grammar hgrammar opener hopener).isTrimmed
  constructor
  · rw [hasCrlfEndings_purge_iff htrimmed hnotes hcrlf, forall_isPurged_iff]
  · intro hpaired
    rw [hasCrlfEndings_purge_iff htrimmed hnotes hcrlf]
    refine Iff.trans (forall₂_congr fun comment hpurged => ?_)
      (forall_isPurged_iff fun comment => comment.trailsLine source = false)
    have hnone := lastLeft?_ne_carriageReturn htrimmed hnotes hpaired hpurged
    rw [imp_iff_not hnone, Bool.not_eq_true]

/-- A comment inside a line, one that is alone on its line and one at the end of the source are
purged, and the line endings are kept.  They are also kept where a carriage return without a newline
happens to be left in front of a comment at the end of a line. -/
theorem purge_keeps_crlf_around :
    (∃ notes,
      Grammar.c.annotations ⟨.todo, .first, false⟩
          (Text.encode "a /* @TODO */ b;\r\n  // @TODO c\r\nx; // @TODO d") = .ok notes ∧
        (purge (Text.encode "a /* @TODO */ b;\r\n  // @TODO c\r\nx; // @TODO d") notes
          none).HasCrlfEndings) ∧
      ∃ notes,
        Grammar.c.annotations ⟨.todo, .first, false⟩
            (Text.encode "x\r/* @TODO */// @TODO\r\n") = .ok notes ∧
          (purge (Text.encode "x\r/* @TODO */// @TODO\r\n") notes none).HasCrlfEndings := by
  constructor
  · have hnotes : Grammar.c.annotations ⟨.todo, .first, false⟩
        (Text.encode "a /* @TODO */ b;\r\n  // @TODO c\r\nx; // @TODO d") =
          .ok [⟨.todo, "", ⟨5, 1, 6⟩, .blockComment, 2, 13, none⟩,
            ⟨.todo, "c", ⟨23, 2, 6⟩, .lineComment, 20, 31, none⟩,
            ⟨.todo, "d", ⟨38, 3, 7⟩, .lineComment, 35, 45, none⟩] := by
      decide +kernel
    refine ⟨_, hnotes, ?_⟩
    exact ((purge_keeps_crlf (by decide) (by decide +kernel) hnotes none).2 (by decide +kernel)).2
      (by decide +kernel)
  · have hnotes : Grammar.c.annotations ⟨.todo, .first, false⟩
        (Text.encode "x\r/* @TODO */// @TODO\r\n") =
          .ok [⟨.todo, "", ⟨5, 1, 6⟩, .blockComment, 2, 13, none⟩,
            ⟨.todo, "", ⟨16, 1, 17⟩, .lineComment, 13, 22, none⟩] := by
      decide +kernel
    refine ⟨_, hnotes, ?_⟩
    exact (purge_keeps_crlf (by decide) (by decide +kernel) hnotes none).1.2 (by decide +kernel)

/-- With a block comment at the end of a line the blanks behind it are removed, and the carriage
return of the line ending is one of them. -/
theorem trailing_comment_takes_return :
    ∃ note,
      Grammar.c.annotations ⟨.todo, .first, false⟩ (Text.encode "x; /* @TODO */\r\n") =
          .ok [note] ∧
        (Text.encode "x; /* @TODO */\r\n").HasCrlfEndings ∧
        purge (Text.encode "x; /* @TODO */\r\n") [note] none = Text.encode "x;\n" ∧
        ¬ (purge (Text.encode "x; /* @TODO */\r\n") [note] none).HasCrlfEndings := by
  have hpurge : purge (Text.encode "x; /* @TODO */\r\n")
      [⟨.todo, "", ⟨6, 1, 7⟩, .blockComment, 3, 14, none⟩] none = Text.encode "x;\n" := by
    rw [purge, removalRanges, List.mergeSort_of_pairwise (by decide +kernel)]
    decide +kernel
  refine ⟨_, by decide +kernel, by decide +kernel, hpurge, ?_⟩
  rw [hpurge]
  decide +kernel

end CommentMarkers
