import CommentMarkers.Proofs.References
import CommentMarkers.Proofs.Results
import CommentMarkers.Proofs.Slices

/-!
# The hits of a line

The search for a marker goes on behind a hit and skips the rest of it.  No hit is lost that way,
because a hit has no blanks: whatever overlaps it does not stand alone.

Main results:

- Theorem `IsHit.stop_le_start`: hits do not overlap, even those of different markers.
- Theorem `findsExactly`: the hits are the places where the marker stands alone, in order.
- Theorem `lineHits_append_blank`: a blank separates the hits in front of it from those behind it.
-/

namespace CommentMarkers

/-! ## Standing alone -/

/-- Holds where a marker stands alone in a text: blanks or the ends of the text surround it and
the reference to an issue that may follow it directly. -/
def StandsAlone (marker text : Bytes) (start : Nat) (issue : Option Nat) : Prop :=
  ∃ before reference behind, text = before ++ (marker ++ (reference ++ behind)) ∧
    start = before.length ∧ IsReference reference issue ∧
      isBoundary before.getLast? = true ∧ isBoundary behind.head? = true

/-- The hit where a marker stands alone in a text that begins at `index` behind the byte
`previous`. -/
def IsHit (marker : Bytes) (previous : Option UInt8) (index : Nat) (text : Bytes)
    (hit : LineHit) : Prop :=
  ∃ before reference behind, text = before ++ (marker ++ (reference ++ behind)) ∧
    IsReference reference hit.issue ∧ isBoundary (before.getLast?.or previous) = true ∧
      isBoundary behind.head? = true ∧ hit.start = index + before.length ∧
        hit.stop = hit.start + (marker.length + reference.length)

/-- The hit at the beginning of a text. -/
def IsFrontHit (marker : Bytes) (previous : Option UInt8) (index : Nat) (text : Bytes)
    (hit : LineHit) : Prop :=
  ∃ reference behind, text = marker ++ (reference ++ behind) ∧ IsReference reference hit.issue ∧
    isBoundary previous = true ∧ isBoundary behind.head? = true ∧ hit.start = index ∧
      hit.stop = index + (marker.length + reference.length)

/-- A hit in a whole line is a place where the marker stands alone. -/
theorem standsAlone_iff {marker text : Bytes} {start : Nat} {issue : Option Nat} :
    StandsAlone marker text start issue ↔
      ∃ hit, IsHit marker none 0 text hit ∧ hit.start = start ∧ hit.issue = issue := by
  constructor
  · rintro ⟨before, reference, behind, htext, hstart, hreference, hbefore, hbehind⟩
    refine ⟨⟨start, start + (marker.length + reference.length), issue⟩, ?_, rfl, rfl⟩
    refine ⟨before, reference, behind, htext, hreference, ?_, hbehind, ?_, rfl⟩
    · rw [Option.or_none]
      exact hbefore
    · rw [Nat.zero_add]
      exact hstart
  · rintro ⟨hit, ⟨before, reference, behind, htext, hreference, hbefore, hbehind, hstart, -⟩,
      rfl, rfl⟩
    refine ⟨before, reference, behind, htext, ?_, hreference, ?_, hbehind⟩
    · rw [hstart, Nat.zero_add]
    · rw [Option.or_none] at hbefore
      exact hbefore

variable {marker : Bytes} {previous : Option UInt8} {index : Nat} {hit : LineHit}

/-- A hit in a line begins inside the line. -/
theorem IsHit.start_lt {text : Bytes} (hne : marker ≠ [])
    (hhit : IsHit marker previous 0 text hit) : hit.start < text.length := by
  rcases hhit with ⟨before, reference, behind, rfl, -, -, -, hstart, -⟩
  have hpos := List.length_pos_iff.2 hne
  simp only [List.length_append]
  omega

/-- A hit in a line ends inside the line. -/
theorem IsHit.stop_le {text : Bytes} (hhit : IsHit marker previous 0 text hit) :
    hit.stop ≤ text.length := by
  rcases hhit with ⟨before, reference, behind, rfl, -, -, -, hstart, hstop⟩
  simp only [List.length_append]
  omega

/-- A hit does not begin inside another one, even of a different marker, because a hit has no
blanks. -/
theorem IsHit.stop_le_start {other text : Bytes} {second : LineHit} (hsolid : Solid marker)
    (hfirst : IsHit marker none 0 text hit) (hsecond : IsHit other none 0 text second)
    (hless : hit.start < second.start) : hit.stop ≤ second.start := by
  obtain ⟨before, reference, behind, htext, hreference, -, -, hstart, hstop⟩ := hfirst
  obtain ⟨front, otherReference, back, hother, -, hblank, -, hotherStart, -⟩ := hsecond
  rw [Nat.zero_add] at hstart hotherStart
  refine Nat.le_of_not_lt fun hinside => ?_
  -- The byte in front of the second hit would be a byte of the first one.
  have hlast : text[front.length - 1]? = front.getLast? := by
    rw [hother, List.getElem?_append_left (by omega), List.getLast?_eq_getElem?]
  have hword : (marker ++ reference).length = marker.length + reference.length :=
    List.length_append
  have hbyte : text[front.length - 1]? =
      (marker ++ reference)[front.length - 1 - before.length]? := by
    rw [htext, List.getElem?_append_right (by omega), ← List.append_assoc,
      List.getElem?_append_left (by omega)]
  have hmem := List.getElem?_eq_getElem
    (show front.length - 1 - before.length < (marker ++ reference).length by omega)
  rw [Option.or_none, ← hlast, hbyte, hmem, isBoundary, Option.all_some,
    (hsolid.append hreference.solid) _ (List.getElem_mem _)] at hblank
  cases hblank

/-- A hit is at the beginning of a text or behind its first byte. -/
theorem isHit_cons_iff {byte : UInt8} {rest : Bytes} :
    IsHit marker previous index (byte :: rest) hit ↔
      IsFrontHit marker previous index (byte :: rest) hit ∨
        IsHit marker (some byte) (index + 1) rest hit := by
  constructor
  · rintro ⟨before, reference, behind, htext, hreference, hbefore, hbehind, hstart, hstop⟩
    cases before with
    | nil =>
        refine Or.inl ⟨reference, behind, htext, hreference, hbefore, hbehind, hstart, ?_⟩
        rw [hstop, hstart]
        rfl
    | cons first before =>
        rcases List.cons.inj htext with ⟨rfl, hrest⟩
        refine Or.inr ⟨before, reference, behind, hrest, hreference, ?_, hbehind, ?_, hstop⟩
        · cases before with
          | nil => exact hbefore
          | cons second before => rwa [List.getLast?_cons_cons] at hbefore
        · rw [hstart, List.length_cons]
          omega
  · rintro (⟨reference, behind, htext, hreference, hprevious, hbehind, hstart, hstop⟩ |
      ⟨before, reference, behind, htext, hreference, hbefore, hbehind, hstart, hstop⟩)
    · refine ⟨[], reference, behind, htext, hreference, hprevious, hbehind, hstart, ?_⟩
      rw [hstop, hstart]
    · refine ⟨byte :: before, reference, behind, ?_, hreference, ?_, hbehind, ?_, hstop⟩
      · rw [htext]
        rfl
      · cases before with
        | nil => exact hbefore
        | cons second before => rwa [List.getLast?_cons_cons]
      · rw [hstart, List.length_cons]
        omega

/-- Behind a solid word that is not empty, hits begin where they begin in the rest of the text. -/
theorem isHit_append_solid {word behind : Bytes} (hsolid : Solid word) (hne : word ≠ []) :
    IsHit marker previous index (word ++ behind) hit ↔
      IsFrontHit marker previous index (word ++ behind) hit ∨
        IsHit marker word.getLast? (index + word.length) behind hit := by
  induction word generalizing previous index with
  | nil => exact absurd rfl hne
  | cons byte word ih =>
      have hbyte : isBoundary (some byte) = false := hsolid byte List.mem_cons_self
      rw [List.cons_append, isHit_cons_iff]
      cases word with
      | nil => rfl
      | cons second word =>
          have hrest : Solid (second :: word) := fun other hother =>
            hsolid other (List.mem_cons_of_mem _ hother)
          have hinside : ¬ IsFrontHit marker (some byte) (index + 1) (second :: word ++ behind)
              hit := by
            rintro ⟨-, -, -, -, hprevious, -⟩
            rw [hbyte] at hprevious
            cases hprevious
          rw [ih hrest (List.cons_ne_nil _ _), or_iff_right hinside, List.getLast?_cons_cons,
            Nat.add_assoc, Nat.add_comm 1, List.length_cons (a := byte)]

/-! ## One step of the search -/

/-- Where the marker does not begin, the search goes on at the next byte. -/
theorem lineHits_of_no_marker {byte : UInt8} {rest : Bytes}
    (hmarker : ¬ marker <+: byte :: rest) :
    lineHits marker previous index (byte :: rest) =
      lineHits marker (some byte) (index + 1) rest := by
  rw [lineHits, if_neg (fun hstarts => hmarker (List.isPrefixOf_iff_prefix.1 hstarts))]

/-- A reference behind the marker that cannot be read ends the search. -/
theorem lineHits_of_error {after : Bytes} {fault : IssueTooLong} (hne : marker ≠ [])
    (hread : IssueReference.read after = .error fault) :
    lineHits marker previous index (marker ++ after) = .error fault := by
  rcases List.exists_cons_of_ne_nil (List.append_ne_nil_of_left_ne_nil hne after) with
    ⟨byte, rest, htext⟩
  have hstarts : marker.isPrefixOf (byte :: rest) = true := by
    rw [← htext]
    exact List.isPrefixOf_iff_prefix.2 (List.prefix_append _ _)
  rw [htext, lineHits, if_pos hstarts, ← htext, List.drop_left, hread]
  rfl

variable {reference behind : Bytes} {found : Option IssueReference}

/-- The step at a marker whose reference is read. -/
theorem lineHits_of_read (previous : Option UInt8) (index : Nat) {byte : UInt8} {rest : Bytes}
    (hne : marker ≠ [])
    (htext : byte :: rest = marker ++ (reference ++ behind))
    (hread : IssueReference.read (reference ++ behind) = .ok found)
    (hlength : reference.length = (found.map (·.length)).getD 0) :
    lineHits marker previous index (byte :: rest) =
      if isBoundary previous && isBoundary behind.head? then
        (lineHits marker (marker ++ reference).getLast?
          (index + (marker.length + reference.length)) behind).map
            (⟨index, index + (marker.length + reference.length), found.map (·.number)⟩ :: ·)
      else lineHits marker (some byte) (index + 1) rest := by
  have hstarts : marker.isPrefixOf (byte :: rest) = true := by
    rw [htext]
    exact List.isPrefixOf_iff_prefix.2 (List.prefix_append _ _)
  have hlast : (byte :: rest).take (marker.length + reference.length) = marker ++ reference := by
    rw [htext, ← List.append_assoc, ← List.length_append, List.take_left]
  have hbehind : rest.drop (marker.length + reference.length - 1) = behind := by
    have hpos := List.length_pos_iff.2 hne
    rw [← drop_max_one byte rest, Nat.max_eq_right (by omega), htext, ← List.append_assoc,
      ← List.length_append, List.drop_left]
  have hafter : (byte :: rest).drop marker.length = reference ++ behind := by
    rw [htext, List.drop_left]
  rw [lineHits, if_pos hstarts, hafter, hread]
  simp only [ok_bind, bind_return]
  rw [← hlength, hbehind, hlast]

/-! ## Exactness -/

/-- A reference that was read has no more digits than are read. -/
theorem length_le_of_read {text digits : Bytes} (hread : IssueReference.read text = .ok found)
    (hdigits : IssueReference.digits? text = some digits) :
    digits.length ≤ IssueTooLong.limit := by
  rw [IssueReference.read, hdigits] at hread
  simp only at hread
  split at hread
  · cases hread
  · rename_i hlimit
    exact Nat.not_lt.1 hlimit

/-- A reference whose digits are few enough is read. -/
theorem exists_read_eq_ok {text : Bytes}
    (hshort : ∀ digits, IssueReference.digits? text = some digits →
      digits.length ≤ IssueTooLong.limit) :
    ∃ found, IssueReference.read text = .ok found := by
  unfold IssueReference.read
  cases hdigits : IssueReference.digits? text with
  | none => exact ⟨none, rfl⟩
  | some digits =>
      simp only
      rw [if_neg (Nat.not_lt.2 (hshort digits hdigits))]
      exact ⟨_, rfl⟩

/-- There is at most one hit at the beginning of a text: the one whose reference is read there. -/
theorem isFrontHit_iff_of_read (marker : Bytes) (previous : Option UInt8) (index : Nat)
    (hit : LineHit) (hread : IssueReference.read (reference ++ behind) = .ok found)
    (hreference : IsReference reference (found.map (·.number)))
    (hlength : reference.length = (found.map (·.length)).getD 0) :
    IsFrontHit marker previous index (marker ++ (reference ++ behind)) hit ↔
      (isBoundary previous = true ∧ isBoundary behind.head? = true) ∧
        hit = ⟨index, index + (marker.length + reference.length), found.map (·.number)⟩ := by
  rcases hit with ⟨start, stop, issue⟩
  constructor
  · rintro ⟨other, rest, htext, hother, hprevious, hrest, hstart, hstop⟩
    have hafter := List.append_cancel_left htext
    have hagain := hother.read_eq hrest (by
      rw [← hafter]
      exact fun digits => length_le_of_read hread)
    rw [← hafter, hread] at hagain
    have hfound := Except.ok.inj hagain
    have hsame : reference.length = other.length := by
      rw [hlength, hfound]
      cases hother with
      | absent => rfl
      | present digits hdigits => rfl
    rcases List.append_inj hafter hsame with ⟨rfl, rfl⟩
    refine ⟨⟨hprevious, hrest⟩, ?_⟩
    have hissue : issue = found.map (·.number) := by
      rw [hfound]
      cases issue with
      | none => rfl
      | some issue => rfl
    rw [hissue, ← hstop, ← hstart]
  · rintro ⟨⟨hprevious, hbehind⟩, hsame⟩
    rcases LineHit.mk.inj hsame with ⟨rfl, rfl, rfl⟩
    exact ⟨reference, behind, rfl, hreference, hprevious, hbehind, rfl, rfl⟩

/-- Holds if no marker in the text is directly followed by a reference with more digits than are
read. -/
def HasShortReferences (marker text : Bytes) : Prop :=
  ∀ before digits behind,
    text = before ++ (marker ++
      (IssueReference.opening ++ (digits ++ IssueReference.closing :: behind))) →
    (∀ digit ∈ digits, Bytes.isDigit digit) → digits.length ≤ IssueTooLong.limit

/-- The digits behind a marker in such a text are few enough to be read. -/
theorem HasShortReferences.length_le {before after digits : Bytes}
    (hshort : HasShortReferences marker (before ++ (marker ++ after)))
    (hdigits : IssueReference.digits? after = some digits) :
    digits.length ≤ IssueTooLong.limit := by
  rcases digits_eq_some_iff.1 hdigits with ⟨-, hall, behind, rfl⟩
  exact hshort before digits behind rfl hall

/-- The references in a part of such a text are short, too. -/
theorem HasShortReferences.of_middle {front text back : Bytes}
    (hshort : HasShortReferences marker (front ++ (text ++ back))) :
    HasShortReferences marker text := by
  rintro before digits behind rfl hall
  exact hshort (front ++ before) digits (behind ++ back) (by simp) hall

/-- The references behind the front of such a text are short, too. -/
theorem HasShortReferences.of_append (front : Bytes) {back : Bytes}
    (hshort : HasShortReferences marker (front ++ back)) : HasShortReferences marker back := by
  rw [← List.append_nil back] at hshort
  exact hshort.of_middle

/-- A text that is short itself has short references only. -/
theorem hasShortReferences_of_length_le {text : Bytes}
    (hlength : text.length ≤ IssueTooLong.limit) : HasShortReferences marker text := by
  rintro before digits behind rfl -
  simp only [List.length_append, List.length_cons] at hlength
  omega

/-- A search in such a text succeeds. -/
theorem exists_lineHits_eq_ok (previous : Option UInt8) (index : Nat) {text : Bytes}
    (hne : marker ≠ []) (hshort : HasShortReferences marker text) :
    ∃ hits, lineHits marker previous index text = .ok hits := by
  induction hsize : text.length using Nat.strongRecOn generalizing text previous index with
  | ind size ih =>
      cases text with
      | nil => exact ⟨[], by rw [lineHits]⟩
      | cons byte rest =>
          have hnext : ∃ hits, lineHits marker (some byte) (index + 1) rest = .ok hits := by
            refine ih rest.length ?_ _ _ ?_ rfl
            · rw [← hsize, List.length_cons]
              exact Nat.lt_succ_self _
            · exact HasShortReferences.of_append [byte] hshort
          by_cases hmarker : marker <+: byte :: rest
          · rcases hmarker with ⟨after, hafter⟩
            have hfront : HasShortReferences marker ([] ++ (marker ++ after)) := by
              rw [hafter]
              exact hshort
            obtain ⟨found, hread⟩ := exists_read_eq_ok fun digits => hfront.length_le
            rcases IsReference.of_read hread with ⟨reference, behind, rfl, -, hlength⟩
            rw [lineHits_of_read previous index hne hafter.symm hread hlength]
            split
            · rw [← hafter, ← List.append_assoc] at hshort
              have hcount := congrArg List.length hafter
              have hpos := List.length_pos_iff.2 hne
              rw [List.length_append, List.length_append] at hcount
              obtain ⟨hits, hhits⟩ := ih behind.length (by omega) (marker ++ reference).getLast?
                (index + (marker.length + reference.length)) (HasShortReferences.of_append _ hshort)
                rfl
              exact ⟨_, by rw [hhits]; rfl⟩
            · exact hnext
          · rw [lineHits_of_no_marker hmarker]
            exact hnext

/-- Holds if a search that succeeds finds exactly the hits of a text, in their order. -/
def FindsExactly (marker : Bytes) (previous : Option UInt8) (index : Nat) (text : Bytes) : Prop :=
  ∀ hits, lineHits marker previous index text = .ok hits →
    hits.Pairwise (·.start < ·.start) ∧ ∀ hit, hit ∈ hits ↔ IsHit marker previous index text hit

/-- There is nothing to be found in the empty text. -/
theorem findsExactly_nil (hne : marker ≠ []) : FindsExactly marker previous index [] := by
  intro hits hhits
  rw [lineHits] at hhits
  cases hhits
  refine ⟨List.Pairwise.nil, fun hit => ?_⟩
  constructor
  · intro hhit
    cases hhit
  · rintro ⟨before, reference, behind, htext, -⟩
    have hnil := (List.append_eq_nil_iff.1 htext.symm).2
    exact absurd (List.append_eq_nil_iff.1 hnil).1 hne

/-- Where no hit begins, the search may go on at the next byte. -/
theorem FindsExactly.skip {byte : UInt8} {rest : Bytes}
    (hrest : FindsExactly marker (some byte) (index + 1) rest)
    (hfront : ∀ hit, ¬ IsFrontHit marker previous index (byte :: rest) hit)
    (hstep : lineHits marker previous index (byte :: rest) =
      lineHits marker (some byte) (index + 1) rest) :
    FindsExactly marker previous index (byte :: rest) := by
  intro hits hhits
  rw [hstep] at hhits
  rcases hrest hits hhits with ⟨hsorted, hexact⟩
  refine ⟨hsorted, fun hit => ?_⟩
  rw [hexact, isHit_cons_iff, or_iff_right (hfront hit)]

/-- Where a hit begins, the search may go on behind the whole word. -/
theorem FindsExactly.take {word : Bytes} {first : LineHit} (hsolid : Solid word) (hne : word ≠ [])
    (hbehind : FindsExactly marker word.getLast? (index + word.length) behind)
    (hfront : ∀ hit, IsFrontHit marker previous index (word ++ behind) hit ↔ hit = first)
    (hstep : lineHits marker previous index (word ++ behind) =
      (lineHits marker word.getLast? (index + word.length) behind).map (first :: ·)) :
    FindsExactly marker previous index (word ++ behind) := by
  intro hits hhits
  rw [hstep] at hhits
  rcases map_eq_ok_iff.1 hhits with ⟨more, hmore, rfl⟩
  rcases hbehind more hmore with ⟨hsorted, hexact⟩
  constructor
  · refine List.Pairwise.cons ?_ hsorted
    intro hit hhit
    rcases (hfront first).2 rfl with ⟨-, -, -, -, -, -, hfirst, -⟩
    rcases (hexact hit).1 hhit with ⟨before, -, -, -, -, -, -, hstart, -⟩
    have hpos := List.length_pos_iff.2 hne
    omega
  · intro hit
    rw [List.mem_cons, hexact, isHit_append_solid hsolid hne, hfront]

/-- The hits that are found are exactly those of the text, and they are found in order. -/
theorem findsExactly (previous : Option UInt8) (index : Nat) (text : Bytes) (hne : marker ≠ [])
    (hsolid : Solid marker) : FindsExactly marker previous index text := by
  induction hsize : text.length using Nat.strongRecOn generalizing text previous index with
  | ind size ih =>
      cases text with
      | nil => exact findsExactly_nil hne
      | cons byte rest =>
          have hnext : FindsExactly marker (some byte) (index + 1) rest := by
            refine ih rest.length ?_ _ _ _ rfl
            rw [← hsize, List.length_cons]
            exact Nat.lt_succ_self _
          by_cases hmarker : marker <+: byte :: rest
          · rcases hmarker with ⟨after, hafter⟩
            cases hread : IssueReference.read after with
            | error fault =>
                intro hits hhits
                rw [← hafter, lineHits_of_error hne hread] at hhits
                cases hhits
            | ok found =>
                rcases IsReference.of_read hread with ⟨reference, behind, rfl, hreference, hlength⟩
                have hfront := fun hit =>
                  isFrontHit_iff_of_read marker previous index hit hread hreference hlength
                have hstep := lineHits_of_read previous index hne hafter.symm hread hlength
                by_cases halone : isBoundary previous = true ∧ isBoundary behind.head? = true
                · rw [if_pos (by rwa [Bool.and_eq_true]), ← hafter, ← List.append_assoc,
                    ← List.length_append] at hstep
                  rw [← List.append_assoc] at hafter
                  rw [← hafter]
                  refine (ih behind.length ?_ _ _ _ rfl).take (hsolid.append hreference.solid)
                    (List.append_ne_nil_of_left_ne_nil hne _) ?_ hstep
                  · have hpos := List.length_pos_iff.2 hne
                    rw [← hsize, ← hafter, List.length_append, List.length_append]
                    omega
                  · intro hit
                    rw [List.append_assoc, hfront, and_iff_right halone, List.length_append]
                · refine hnext.skip ?_ ?_
                  · intro hit hhit
                    rw [← hafter] at hhit
                    exact halone ((hfront hit).1 hhit).1
                  · rw [hstep, if_neg (by rwa [Bool.and_eq_true])]
          · refine hnext.skip ?_ (lineHits_of_no_marker hmarker)
            rintro hit ⟨reference, behind, htext, -⟩
            exact hmarker ⟨reference ++ behind, htext.symm⟩

/-! ## Words -/

variable {blank : UInt8} {front : Bytes} {back : Bytes}

/-- A solid beginning of a text ends in front of its first blank. -/
theorem Solid.prefix_of_append_blank (front back : Bytes) {word : Bytes} (hsolid : Solid word)
    (hblank : Bytes.isBlank blank = true) (hstarts : word <+: front ++ blank :: back) :
    word <+: front := by
  rcases hstarts with ⟨behind, hbehind⟩
  rcases List.append_eq_append_iff.1 hbehind with ⟨more, hfront, -⟩ | ⟨more, hword, hmore⟩
  · exact ⟨more, hfront.symm⟩
  · cases more with
    | nil =>
        rw [List.append_nil] at hword
        exact ⟨[], by rw [hword, List.append_nil]⟩
    | cons byte more =>
        rcases List.cons.inj hmore with ⟨rfl, -⟩
        have hinside := hsolid blank (by rw [hword]; simp)
        rw [hblank] at hinside
        cases hinside

/-- A blank and what is behind it have no part in the reference in front of it. -/
theorem read_append_blank (hblank : Bytes.isBlank blank = true) :
    IssueReference.read (front ++ blank :: back) = IssueReference.read front := by
  have hdigits : IssueReference.digits? (front ++ blank :: back) =
      IssueReference.digits? front := by
    apply Option.ext
    intro digits
    rw [digits_eq_some_iff, digits_eq_some_iff]
    constructor
    · rintro ⟨hne, hall, behind, htext⟩
      have hsolid := (IsReference.present digits hne hall).solid
      have hstarts := hsolid.prefix_of_append_blank front back hblank
        ⟨behind, by rw [htext]; simp⟩
      rcases hstarts with ⟨more, hmore⟩
      exact ⟨hne, hall, more, by rw [← hmore]; simp⟩
    · rintro ⟨hne, hall, behind, rfl⟩
      exact ⟨hne, hall, behind ++ blank :: back, by simp⟩
  unfold IssueReference.read
  rw [hdigits]

/-- The first byte of a text leaves a marker alone also if it is the blank behind the text. -/
theorem isBoundary_head_append (hblank : Bytes.isBlank blank = true) :
    isBoundary (front ++ blank :: back).head? = isBoundary front.head? := by
  cases front with
  | nil => exact hblank
  | cons byte front => rfl

/-- A hit in front of two lists of hits is one in front of the first of them. -/
theorem map_cons_bind_append (hit : LineHit) (first second : Except IssueTooLong (List LineHit)) :
    (first >>= fun front => second >>= fun back => return front ++ back).map (hit :: ·) =
      first.map (hit :: ·) >>= fun front => second >>= fun back => return front ++ back := by
  cases first with
  | error fault => rfl
  | ok front =>
      cases second with
      | error fault => rfl
      | ok back => rfl

/-- A blank separates the hits in front of it from those behind it. -/
theorem lineHits_append_blank (hne : marker ≠ []) (hsolid : Solid marker)
    (hblank : Bytes.isBlank blank = true) :
    lineHits marker previous index (front ++ blank :: back) = do
      let first ← lineHits marker previous index front
      let second ← lineHits marker (some blank) (index + (front.length + 1)) back
      return first ++ second := by
  induction hsize : front.length using Nat.strongRecOn generalizing front previous index with
  | ind size ih =>
      cases front with
      | nil =>
          have hmarker : ¬ marker <+: blank :: back := by
            intro hstarts
            exact hne (List.prefix_nil.1 (hsolid.prefix_of_append_blank [] back hblank hstarts))
          rw [List.nil_append, lineHits_of_no_marker hmarker, lineHits, ok_bind, ← hsize]
          simp
      | cons byte rest =>
          have hnext := @ih rest.length (by rw [← hsize]; exact Nat.lt_succ_self _) (some byte)
            (index + 1) rest rfl
          rw [← hsize, List.length_cons]
          rw [show index + 1 + (rest.length + 1) = index + (rest.length + 1 + 1) by omega] at hnext
          by_cases hmarker : marker <+: byte :: rest
          · rcases hmarker with ⟨after, hafter⟩
            have hwhole : byte :: (rest ++ blank :: back) = marker ++ (after ++ blank :: back) := by
              rw [← List.append_assoc, hafter, List.cons_append]
            cases hread : IssueReference.read after with
            | error fault =>
                rw [List.cons_append, hwhole, ← hafter, lineHits_of_error hne hread,
                  lineHits_of_error hne (by rw [read_append_blank hblank, hread]), error_bind]
            | ok found =>
                rcases IsReference.of_read hread with ⟨reference, behind, rfl, hreference, hlength⟩
                rw [List.append_assoc] at hwhole
                rw [List.cons_append, lineHits_of_read _ _ hne hafter.symm hread hlength,
                  lineHits_of_read _ _ hne hwhole
                    (by rw [← List.append_assoc, read_append_blank hblank, hread]) hlength,
                  isBoundary_head_append hblank, hnext]
                split
                · have hcount := congrArg List.length hafter
                  have hpos := List.length_pos_iff.2 hne
                  rw [List.length_append, List.length_append, List.length_cons] at hcount
                  rw [ih behind.length (by rw [← hsize, List.length_cons]; omega) rfl,
                    map_cons_bind_append]
                  rw [show index + (marker.length + reference.length) + (behind.length + 1) =
                    index + (rest.length + 1 + 1) by omega]
                · rfl
          · have hwhole : ¬ marker <+: byte :: (rest ++ blank :: back) := fun hstarts =>
              hmarker (hsolid.prefix_of_append_blank (byte :: rest) back hblank hstarts)
            rw [List.cons_append, lineHits_of_no_marker hwhole, lineHits_of_no_marker hmarker,
              hnext]

/-! ## A marker and what is around it -/

/-- A hit in a text that has more bytes in front of it. -/
def LineHit.moved (hit : LineHit) (count : Nat) : LineHit :=
  { hit with start := hit.start + count, stop := hit.stop + count }

/-- The hits of a text that begins further on are moved. -/
theorem lineHits_moved (previous : Option UInt8) (index count : Nat) (text : Bytes)
    (hne : marker ≠ []) :
    lineHits marker previous (index + count) text =
      (lineHits marker previous index text).map (·.map (·.moved count)) := by
  induction hsize : text.length using Nat.strongRecOn generalizing text previous index with
  | ind size ih =>
      cases text with
      | nil =>
          rw [lineHits, lineHits]
          rfl
      | cons byte rest =>
          have hnext := ih rest.length (by rw [← hsize]; exact Nat.lt_succ_self _) (some byte)
            (index + 1) rest rfl
          rw [Nat.add_right_comm] at hnext
          by_cases hmarker : marker <+: byte :: rest
          · rcases hmarker with ⟨after, hafter⟩
            cases hread : IssueReference.read after with
            | error fault =>
                rw [← hafter, lineHits_of_error hne hread, lineHits_of_error hne hread]
                rfl
            | ok found =>
                rcases IsReference.of_read hread with ⟨reference, behind, rfl, -, hlength⟩
                rw [lineHits_of_read _ _ hne hafter.symm hread hlength,
                  lineHits_of_read _ _ hne hafter.symm hread hlength, hnext]
                split
                · have hcount := congrArg List.length hafter
                  have hpos := List.length_pos_iff.2 hne
                  rw [List.length_append, List.length_append] at hcount
                  have hmore := ih behind.length (by omega) (marker ++ reference).getLast?
                    (index + (marker.length + reference.length)) behind rfl
                  rw [Nat.add_right_comm] at hmore
                  rw [hmore]
                  cases lineHits marker (marker ++ reference).getLast?
                      (index + (marker.length + reference.length)) behind with
                  | error fault => rfl
                  | ok hits =>
                      apply congrArg Except.ok
                      simp only [List.map_cons, LineHit.moved, List.cons.injEq, LineHit.mk.injEq,
                        and_true, true_and]
                      omega
                · rfl
          · rw [lineHits_of_no_marker hmarker, lineHits_of_no_marker hmarker, hnext]

/-- Only whether the byte in front of a text leaves a marker alone makes a difference. -/
theorem lineHits_congr_previous {other : Option UInt8} (index : Nat) (text : Bytes)
    (hsame : isBoundary previous = isBoundary other) :
    lineHits marker previous index text = lineHits marker other index text := by
  cases text with
  | nil => rw [lineHits, lineHits]
  | cons byte rest => rw [lineHits, lineHits, hsame]

/-- What is in front of a text that begins with a blank makes no difference. -/
theorem lineHits_of_isBoundary {behind : Bytes} (index : Nat) (hne : marker ≠ [])
    (hsolid : Solid marker) (hbehind : isBoundary behind.head? = true) :
    lineHits marker previous index behind = lineHits marker none index behind := by
  cases behind with
  | nil => rw [lineHits, lineHits]
  | cons blank behind =>
      have hmarker : ¬ marker <+: blank :: behind := by
        intro hstarts
        exact hne (List.prefix_nil.1 (hsolid.prefix_of_append_blank [] behind hbehind hstarts))
      rw [lineHits_of_no_marker hmarker, lineHits_of_no_marker hmarker]

/-- The hits behind a text that leaves a marker alone are found apart from those in the text. -/
theorem lineHits_append_of_isBoundary (hne : marker ≠ []) (hsolid : Solid marker)
    (hfront : isBoundary front.getLast? = true) (text : Bytes) :
    lineHits marker none 0 (front ++ text) = do
      let first ← lineHits marker none 0 front
      let second ← lineHits marker none front.length text
      return first ++ second := by
  rcases List.eq_nil_or_concat front with rfl | ⟨front, blank, rfl⟩
  · rw [List.nil_append, lineHits.eq_def marker none 0 [], ok_bind, List.length_nil]
    cases lineHits marker none 0 text <;> rfl
  · rw [List.concat_eq_append] at hfront ⊢
    rw [List.getLast?_concat] at hfront
    have hboundary : isBoundary (some blank) = isBoundary none := hfront
    rw [List.append_assoc, List.singleton_append, lineHits_append_blank hne hsolid hfront,
      lineHits_append_blank hne hsolid hfront, lineHits_congr_previous _ text hboundary,
      lineHits.eq_def marker (some blank) _ [], List.length_append, Nat.zero_add]
    cases lineHits marker none 0 front with
    | error fault => rfl
    | ok first =>
        rw [ok_bind, ok_bind, ok_bind]
        simp

/-- A marker that stands alone in a line is a hit between those in front of it and those behind
it. -/
theorem lineHits_around {reference behind : Bytes} {issue : Option Nat} (hne : marker ≠ [])
    (hsolid : Solid marker) (hreference : IsReference reference issue)
    (hshort : ∀ digits, IssueReference.digits? (reference ++ behind) = some digits →
      digits.length ≤ IssueTooLong.limit)
    (hfront : isBoundary front.getLast? = true) (hbehind : isBoundary behind.head? = true) :
    lineHits marker none 0 (front ++ (marker ++ (reference ++ behind))) = do
      let first ← lineHits marker none 0 front
      let second ← lineHits marker none 0 behind
      return first ++
        ⟨front.length, front.length + (marker.length + reference.length), issue⟩ ::
          second.map (·.moved (front.length + (marker.length + reference.length))) := by
  obtain ⟨byte, rest, htext⟩ := List.exists_cons_of_ne_nil
    (List.append_ne_nil_of_left_ne_nil hne (reference ++ behind))
  have hread := hreference.read_eq hbehind hshort
  have hlength : reference.length =
      ((issue.map fun number => IssueReference.mk number reference.length).map
        (·.length)).getD 0 := by
    cases hreference with
    | absent => rfl
    | present digits hdigits => rfl
  have hissue : (issue.map fun number => IssueReference.mk number reference.length).map
      (·.number) = issue := by
    cases issue <;> rfl
  have hmoved := lineHits_moved none 0 (front.length + (marker.length + reference.length)) behind
    hne
  rw [Nat.zero_add] at hmoved
  rw [lineHits_append_of_isBoundary hne hsolid hfront, htext,
    lineHits_of_read none front.length hne htext.symm hread hlength, hissue,
    if_pos (by rw [hbehind]; rfl), lineHits_of_isBoundary _ hne hsolid hbehind, hmoved]
  cases lineHits marker none 0 front with
  | error fault => rfl
  | ok first =>
      cases lineHits marker none 0 behind with
      | error fault => rfl
      | ok second => rfl

/-- A hit with a reference to an issue behind it. -/
def LineHit.reported (hit : LineHit) (length number : Nat) : LineHit :=
  { hit with stop := hit.stop + length, issue := some number }

/-- A reference behind a marker without one becomes a part of its hit, and moves the hits behind
it. -/
theorem lineHits_insert {reference behind : Bytes} {number : Nat} {hits : List LineHit}
    (hne : marker ≠ []) (hsolid : Solid marker) (hreference : IsReference reference (some number))
    (hshort : reference.length ≤ IssueTooLong.limit + 3)
    (hfront : isBoundary front.getLast? = true) (hbehind : isBoundary behind.head? = true)
    (hhits : lineHits marker none 0 (front ++ (marker ++ behind)) = .ok hits) :
    ∃ first second, hits = first ++
        ⟨front.length, front.length + marker.length, none⟩ :: second ∧
      (∀ hit ∈ second, front.length + marker.length ≤ hit.start) ∧
      lineHits marker none 0 (front ++ (marker ++ (reference ++ behind))) =
        .ok (first ++ LineHit.reported ⟨front.length, front.length + marker.length, none⟩
          reference.length number :: second.map (·.moved reference.length)) := by
  have hbefore := lineHits_around hne hsolid .absent
    (fun digits hdigits => by
      rw [List.nil_append, digits_eq_none_of_isBoundary hbehind] at hdigits
      cases hdigits) hfront hbehind
  have hafter := lineHits_around hne hsolid hreference
    (fun digits hdigits => by
      have hlength := hreference.length_digits hdigits
      omega) hfront hbehind
  rw [List.nil_append, hhits] at hbefore
  rcases bind_eq_ok_iff.1 hbefore.symm with ⟨first, hfirst, hbind⟩
  rcases bind_eq_ok_iff.1 hbind with ⟨second, hsecond, hsame⟩
  rw [hfirst, hsecond] at hafter
  cases hsame
  refine ⟨first, second.map (·.moved (front.length + marker.length)), rfl, ?_, ?_⟩
  · intro hit hhit
    rcases List.mem_map.1 hhit with ⟨inner, -, rfl⟩
    exact Nat.le_add_left _ _
  have hmoved : ∀ hit : LineHit,
      hit.moved (front.length + (marker.length + reference.length)) =
        (hit.moved (front.length + marker.length)).moved reference.length := by
    intro hit
    simp only [LineHit.moved, Nat.add_assoc]
  rw [hafter, List.map_map, ok_bind, ok_bind, ← Nat.add_assoc]
  refine congrArg Except.ok (congrArg _ (congrArg _ (List.map_congr_left fun hit _ => ?_)))
  rw [Nat.add_assoc]
  exact hmoved hit

end CommentMarkers
