import CommentMarkers.Proofs.Positions

/-!
# Comments that go on with a text

The text of a line comment goes on in the line comments below it that have no marker of their own.
Their run is searched for span by span.  Here it is described by what stands in the source: each of
its comments starts on the line behind the one before it, with nothing but blanks between the two,
and the run ends where no comment does so anymore.

Main results:

- Theorem `hits_eq_nil_iff`: a search finds nothing exactly if the marker stands alone nowhere.
- Theorem `line_of_next`: a span starts on the line where the one in front of it stops.
- Theorem `absorbs_of_continuation`: the comments that are joined are the longest such run.
- Theorem `Span.Absorbs.exists_front`: the spans up to the end of such a run have no marker.
- Theorem `Span.Absorbs.unique`: there is one such run only.
-/

namespace CommentMarkers

/-! ## Runs of line comments -/

/-- Holds if the marker stands alone somewhere in a comment. -/
def Span.IsMarked (span : Span) (source marker : Bytes) : Prop :=
  ∃ offset issue, span.HasMarker source marker offset issue

/-- The line on which a span stops. -/
def Span.stopLine (span : Span) (source : Bytes) : Nat :=
  span.line + Bytes.newlineCount (span.text source)

/-- Holds if a line comment goes on with the text of another comment: it starts on the line behind
the one where that comment stops, the code between the two is blank, and it has no marker. -/
structure Span.GoesOnIn (span gap comment : Span) (source marker : Bytes) : Prop where
  code : gap.kind = .code
  blank : ∀ byte ∈ gap.text source, Bytes.isBlank byte = true
  isLine : comment.kind = .lineComment
  line : comment.line = span.stopLine source + 1
  unmarked : ¬ comment.IsMarked source marker

/-- Relates a comment and the spans behind it to the longest run of comments that go on with its
text, each with the text of the one before it. -/
inductive Span.Absorbs (source marker : Bytes) : Span → List Span → List Span → Prop where
  | done {span : Span} {following : List Span} :
      (∀ gap comment rest, following = gap :: comment :: rest →
        ¬ span.GoesOnIn gap comment source marker) →
      Absorbs source marker span following []
  | more {span gap comment : Span} {rest absorbed : List Span} :
      span.GoesOnIn gap comment source marker →
      Absorbs source marker comment rest absorbed →
      Absorbs source marker span (gap :: comment :: rest) (comment :: absorbed)

variable {grammar : Grammar} {source marker : Bytes}

/-- The spans from a comment up to the end of the run behind it have no marker, except for the
comment itself. -/
theorem Span.Absorbs.exists_front {span : Span} {following absorbed : List Span}
    (habsorbs : span.Absorbs source marker following absorbed) :
    ∃ front back, following = front ++ back ∧ absorbed.Sublist front ∧
      ∀ other ∈ front, ¬ other.IsMarked source marker := by
  induction habsorbs with
  | done hends => exact ⟨[], _, rfl, List.Sublist.refl _, nofun⟩
  | @more span gap comment rest absorbed hgoes _ ih =>
      obtain ⟨front, back, rfl, hsublist, hunmarked⟩ := ih
      refine ⟨gap :: comment :: front, back, rfl, (hsublist.cons_cons comment).cons gap, ?_⟩
      have hgap : ¬ gap.IsMarked source marker := by
        rintro ⟨offset, issue, hmarker⟩
        have hkind := hmarker.isComment
        rw [hgoes.code] at hkind
        cases hkind
      simp only [List.forall_mem_cons]
      exact ⟨hgap, hgoes.unmarked, hunmarked⟩

/-- A comment absorbs one run only. -/
theorem Span.Absorbs.unique {span : Span} {following absorbed other : List Span}
    (hfirst : span.Absorbs source marker following absorbed)
    (hsecond : span.Absorbs source marker following other) : absorbed = other := by
  induction hfirst generalizing other with
  | done hends =>
      cases hsecond with
      | done => rfl
      | more hgoes => exact absurd hgoes (hends _ _ _ rfl)
  | more hgoes _ ih =>
      cases hsecond with
      | done hends => exact absurd hgoes (hends _ _ _ rfl)
      | more _ hrest => rw [ih hrest]

/-! ## Comments without hits -/

/-- A search in a comment of a source finds nothing exactly if the marker stands alone nowhere in
the comment. -/
theorem hits_eq_nil_iff {span : Span} {found : List Hit} (hne : marker ≠ [])
    (hsolid : Solid marker) (hspan : span ∈ (grammar.scan source).spans)
    (hkind : span.kind.isComment = true)
    (hfound : hits marker (span.commentLines source) = .ok found) :
    found = [] ↔ ¬ span.IsMarked source marker := by
  have hlines : ∀ line, line ∈ span.commentLines source ↔ span.HasLine source line :=
    fun _ => mem_commentLines_iff_of_mem_scan hspan hkind
  have hexact := (hitsFrom_exact hne hsolid hfound).2
  constructor
  · rintro rfl ⟨offset, issue, line, start, hline, halone, -⟩
    obtain ⟨index, hindex⟩ := List.mem_iff_getElem?.1 ((hlines line).2 hline)
    obtain ⟨place, hplace, -⟩ := standsAlone_iff.1 halone
    have hmem := (hexact ⟨place, index⟩).2 ⟨index, line, hindex, (Nat.zero_add _).symm, hplace⟩
    cases hmem
  · intro hunmarked
    by_contra hsome
    obtain ⟨hit, rest, rfl⟩ := List.exists_cons_of_ne_nil hsome
    obtain ⟨index, line, hline, -, hplace⟩ := (hexact hit).1 List.mem_cons_self
    exact hunmarked ⟨_, hit.issue, line, hit.start,
      (hlines line).1 (List.mem_of_getElem? hline),
      standsAlone_iff.2 ⟨hit.toLineHit, hplace, rfl, rfl⟩, rfl⟩

/-! ## Lines of spans -/

/-- A tile starts where the one in front of it stops. -/
theorem Tiles.start_next {start stop : Nat} {before rest : List Span} {span next : Span}
    (htiles : Tiles start stop (before ++ span :: next :: rest)) : next.start = span.stop := by
  induction before generalizing start with
  | nil => exact htiles.2.2.1
  | cons first before ih => exact ih htiles.2.2

/-- A span starts on the line where the one in front of it stops. -/
theorem line_of_next {before rest : List Span} {span next : Span}
    (hspans : (grammar.scan source).spans = before ++ span :: next :: rest) :
    next.line = span.stopLine source := by
  have hspan : span ∈ (grammar.scan source).spans := by
    rw [hspans]
    simp
  have hnext : next ∈ (grammar.scan source).spans := by
    rw [hspans]
    simp
  have hline : span.line = 1 + Bytes.newlineCount (source.take span.start) :=
    (isTrueIn_of_mem_scan hspan).line
  have hnextLine : next.line = 1 + Bytes.newlineCount (source.take next.start) :=
    (isTrueIn_of_mem_scan hnext).line
  have htiles := tiles_textOf grammar source
  have hle : span.start ≤ span.stop := Nat.le_of_lt (htiles.start_lt_stop span hspan)
  rw [hspans] at htiles
  have htake : source.take next.start = source.take span.start ++ span.text source := by
    rw [htiles.start_next, Span.text, Bytes.slice, ← List.take_add, Nat.add_sub_cancel' hle]
  rw [hnextLine, htake, Span.stopLine, hline, Nat.add_assoc]
  exact congrArg (1 + ·) List.count_append

/-- What stands between a comment and the next but one span makes the text of the comment go on
there, if that span is a line comment without hits. -/
theorem goesOnIn_iff {before rest : List Span} {span gap comment : Span}
    (hspans : (grammar.scan source).spans = before ++ span :: gap :: comment :: rest) :
    span.GoesOnIn gap comment source marker ↔
      gap.isLineBreak source = true ∧ comment.kind = .lineComment ∧
        ¬ comment.IsMarked source marker := by
  have hgap := line_of_next hspans
  have hcomment : comment.line = gap.stopLine source := by
    rw [List.append_cons] at hspans
    exact line_of_next hspans
  rw [Span.stopLine, hgap] at hcomment
  simp only [Span.isLineBreak, Bytes.isBlankText, Bool.and_eq_true, decide_eq_true_eq,
    List.all_eq_true]
  constructor
  · rintro ⟨hcode, hblank, hkind, hline, hunmarked⟩
    exact ⟨⟨⟨hcode, by omega⟩, hblank⟩, hkind, hunmarked⟩
  · rintro ⟨⟨⟨hcode, hcount⟩, hblank⟩, hkind, hunmarked⟩
    exact ⟨hcode, hblank, hkind, by omega, hunmarked⟩

/-- The comments that go on with the text of a comment are the longest run behind it. -/
theorem absorbs_of_continuation (hne : marker ≠ []) (hsolid : Solid marker)
    {before following absorbed : List Span} {span : Span}
    (hspans : (grammar.scan source).spans = before ++ span :: following)
    (habsorbed : continuation marker source following = .ok absorbed) :
    span.Absorbs source marker following absorbed := by
  fun_induction continuation marker source following generalizing before span absorbed with
  | case1 gap comment rest hnext ih =>
      obtain ⟨found, hfound, hchoice⟩ := bind_eq_ok_iff.1 habsorbed
      simp only [Bool.and_eq_true, decide_eq_true_eq] at hnext
      have hmem : comment ∈ (grammar.scan source).spans := by
        rw [hspans]
        simp
      have hkind : comment.kind.isComment = true := by
        rw [hnext.2]
        rfl
      have hempty := hits_eq_nil_iff hne hsolid hmem hkind hfound
      have hgoes : span.GoesOnIn gap comment source marker ↔ _ := goesOnIn_iff hspans
      split at hchoice
      · rename_i hnone
        obtain ⟨more, hmore, hsame⟩ := bind_eq_ok_iff.1 hchoice
        cases hsame
        refine .more (hgoes.2 ⟨hnext.1, hnext.2, hempty.1 (List.isEmpty_iff.1 hnone)⟩) ?_
        rw [List.append_cons, List.append_cons] at hspans
        exact ih hspans hmore
      · rename_i hsome
        cases hchoice
        refine .done ?_
        rintro _ _ _ ⟨rfl, rfl, rfl⟩ hon
        exact hsome (List.isEmpty_iff.2 (hempty.2 hon.unmarked))
  | case2 gap comment rest hnext =>
      cases habsorbed
      refine .done ?_
      rintro _ _ _ ⟨rfl, rfl, rfl⟩ hon
      obtain ⟨hbreak, hkind, -⟩ := (goesOnIn_iff hspans).1 hon
      rw [hbreak, hkind] at hnext
      exact hnext rfl
  | case3 following hshort =>
      cases habsorbed
      exact .done fun gap comment rest hfollowing _ => hshort gap comment rest hfollowing

end CommentMarkers
