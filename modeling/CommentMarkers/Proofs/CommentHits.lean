import CommentMarkers.Annotation.Decoration
import CommentMarkers.Proofs.LineHits

/-!
# The hits of a comment

A comment is searched line by line, and the hits of its lines are put one behind the other.  This
file says which hits these are and in which order they stand.

Main results:

- Theorem `hitsFrom_exact`: the hits in the lines of a comment are those of each line.
- Theorem `pairwise_hitOffset`: hits stand in the order of their offsets.
-/

namespace CommentMarkers

/-! ## Hits in a comment -/

/-- Orders hits by their lines, and on a line by their starts. -/
def Hit.Before (first second : Hit) : Prop :=
  first.line < second.line ∨ first.line = second.line ∧ first.start < second.start

variable {marker : Bytes}

/-- Lines with short references are searched with success. -/
theorem exists_hitsFrom_eq_ok {lines : List CommentLine} (number : Nat) (hne : marker ≠ [])
    (hshort : ∀ line ∈ lines, HasShortReferences marker line.text) :
    ∃ found, hitsFrom marker number lines = .ok found := by
  induction lines generalizing number with
  | nil => exact ⟨[], rfl⟩
  | cons line rest ih =>
      rcases List.forall_mem_cons.1 hshort with ⟨hfirst, hrest⟩
      rcases exists_lineHits_eq_ok none 0 hne hfirst with ⟨here, hhere⟩
      rcases ih (number + 1) hrest with ⟨more, hmore⟩
      rw [hitsFrom, hhere, ok_bind, hmore]
      exact ⟨_, rfl⟩

/-- The hits in the lines of a comment are those of each line, in order. -/
theorem hitsFrom_exact {lines : List CommentLine} {number : Nat} {found : List Hit}
    (hne : marker ≠ []) (hsolid : Solid marker)
    (hfound : hitsFrom marker number lines = .ok found) :
    found.Pairwise Hit.Before ∧
      ∀ hit, hit ∈ found ↔ ∃ index line, lines[index]? = some line ∧ hit.line = number + index ∧
        IsHit marker none 0 line.text hit.toLineHit := by
  induction lines generalizing number found with
  | nil =>
      cases hfound
      refine ⟨List.Pairwise.nil, fun hit => ?_⟩
      constructor
      · intro hhit
        cases hhit
      · rintro ⟨index, line, hline, -⟩
        cases hline
  | cons line rest ih =>
      rcases bind_eq_ok_iff.1 hfound with ⟨here, hhere, hbind⟩
      rcases bind_eq_ok_iff.1 hbind with ⟨more, hmore, hsame⟩
      cases hsame
      rcases findsExactly none 0 line.text hne hsolid here hhere with ⟨hsorted, hexact⟩
      rcases ih hmore with ⟨hordered, hothers⟩
      constructor
      · refine List.pairwise_append.2 ⟨?_, hordered, ?_⟩
        · rw [List.pairwise_map]
          exact hsorted.imp fun hbefore => Or.inr ⟨rfl, hbefore⟩
        · intro hit hhit other hother
          rcases List.mem_map.1 hhit with ⟨found, -, rfl⟩
          rcases (hothers other).1 hother with ⟨index, -, -, hline, -⟩
          apply Or.inl
          simp only
          omega
      · intro hit
        rw [List.mem_append, List.mem_map, hothers]
        constructor
        · rintro (⟨found, hfound, rfl⟩ | ⟨index, other, hother, hline, hhit⟩)
          · exact ⟨0, line, rfl, rfl, (hexact found).1 hfound⟩
          · exact ⟨index + 1, other, hother, by omega, hhit⟩
        · rintro ⟨index, other, hother, hline, hhit⟩
          cases index with
          | zero =>
              cases hother
              refine Or.inl ⟨hit.toLineHit, (hexact _).2 hhit, ?_⟩
              rw [Nat.add_zero] at hline
              rw [← hline]
          | succ index => exact Or.inr ⟨index, other, hother, by omega, hhit⟩

/-- A hit in the lines of a comment is one of the line whose number it has. -/
theorem isHit_of_mem_hits {lines : List CommentLine} {found : List Hit} (hne : marker ≠ [])
    (hsolid : Solid marker) (hfound : hits marker lines = .ok found) :
    ∀ hit ∈ found, ∃ line, lines[hit.line]? = some line ∧
      IsHit marker none 0 line.text hit.toLineHit := by
  intro hit hhit
  rcases ((hitsFrom_exact hne hsolid hfound).2 hit).1 hhit with
    ⟨index, line, hline, hnumber, hplace⟩
  rw [Nat.zero_add] at hnumber
  rw [← hnumber] at hline
  exact ⟨line, hline, hplace⟩

/-! ## Offsets of hits -/

/-- The offset in the source of a hit in the lines of a comment. -/
def hitOffset (lines : List CommentLine) (hit : Hit) : Nat :=
  ((lines[hit.line]?).map (·.offset)).getD 0 + hit.start

/-- Hits in the order of their lines stand in the order of their offsets. -/
theorem pairwise_hitOffset {lines : List CommentLine} {found : List Hit}
    (hlines : lines.Pairwise fun first second => first.offset + first.text.length ≤ second.offset)
    (hinside : ∀ hit ∈ found, ∃ line, lines[hit.line]? = some line ∧
      hit.start < line.text.length)
    (hordered : found.Pairwise Hit.Before) :
    found.Pairwise fun first second => hitOffset lines first < hitOffset lines second := by
  apply hordered.imp_of_mem
  intro first second hfirst hsecond hbefore
  rcases hinside first hfirst with ⟨line, hline, hstart⟩
  rcases hinside second hsecond with ⟨other, hother, -⟩
  rw [hitOffset, hitOffset, hline, hother]
  simp only [Option.map_some, Option.getD_some]
  rcases hbefore with hbefore | ⟨hsame, hbefore⟩
  · rcases List.getElem?_eq_some_iff.1 hline with ⟨hfirstFits, rfl⟩
    rcases List.getElem?_eq_some_iff.1 hother with ⟨hsecondFits, rfl⟩
    have hgap := List.pairwise_iff_getElem.1 hlines _ _ hfirstFits hsecondFits hbefore
    omega
  · rw [hsame, hother] at hline
    cases hline
    omega

/-! ## A reference in a comment -/

/-- The hits of lines in front of others are those in front. -/
theorem hitsFrom_append (marker : Bytes) (number : Nat) (front back : List CommentLine) :
    hitsFrom marker number (front ++ back) = do
      let first ← hitsFrom marker number front
      let second ← hitsFrom marker (number + front.length) back
      return first ++ second := by
  induction front generalizing number with
  | nil =>
      rw [List.nil_append, List.length_nil, Nat.add_zero, hitsFrom, ok_bind]
      cases hitsFrom marker number back <;> rfl
  | cons line front ih =>
      rw [List.cons_append, hitsFrom, hitsFrom, ih, List.length_cons, Nat.add_assoc,
        Nat.add_comm 1]
      cases lineHits marker none 0 line.text with
      | error fault => rfl
      | ok here =>
          cases hitsFrom marker (number + 1) front with
          | error fault => rfl
          | ok first =>
              cases hitsFrom marker (number + (front.length + 1)) back with
              | error fault => rfl
              | ok second => exact congrArg Except.ok (List.append_assoc _ _ _).symm

/-- Only the texts of the lines make a difference. -/
theorem hitsFrom_congr_text (marker : Bytes) (number : Nat) {lines other : List CommentLine}
    (htexts : other.map (·.text) = lines.map (·.text)) :
    hitsFrom marker number other = hitsFrom marker number lines := by
  induction lines generalizing other number with
  | nil => rw [List.map_eq_nil_iff.1 htexts]
  | cons line rest ih =>
      cases other with
      | nil => cases htexts
      | cons first other =>
          rcases List.cons.inj htexts with ⟨hfirst, hmore⟩
          have htext : first.text = line.text := hfirst
          rw [hitsFrom, hitsFrom, htext, ih _ hmore]

/-- A hit in one of the lines of a comment when bytes are inserted in front of it into the line
`line`. -/
def Hit.moved (hit : Hit) (line count : Nat) : Hit :=
  if hit.line = line then { hit with toLineHit := hit.toLineHit.moved count } else hit

/-- A moved hit stays on its line. -/
@[simp]
theorem Hit.line_moved (hit : Hit) (line count : Nat) : (hit.moved line count).line = hit.line := by
  unfold Hit.moved
  split <;> rfl

/-- A moved hit keeps its issue. -/
@[simp]
theorem Hit.issue_moved (hit : Hit) (line count : Nat) :
    (hit.moved line count).issue = hit.issue := by
  unfold Hit.moved
  split <;> rfl

/-- A hit on the line ends further on. -/
theorem Hit.stop_moved {hit : Hit} {line : Nat} (hline : hit.line = line) (count : Nat) :
    (hit.moved line count).stop = hit.stop + count := by
  rw [moved, if_pos hline]
  rfl

/-- A hit on another line does not move. -/
theorem Hit.moved_of_ne {hit : Hit} {line : Nat} (hline : hit.line ≠ line) (count : Nat) :
    hit.moved line count = hit :=
  if_neg hline

/-- A hit in one of the lines of a comment with a reference to an issue behind it. -/
def Hit.reported (hit : Hit) (length number : Nat) : Hit :=
  { hit with toLineHit := hit.toLineHit.reported length number }

/-- A reference behind a marker without one becomes a part of its hit, and moves the hits behind
it on the line. -/
theorem hits_insert {reference front behind : Bytes} {number offset : Nat}
    {before after : List CommentLine} {found : List Hit}
    (hne : marker ≠ []) (hsolid : Solid marker) (hreference : IsReference reference (some number))
    (hshort : reference.length ≤ IssueTooLong.limit + 3)
    (hfront : isBoundary front.getLast? = true) (hbehind : isBoundary behind.head? = true)
    (hfound : hits marker (before ++ ⟨offset, front ++ (marker ++ behind)⟩ :: after) =
      .ok found) :
    ∃ first second, found = first ++
        ⟨⟨front.length, front.length + marker.length, none⟩, before.length⟩ :: second ∧
      (∀ hit ∈ second, before.length < hit.line ∨
        hit.line = before.length ∧ front.length + marker.length ≤ hit.start) ∧
      ∀ more, more.map (·.text) = after.map (·.text) →
        hits marker (before ++
          ⟨offset, front ++ (marker ++ (reference ++ behind))⟩ :: more) =
            .ok (first ++
              Hit.reported ⟨⟨front.length, front.length + marker.length, none⟩, before.length⟩
                reference.length number ::
                  second.map (·.moved before.length reference.length)) := by
  rw [hits, hitsFrom_append, Nat.zero_add] at hfound
  rcases bind_eq_ok_iff.1 hfound with ⟨first, hfirst, hbind⟩
  rcases bind_eq_ok_iff.1 hbind with ⟨rest, hrest, hsame⟩
  cases hsame
  rw [hitsFrom] at hrest
  rcases bind_eq_ok_iff.1 hrest with ⟨here, hhere, hbind⟩
  rcases bind_eq_ok_iff.1 hbind with ⟨last, hlast, hsame⟩
  cases hsame
  rcases lineHits_insert hne hsolid hreference hshort hfront hbehind hhere with
    ⟨left, right, rfl, hright, hline⟩
  have hlater : ∀ hit ∈ last, before.length < hit.line := by
    intro hit hhit
    rcases ((hitsFrom_exact hne hsolid hlast).2 hit).1 hhit with ⟨index, -, -, hnumber, -⟩
    omega
  refine ⟨first ++ left.map (fun hit => { hit with line := before.length }),
    right.map (fun hit => { hit with line := before.length }) ++ last, by simp, ?_, ?_⟩
  · intro hit hhit
    rcases List.mem_append.1 hhit with hhit | hhit
    · rcases List.mem_map.1 hhit with ⟨inner, hinner, rfl⟩
      exact Or.inr ⟨rfl, hright inner hinner⟩
    · exact Or.inl (hlater hit hhit)
  intro more hmore
  have hstays : last.map (·.moved before.length reference.length) = last := by
    rw [List.map_congr_left (g := id), List.map_id]
    intro hit hhit
    exact Hit.moved_of_ne (Nat.ne_of_gt (hlater hit hhit)) reference.length
  have hmoves : ((right.map fun hit => { hit with line := before.length : Hit }) ++ last).map
        (·.moved before.length reference.length) =
      ((right.map (·.moved reference.length)).map fun hit =>
        { hit with line := before.length : Hit }) ++ last := by
    rw [List.map_append, hstays, List.map_map, List.map_map]
    congr 1
    apply List.map_congr_left
    intro hit _
    simp only [Function.comp, Hit.moved, if_pos]
  rw [hits, hitsFrom_append, Nat.zero_add, hfirst, ok_bind, hitsFrom, hline,
    hitsFrom_congr_text marker _ hmore, ok_bind, hlast, hmoves]
  apply congrArg Except.ok
  simp only [List.map_append, List.map_cons, List.append_assoc, List.cons_append]
  rfl

end CommentMarkers
