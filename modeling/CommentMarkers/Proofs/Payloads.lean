import CommentMarkers.Proofs.CommentHits
import CommentMarkers.Annotation.Extraction

/-!
# Payloads

The payload of a marker is read line by line from behind the marker up to the next one.  So it
depends on the lines that it reaches only, and on the part of each that belongs to it.

Main results:

- Theorem `payloadBytes_congr`: payloads with the same parts are the same.
- Theorem `payloadBytes_in_front`: a payload that ends in front of inserted bytes is the same.
- Theorem `payloadBytes_behind`: a payload that begins behind inserted bytes is the same.
-/

namespace CommentMarkers

variable {lines other : List CommentLine} {hit moved : Hit} {next follower : Option Hit}

/-- The number of the last line that a payload reaches. -/
def lastPayloadLine (lines : List CommentLine) (next : Option Hit) : Nat :=
  match next with
  | some next => next.line
  | none => lines.length - 1

/-- Payloads that reach over lines with the same numbers, and take the same part of each of them,
are the same. -/
theorem payloadBytes_congr (hlength : other.length = lines.length) (hline : moved.line = hit.line)
    (hnext : follower.map (·.line) = next.map (·.line))
    (hparts : ∀ number line otherLine, lines[number]? = some line →
      other[number]? = some otherLine → hit.line ≤ number →
      (∀ following ∈ next, number ≤ following.line) →
      payloadPart moved follower otherLine number = payloadPart hit next line number) :
    payloadBytes other moved follower = payloadBytes lines hit next := by
  have hlast : lastPayloadLine other follower = lastPayloadLine lines next := by
    cases next <;> cases follower <;> simp_all [lastPayloadLine]
  change Bytes.trim (Bytes.joinLines ((((other.drop moved.line).take
    (lastPayloadLine other follower + 1 - moved.line)).zipIdx moved.line).map
      fun numbered => payloadPart moved follower numbered.1 numbered.2)) =
    Bytes.trim (Bytes.joinLines ((((lines.drop hit.line).take
      (lastPayloadLine lines next + 1 - hit.line)).zipIdx hit.line).map
        fun numbered => payloadPart hit next numbered.1 numbered.2))
  rw [hlast, hline]
  congr 2
  apply List.ext_getElem?
  intro index
  simp only [List.getElem?_map, List.getElem?_zipIdx, List.getElem?_take, List.getElem?_drop]
  by_cases hreached : index < lastPayloadLine lines next + 1 - hit.line
  · rw [if_pos hreached, if_pos hreached]
    cases hfirst : lines[hit.line + index]? with
    | none =>
        rw [List.getElem?_eq_none_iff, ← hlength, ← List.getElem?_eq_none_iff] at hfirst
        rw [hfirst]
        rfl
    | some line =>
        rcases List.getElem?_eq_some_iff.1 hfirst with ⟨hinside, -⟩
        rw [← hlength] at hinside
        rw [List.getElem?_eq_getElem hinside]
        simp only [Option.map_some, Option.some.injEq]
        refine hparts _ line _ hfirst (List.getElem?_eq_getElem hinside) (Nat.le_add_right _ _) ?_
        rintro following rfl
        simp only [lastPayloadLine] at hreached
        omega
  · rw [if_neg hreached, if_neg hreached]
    rfl

/-- A payload does not depend on the offsets of the lines. -/
theorem payloadBytes_congr_text (hit : Hit) (next : Option Hit)
    (htexts : other.map (·.text) = lines.map (·.text)) :
    payloadBytes other hit next = payloadBytes lines hit next := by
  have hlength := congrArg List.length htexts
  rw [List.length_map, List.length_map] at hlength
  apply payloadBytes_congr hlength rfl rfl
  intro number line otherLine hfirst hsecond _ _
  have hsame := congrArg (·[number]?) htexts
  simp only [List.getElem?_map, hfirst, hsecond, Option.map_some, Option.some.injEq] at hsame
  simp only [payloadPart, hsame]

/-! ## Bytes inserted into a line -/

variable {front inserted back : Bytes} {before after more : List CommentLine}
  {offset otherOffset : Nat}

/-- A slice that ends in front of a place is the same whatever is behind it. -/
theorem slice_in_front {start stop : Nat} (hstop : stop ≤ front.length) (rest : Bytes) :
    Bytes.slice (front ++ rest) start stop = Bytes.slice front start stop := by
  have hinside : Bytes.slice ([] ++ (front ++ rest)) (0 + start) (0 + stop) =
      Bytes.slice front start stop := slice_inside [] front rest hstop
  rw [Nat.zero_add, Nat.zero_add] at hinside
  exact hinside

/-- A slice that begins behind a place moves with what is inserted there. -/
theorem slice_behind {start stop : Nat} (hstart : front.length ≤ start) :
    Bytes.slice (front ++ (inserted ++ back)) (start + inserted.length)
      (stop + inserted.length) = Bytes.slice (front ++ back) start stop := by
  rcases Nat.exists_eq_add_of_le hstart with ⟨inner, rfl⟩
  have hshift : front.length + inner + inserted.length =
      (front ++ inserted).length + inner := by
    rw [List.length_append]
    omega
  rw [Bytes.slice, Bytes.slice, ← List.append_assoc, hshift, List.drop_length_add_append,
    List.drop_length_add_append, ← hshift, Nat.add_sub_add_right]

/-- Lines other than the one that is changed have the same texts. -/
theorem text_eq_of_ne {first second line otherLine : CommentLine} {number : Nat}
    (htexts : more.map (·.text) = after.map (·.text)) (hne : number ≠ before.length)
    (hline : (before ++ first :: after)[number]? = some line)
    (hother : (before ++ second :: more)[number]? = some otherLine) :
    otherLine.text = line.text := by
  rcases Nat.lt_or_gt_of_ne hne with hbefore | hbehind
  · rw [List.getElem?_append_left hbefore] at hline hother
    rw [hline] at hother
    rw [Option.some.inj hother]
  · rw [List.getElem?_append_right (Nat.le_of_lt hbehind)] at hline hother
    obtain ⟨index, hindex⟩ : ∃ index, number - before.length = index + 1 :=
      ⟨number - before.length - 1, by omega⟩
    rw [hindex, List.getElem?_cons_succ] at hline hother
    have hsame := congrArg (·[index]?) htexts
    simp only [List.getElem?_map, hline, hother, Option.map_some, Option.some.injEq] at hsame
    exact hsame

/-- A payload that ends in front of inserted bytes is the same as without them. -/
theorem payloadBytes_in_front {next follower : Hit} (hit : Hit)
    (htexts : more.map (·.text) = after.map (·.text)) (hline : follower.line = next.line)
    (hstart : follower.start = next.start)
    (hends : next.line < before.length ∨
      next.line = before.length ∧ next.start ≤ front.length) :
    payloadBytes (before ++ ⟨otherOffset, front ++ (inserted ++ back)⟩ :: more) hit
        (some follower) =
      payloadBytes (before ++ ⟨offset, front ++ back⟩ :: after) hit (some next) := by
  have hlength := congrArg List.length htexts
  rw [List.length_map, List.length_map] at hlength
  apply payloadBytes_congr (by simp [hlength]) rfl (by simp [hline])
  intro number line otherLine hfirst hsecond _ hreached
  have hlast := hreached next rfl
  by_cases hnumber : number = before.length
  · subst hnumber
    rw [List.getElem?_append_right (Nat.le_refl _), Nat.sub_self] at hfirst hsecond
    cases hfirst
    cases hsecond
    have hnext : before.length = next.line := by omega
    have hstop : next.start ≤ front.length := by
      rcases hends with hends | hends
      · omega
      · exact hends.2
    simp only [payloadPart, hline, if_pos hnext, hstart, slice_in_front hstop]
  · have htext := text_eq_of_ne htexts hnumber hfirst hsecond
    simp only [payloadPart, hline, hstart, htext]

/-- What a payload takes from the line with the inserted bytes, if it begins behind them. -/
theorem payloadPart_insert (next : Option Hit) {number : Nat} (hline : moved.line = hit.line)
    (hhere : hit.line = number) (hstop : moved.stop = hit.stop + inserted.length)
    (hstart : front.length ≤ hit.stop) :
    payloadPart moved (next.map (·.moved number inserted.length))
        ⟨otherOffset, front ++ (inserted ++ back)⟩ number =
      payloadPart hit next ⟨offset, front ++ back⟩ number := by
  have hwhole : (front ++ (inserted ++ back)).length =
      (front ++ back).length + inserted.length := by
    simp only [List.length_append]
    omega
  cases next with
  | none =>
      simp only [payloadPart, Option.map_none, hline, hhere, if_true, hstop, hwhole,
        slice_behind hstart]
  | some next =>
      simp only [payloadPart, Option.map_some, hline, hhere, if_true, hstop, Hit.line_moved]
      by_cases hnext : number = next.line
      · rw [if_pos hnext, if_pos hnext, Hit.moved, if_pos hnext.symm]
        exact congrArg Bytes.trim (slice_behind hstart)
      · rw [if_neg hnext, if_neg hnext, hwhole, slice_behind hstart]

/-- What a payload takes from another line. -/
theorem payloadPart_moved (next : Option Hit) {line otherLine : CommentLine}
    {number changed : Nat} (count : Nat) (hne : number ≠ changed)
    (hline : moved.line = hit.line) (hstop : number = hit.line → moved.stop = hit.stop)
    (htext : otherLine.text = line.text) :
    payloadPart moved (next.map (·.moved changed count)) otherLine number =
      payloadPart hit next line number := by
  have hstart : (if number = moved.line then moved.stop else 0) =
      if number = hit.line then hit.stop else 0 := by
    rw [hline]
    by_cases hhere : number = hit.line
    · rw [if_pos hhere, if_pos hhere, hstop hhere]
    · rw [if_neg hhere, if_neg hhere]
  cases next with
  | none => simp only [payloadPart, Option.map_none, htext, hstart]
  | some next =>
      simp only [payloadPart, Option.map_some, htext, hstart, Hit.line_moved]
      by_cases hnext : number = next.line
      · rw [if_pos hnext, if_pos hnext, Hit.moved_of_ne (hnext ▸ hne)]
      · rw [if_neg hnext, if_neg hnext]

/-- A payload that begins behind inserted bytes is the same as without them. -/
theorem payloadBytes_behind (offset : Nat) {hit moved : Hit} (next : Option Hit)
    (htexts : more.map (·.text) = after.map (·.text)) (hline : moved.line = hit.line)
    (hstop : moved.stop = (hit.moved before.length inserted.length).stop)
    (hbegins : before.length < hit.line ∨
      hit.line = before.length ∧ front.length ≤ hit.stop) :
    payloadBytes (before ++ ⟨otherOffset, front ++ (inserted ++ back)⟩ :: more) moved
        (next.map (·.moved before.length inserted.length)) =
      payloadBytes (before ++ ⟨offset, front ++ back⟩ :: after) hit next := by
  have hlength := congrArg List.length htexts
  rw [List.length_map, List.length_map] at hlength
  apply payloadBytes_congr (by simp [hlength]) hline (by cases next <;> simp)
  intro number line otherLine hfirst hsecond hreached _
  by_cases hnumber : number = before.length
  · subst hnumber
    rw [List.getElem?_append_right (Nat.le_refl _), Nat.sub_self] at hfirst hsecond
    cases hfirst
    cases hsecond
    rcases hbegins with hbegins | ⟨hhere, hstart⟩
    · omega
    · exact payloadPart_insert next hline hhere (hstop.trans (Hit.stop_moved hhere _)) hstart
  · have htext := text_eq_of_ne htexts hnumber hfirst hsecond
    apply payloadPart_moved next inserted.length hnumber hline _ htext
    intro hhere
    rw [hstop, Hit.moved_of_ne (hhere ▸ hnumber)]

end CommentMarkers
