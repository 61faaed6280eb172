import CommentMarkers.Proofs.Findings
import CommentMarkers.Proofs.References
import Mathlib.Data.List.Basic

/-!
# A comment with an inserted reference

A reference that is inserted into a line of a comment, behind a word and in front of a blank or the
end of the line, becomes a part of that line.  All lines keep their decoration, and what is found in
the comment stays the same, except that the marker in front of the reference now has an issue and
everything behind the reference stands further on.

Main results:

- Theorem `Lexeme.lines_insert`: the reference becomes a part of its line.
- Theorem `findings_insert`: what is found in lines with the reference.
- Theorem `commentFindings_insert`: what is found in a comment with the reference.
-/

namespace CommentMarkers

variable {reference front behind : Bytes} {number : Nat}

/-! ## Decoration -/

/-- The decoration of a line does not depend on what is behind its first word. -/
theorem Decoration.change {kind : SpanKind} {decoration rest : Bytes}
    (hword : ∃ byte ∈ front, Bytes.isBlank byte = false)
    (hdecoration : Decoration kind decoration (front ++ rest)) (other : Bytes) :
    Decoration kind decoration (front ++ other) := by
  rcases hword with ⟨byte, hbyte, hsolid⟩
  have hgap : ∀ gap, Gap gap (front ++ rest) → Gap gap (front ++ other) := by
    intro gap hgap
    generalize hwhole : front ++ rest = whole at hgap
    cases hgap with
    | space => exact .space _
    | none _ hrest =>
        refine .none _ ?_
        rw [← hwhole] at hrest
        cases front with
        | nil => cases hbyte
        | cons first front => exact hrest
  generalize hwhole : front ++ rest = whole at hdecoration
  cases hdecoration with
  | lineComment hline => exact .lineComment (hgap _ (hwhole ▸ hline))
  | starred hindent hline => exact .starred hindent (hgap _ (hwhole ▸ hline))
  | plain hplain =>
      refine .plain fun indent more hindent hstar => ?_
      have hnot : byte ∉ indent := by
        intro hmem
        have hblank := hindent byte hmem
        simp only [Bool.or_eq_true, beq_iff_eq] at hblank
        rcases hblank with rfl | rfl <;> cases hsolid
      rcases List.append_eq_append_iff.1 hstar with ⟨tail, rfl, -⟩ | ⟨tail, rfl, htail⟩
      · exact hnot (List.mem_append_left _ hbyte)
      · cases tail with
        | nil => exact hnot (by simpa using hbyte)
        | cons first tail =>
            rcases List.cons.inj htail with ⟨rfl, rfl⟩
            exact hplain indent (tail ++ rest) hindent (by rw [← hwhole]; simp)

/-- A line keeps its decoration and its carriage returns if a reference is inserted behind a word
of it. -/
theorem Strips.insert {kind : SpanKind} {raw decoration returns : Bytes}
    (hword : ∃ byte ∈ front, Bytes.isBlank byte = false)
    (hreference : IsReference reference (some number))
    (hstrips : Strips kind raw decoration (front ++ behind) returns) :
    Strips kind (decoration ++ (front ++ (reference ++ behind) ++ returns)) decoration
      (front ++ (reference ++ behind)) returns := by
  rcases hstrips with ⟨-, hdecoration, hall, hlast⟩
  refine ⟨rfl, ?_, hall, ?_⟩
  · rw [List.append_assoc] at hdecoration ⊢
    exact hdecoration.change hword _
  · cases behind with
    | nil =>
        cases hreference with
        | present digits hne hdigits =>
            rw [List.append_nil, List.getLast?_append, List.getLast?_append, List.getLast?_append]
            intro hclosing
            cases hclosing
    | cons byte behind =>
        rw [List.getLast?_append, List.getLast?_append, List.getLast?_cons] at *
        exact hlast

/-! ## Lines -/

/-- The raw lines of a comment whose body begins at an offset. -/
def bodyLines (kind : SpanKind) (offset : Nat) (body : Bytes) : List CommentLine :=
  if kind = .lineComment then [⟨offset, body⟩] else placeLines offset (Bytes.lines body)

/-- The lines of a comment are the lines of its body, stripped one by one. -/
theorem Lexeme.lines_withText {lexeme : Lexeme}
    (hcloser : lexeme.kind = .lineComment → Text.encode lexeme.closer = []) (body : Bytes) :
    (lexeme.withText (Text.encode lexeme.opener ++ (body ++ Text.encode lexeme.closer))).lines =
      (bodyLines lexeme.kind (Text.encode lexeme.opener).length body).map
        (·.strip lexeme.kind) := by
  rw [Lexeme.lines, Span.commentLines_eq]
  change (Span.rawLines _ (Text.encode lexeme.opener ++
    (body ++ Text.encode lexeme.closer))).map (·.strip lexeme.kind) = _
  congr 1
  have hstart : ∀ text, ((lexeme.withText text).spanAt .first).bodyStart =
      (Text.encode lexeme.opener).length := fun _ => Nat.zero_add _
  have hstop : ∀ text : Bytes, ((lexeme.withText text).spanAt .first).stop = text.length :=
    fun _ => Nat.zero_add _
  unfold Span.rawLines bodyLines
  by_cases hline : lexeme.kind = .lineComment
  · rw [if_pos (by exact hline), if_pos hline, hstart, hstop, hcloser hline, List.length_append,
      List.append_nil]
    have hslice := slice_middle (Text.encode lexeme.opener) body []
    rw [List.append_nil] at hslice
    rw [hslice]
  · have hbody : ((lexeme.withText (Text.encode lexeme.opener ++
          (body ++ Text.encode lexeme.closer))).spanAt .first).bodyStop =
        (Text.encode lexeme.opener).length + body.length := by
      rw [Span.bodyStop, hstop]
      simp only [List.length_append, Lexeme.spanAt, Lexeme.withText]
      omega
    rw [if_neg (by exact hline), if_neg hline, hstart, Span.body_eq_slice, hstart, hbody,
      slice_middle]
    rw [hstop]
    simp only [List.length_append, Lexeme.spanAt, Lexeme.withText]
    omega

/-- More bytes on one line of a body move the lines behind it. -/
theorem exists_of_bodyLines_eq {kind : SpanKind} {offset : Nat} {body : Bytes}
    {before after : List CommentLine} {line : CommentLine}
    (hlines : bodyLines kind offset body = before ++ line :: after) :
    ∃ front back, body = front ++ (line.text ++ back) ∧ line.offset = offset + front.length ∧
      EndsLine back ∧ ∀ other count, other.length = line.text.length + count →
        (Bytes.newline ∈ other → Bytes.newline ∈ line.text) →
          bodyLines kind offset (front ++ (other ++ back)) =
            before ++ ⟨line.offset, other⟩ :: after.map (·.moved count) := by
  unfold bodyLines at hlines ⊢
  by_cases hkind : kind = .lineComment
  · rw [if_pos hkind] at hlines
    cases before with
    | nil =>
        rcases List.cons.inj hlines with ⟨rfl, rfl⟩
        refine ⟨[], [], by simp, rfl, Or.inl rfl, fun other count _ _ => ?_⟩
        rw [if_pos hkind, List.nil_append, List.append_nil]
        rfl
    | cons own before =>
        have hnil := (List.cons.inj hlines).2
        cases before <;> cases hnil
  · rw [if_neg hkind] at hlines
    rcases exists_of_placeLines_eq hlines with
      ⟨front, back, texts, rfl, hoffset, hnot, -, hends, hothers⟩
    have hown := hothers line.text hnot
    rw [hlines] at hown
    have hafter := (List.cons.inj (List.append_cancel_left hown)).2
    refine ⟨front, back, rfl, hoffset, hends, fun other count hlength hnewline => ?_⟩
    rw [if_neg hkind, hothers other fun hmem => hnot (hnewline hmem), hafter, ← placeLines_moved,
      hlength]
    congr 3
    omega

variable {lexeme : Lexeme} {before after : List CommentLine} {offset : Nat}

/-- The raw line that a line of a comment was stripped from.  Another raw line with the same
decoration changes the line, and more bytes in it move the lines behind it. -/
theorem exists_raw_of_lines_eq (hlexeme : lexeme.WellFormed)
    (hkind : lexeme.kind.isComment = true)
    (hcloser : lexeme.kind = .lineComment → Text.encode lexeme.closer = []) {text : Bytes}
    (hlines : lexeme.lines = before ++ ⟨offset, text⟩ :: after) :
    ∃ pre raw post decoration returns,
      lexeme.text = Text.encode lexeme.opener ++
          (pre ++ (raw ++ post) ++ Text.encode lexeme.closer) ∧
        Strips lexeme.kind raw decoration text returns ∧
          offset = (Text.encode lexeme.opener).length + pre.length + decoration.length ∧
            EndsLine post ∧ ∀ other otherText count, other.length = raw.length + count →
              (Bytes.newline ∈ other → Bytes.newline ∈ raw) →
                Strips lexeme.kind other decoration otherText returns →
                  (lexeme.withText (Text.encode lexeme.opener ++
                    (pre ++ (other ++ post) ++ Text.encode lexeme.closer))).lines =
                      before ++ ⟨offset, otherText⟩ :: after.map (·.moved count) := by
  rcases hlexeme.delimited (SpanKind.ne_code_of_isComment hkind) with ⟨body, hbody⟩
  have hown := Lexeme.lines_withText hcloser body
  rw [← hbody, show lexeme.withText lexeme.text = lexeme from rfl, hlines] at hown
  rcases List.map_eq_append_iff.1 hown.symm with ⟨rawBefore, rest, hraw, rfl, hrest⟩
  rcases List.map_eq_cons_iff.1 hrest with ⟨raw, rawAfter, rfl, hstrip, rfl⟩
  rcases (strip_eq_iff hkind).1 hstrip with ⟨decoration, returns, hstrips, hoffset⟩
  rcases exists_of_bodyLines_eq hraw with ⟨pre, post, rfl, hplace, hends, hothers⟩
  simp only at hoffset
  refine ⟨pre, raw.text, post, decoration, returns, hbody, hstrips, by omega, hends, ?_⟩
  intro other otherText count hlength hnewline hother
  have hline : (CommentLine.mk raw.offset other).strip lexeme.kind = ⟨offset, otherText⟩ := by
    rw [hother.strip_eq, ← hoffset]
  rw [Lexeme.lines_withText hcloser, hothers _ _ hlength hnewline, List.map_append, List.map_cons,
    hline, List.map_map, List.map_map]
  congr 2
  apply List.map_congr_left
  intro line _
  exact line.strip_moved lexeme.kind count

/-- A reference that is inserted behind a word of a line, and in front of a blank or the end of
the line, becomes a part of the line.  It stands inside the comment, in front of a blank or of the
closing delimiter. -/
theorem Lexeme.lines_insert (hlexeme : lexeme.WellFormed) (hkind : lexeme.kind.isComment = true)
    (hcloser : lexeme.kind = .lineComment → Text.encode lexeme.closer = [])
    (hreference : IsReference reference (some number))
    (hword : ∃ byte ∈ front, Bytes.isBlank byte = false)
    (hbehind : isBoundary behind.head? = true)
    (hlines : lexeme.lines = before ++ ⟨offset, front ++ behind⟩ :: after) :
    ∃ left right, lexeme.text = left ++ right ∧ left.length = offset + front.length ∧
      (Text.encode lexeme.opener).length < left.length ∧
        (Text.encode lexeme.closer).length ≤ right.length ∧
          (isBoundary right.head? = true ∨ right = Text.encode lexeme.closer) ∧
            (lexeme.withText (left ++ (reference ++ right))).lines =
              before ++ ⟨offset, front ++ (reference ++ behind)⟩ ::
                after.map (·.moved reference.length) := by
  rcases exists_raw_of_lines_eq hlexeme hkind hcloser hlines with
    ⟨pre, raw, post, decoration, returns, hbody, hstrips, hoffset, hends, hothers⟩
  have hpieces := hstrips.pieces
  have hpos : 0 < front.length := by
    rcases hword with ⟨byte, hbyte, -⟩
    exact List.length_pos_of_mem hbyte
  refine ⟨Text.encode lexeme.opener ++ (pre ++ (decoration ++ front)),
    behind ++ (returns ++ (post ++ Text.encode lexeme.closer)), ?_, ?_, ?_, ?_, ?_, ?_⟩
  · rw [hbody, hpieces]
    simp
  · simp only [List.length_append]
    omega
  · simp only [List.length_append]
    omega
  · simp only [List.length_append]
    omega
  · -- The line goes on, or its carriage returns follow, or the next line, or the comment ends.
    cases behind with
    | cons byte behind => exact Or.inl hbehind
    | nil =>
        cases hreturns : returns with
        | cons byte more =>
            have hbyte := hstrips.ends.all byte (by rw [hreturns]; exact List.mem_cons_self)
            apply Or.inl
            rw [hbyte]
            rfl
        | nil =>
            rcases hends with rfl | hhead
            · exact Or.inr rfl
            · rcases List.head?_eq_some_iff.1 hhead with ⟨post, rfl⟩
              exact Or.inl rfl
  · have hlength : (decoration ++ (front ++ (reference ++ behind) ++ returns)).length =
        raw.length + reference.length := by
      rw [hpieces]
      simp only [List.length_append]
      omega
    have hnewline : Bytes.newline ∈ decoration ++ (front ++ (reference ++ behind) ++ returns) →
        Bytes.newline ∈ raw := by
      have hnot : Bytes.newline ∉ reference := fun hmem => by
        cases hreference.solid _ hmem
      rw [hpieces]
      simp only [List.mem_append, hnot, false_or]
      exact id
    rw [← hothers _ _ _ hlength hnewline (hstrips.insert hword hreference)]
    simp only [List.append_assoc]

/-! ## Findings -/

/-- Two texts have the newlines of both of them. -/
theorem newlineCount_append (first second : Bytes) :
    Bytes.newlineCount (first ++ second) =
      Bytes.newlineCount first + Bytes.newlineCount second :=
  List.count_append

section Findings

variable {left right inserted back : Bytes} {more : List CommentLine} {kind : SpanKind}

/-- Inserted bytes without a newline do not change the number of newlines in front of a place. -/
theorem newlineCount_take_insert (hline : Bytes.newline ∉ inserted) {count : Nat}
    (hbehind : left.length ≤ count) :
    Bytes.newlineCount ((left ++ (inserted ++ right)).take (inserted.length + count)) =
      Bytes.newlineCount ((left ++ right).take count) := by
  rcases Nat.exists_eq_add_of_le hbehind with ⟨inner, rfl⟩
  have hshift : inserted.length + (left.length + inner) =
      left.length + (inserted.length + inner) := by
    omega
  rw [hshift, List.take_length_add_append, List.take_length_add_append,
    List.take_length_add_append, newlineCount_append, newlineCount_append, newlineCount_append,
    Bytes.newlineCount, Bytes.newlineCount, Bytes.newlineCount, List.count_eq_zero.2 hline,
    Nat.zero_add]

/-- What is found behind inserted bytes stands further on, and is the same otherwise. -/
theorem findingsAt_behind {found : List Hit} (htexts : more.map (·.text) = after.map (·.text))
    (hline : Bytes.newline ∉ inserted)
    (hbegins : ∀ hit ∈ found, before.length < hit.line ∨
      hit.line = before.length ∧ front.length ≤ hit.stop)
    (hoffsets : ∀ hit ∈ found,
      hitOffset (before ++ ⟨offset, front ++ (inserted ++ back)⟩ :: more)
          (hit.moved before.length inserted.length) =
        inserted.length + hitOffset (before ++ ⟨offset, front ++ back⟩ :: after) hit ∧
      left.length ≤ hitOffset (before ++ ⟨offset, front ++ back⟩ :: after) hit) :
    findingsAt kind (left ++ (inserted ++ right))
        (before ++ ⟨offset, front ++ (inserted ++ back)⟩ :: more)
        (found.map (·.moved before.length inserted.length)) =
      (findingsAt kind (left ++ right) (before ++ ⟨offset, front ++ back⟩ :: after) found).map
        (·.moved inserted.length 0) := by
  induction found with
  | nil => rfl
  | cons hit rest ih =>
      rcases List.forall_mem_cons.1 hbegins with ⟨hhere, hmore⟩
      rcases List.forall_mem_cons.1 hoffsets with ⟨⟨hoffset, hplace⟩, hothers⟩
      rw [List.map_cons, findingsAt, findingsAt, List.map_cons, ih hmore hothers, List.head?_map,
        payloadBytes_behind offset rest.head? htexts (hit.line_moved _ _) rfl hhere, hoffset,
        Hit.issue_moved, newlineCount_take_insert hline hplace]
      simp only [Finding.moved, Nat.zero_add]

/-- What is found in lines, one of which gets bytes inserted behind a hit, if the offsets of the
hits are known. -/
theorem findingsAt_change {first second : List Hit} {hit : Hit} (number : Nat)
    (htexts : more.map (·.text) = after.map (·.text)) (hline : Bytes.newline ∉ inserted)
    (hhit : hit.line = before.length ∧ hit.start ≤ front.length ∧ front.length ≤ hit.stop)
    (hfirst : ∀ other ∈ first, other.line < before.length ∨
      other.line = before.length ∧ other.start ≤ front.length)
    (hplaces : ∀ other ∈ first ++ [hit],
      hitOffset (before ++ ⟨offset, front ++ (inserted ++ back)⟩ :: more) other =
        hitOffset (before ++ ⟨offset, front ++ back⟩ :: after) other ∧
      hitOffset (before ++ ⟨offset, front ++ back⟩ :: after) other ≤ left.length)
    (hsecond : ∀ other ∈ second, before.length < other.line ∨
      other.line = before.length ∧ front.length ≤ other.stop)
    (hoffsets : ∀ other ∈ second,
      hitOffset (before ++ ⟨offset, front ++ (inserted ++ back)⟩ :: more)
          (other.moved before.length inserted.length) =
        inserted.length + hitOffset (before ++ ⟨offset, front ++ back⟩ :: after) other ∧
      left.length ≤ hitOffset (before ++ ⟨offset, front ++ back⟩ :: after) other) :
    ∃ pre finding post,
      findingsAt kind (left ++ right) (before ++ ⟨offset, front ++ back⟩ :: after)
          (first ++ hit :: second) = pre ++ finding :: post ∧
        pre.length = first.length ∧
        findingsAt kind (left ++ (inserted ++ right))
          (before ++ ⟨offset, front ++ (inserted ++ back)⟩ :: more)
          (first ++ hit.reported inserted.length number ::
            second.map (·.moved before.length inserted.length)) =
            pre ++ { finding with issue := some number } ::
              post.map (·.moved inserted.length 0) := by
  induction first with
  | nil =>
      rcases hplaces hit (List.mem_singleton.2 rfl) with ⟨hplace, hinside⟩
      have hsame : hitOffset (before ++ ⟨offset, front ++ (inserted ++ back)⟩ :: more)
            (hit.reported inserted.length number) =
          hitOffset (before ++ ⟨offset, front ++ back⟩ :: after) hit := hplace
      have hsameLine : (hit.reported inserted.length number).line = hit.line := rfl
      have hstop : (hit.reported inserted.length number).stop =
          (hit.moved before.length inserted.length).stop := by
        rw [Hit.moved, if_pos hhit.1]
        rfl
      refine ⟨[], _, _, rfl, rfl, ?_⟩
      rw [List.nil_append, findingsAt, findingsAt_behind htexts hline hsecond hoffsets,
        List.head?_map, payloadBytes_behind offset second.head? htexts hsameLine hstop
          (Or.inr ⟨hhit.1, hhit.2.2⟩), hsame, List.take_append_of_le_length hinside,
        List.take_append_of_le_length hinside]
      rfl
  | cons other rest ih =>
      rcases List.forall_mem_cons.1 hfirst with ⟨-, hrest⟩
      rcases List.forall_mem_cons.1 hplaces with ⟨⟨hplace, hinside⟩, hothers⟩
      rcases ih hrest hothers with ⟨pre, finding, post, hold, hlength, hnew⟩
      have hpayload : payloadBytes (before ++ ⟨offset, front ++ (inserted ++ back)⟩ :: more) other
            (rest ++ hit.reported inserted.length number ::
              second.map (·.moved before.length inserted.length)).head? =
          payloadBytes (before ++ ⟨offset, front ++ back⟩ :: after) other
            (rest ++ hit :: second).head? := by
        cases rest with
        | nil =>
            exact payloadBytes_in_front other htexts rfl rfl
              (Or.inr ⟨hhit.1, hhit.2.1⟩)
        | cons next rest =>
            exact payloadBytes_in_front other htexts rfl rfl (hrest next List.mem_cons_self)
      rw [List.cons_append, List.cons_append, findingsAt, findingsAt, hold, hnew, hpayload, hplace,
        List.take_append_of_le_length hinside, List.take_append_of_le_length hinside]
      exact ⟨_ :: pre, finding, post, rfl, congrArg (· + 1) hlength, rfl⟩

end Findings

/-! ## Hits and their offsets -/

section Offsets

variable {first second : CommentLine} {continued more : List CommentLine}

/-- A change of a line does not move the hits on it and in front of it. -/
theorem hitOffset_in_front {hit : Hit} (hsame : second.offset = first.offset)
    (hends : hit.line ≤ before.length) :
    hitOffset (before ++ second :: more) hit = hitOffset (before ++ first :: after) hit := by
  rcases Nat.lt_or_eq_of_le hends with hbefore | hhere
  · rw [hitOffset, hitOffset, List.getElem?_append_left hbefore,
      List.getElem?_append_left hbefore]
  · rw [hitOffset, hitOffset, hhere, List.getElem?_append_right (Nat.le_refl _),
      List.getElem?_append_right (Nat.le_refl _), Nat.sub_self]
    simp only [List.getElem?_cons_zero, Option.map_some, Option.getD_some, hsame]

/-- Bytes that are inserted into a line move the hits behind them. -/
theorem hitOffset_behind {hit : Hit} (count : Nat) (hsame : second.offset = first.offset)
    (hbegins : before.length ≤ hit.line) (hinside : hit.line < (before ++ first :: after).length) :
    hitOffset (before ++ second :: (after.map (·.moved count) ++ continued))
        (hit.moved before.length count) =
      count + hitOffset (before ++ first :: (after ++ continued)) hit := by
  rcases Nat.eq_or_lt_of_le hbegins with hhere | hbehind
  · rw [Hit.moved, if_pos hhere.symm, hitOffset, hitOffset]
    simp only [← hhere]
    rw [List.getElem?_append_right (Nat.le_refl _), List.getElem?_append_right (Nat.le_refl _),
      Nat.sub_self]
    simp only [List.getElem?_cons_zero, Option.map_some, Option.getD_some, hsame, LineHit.moved]
    omega
  · obtain ⟨index, hindex⟩ : ∃ index, hit.line - before.length = index + 1 :=
      ⟨hit.line - before.length - 1, by omega⟩
    rw [List.length_append, List.length_cons] at hinside
    have hafter : index < after.length := by omega
    rw [Hit.moved, if_neg (by omega), hitOffset, hitOffset, List.getElem?_append_right hbegins,
      List.getElem?_append_right hbegins, hindex, List.getElem?_cons_succ, List.getElem?_cons_succ,
      List.getElem?_append_left (by rw [List.length_map]; exact hafter),
      List.getElem?_append_left hafter, List.getElem?_map, List.getElem?_eq_getElem hafter]
    simp only [Option.map_some, Option.getD_some, CommentLine.moved, Nat.add_assoc]

/-- Hits behind a place in a line have their offsets behind it. -/
theorem le_hitOffset_of_behind {hit : Hit} {count : Nat}
    (hlines : (before ++ first :: after).Pairwise fun first second =>
      first.offset + first.text.length ≤ second.offset)
    (hcount : count ≤ first.text.length)
    (hbegins : before.length < hit.line ∨ hit.line = before.length ∧ count ≤ hit.start)
    (hinside : hit.line < (before ++ first :: after).length) :
    first.offset + count ≤ hitOffset (before ++ first :: (after ++ continued)) hit := by
  rcases hbegins with hbehind | ⟨hhere, hstart⟩
  · obtain ⟨index, hindex⟩ : ∃ index, hit.line - before.length = index + 1 :=
      ⟨hit.line - before.length - 1, by omega⟩
    rw [List.length_append, List.length_cons] at hinside
    have hafter : index < after.length := by omega
    have hnext := (List.pairwise_cons.1 (List.pairwise_append.1 hlines).2.1).1 after[index]
      (List.getElem_mem hafter)
    rw [hitOffset, List.getElem?_append_right (Nat.le_of_lt hbehind), hindex,
      List.getElem?_cons_succ, List.getElem?_append_left hafter, List.getElem?_eq_getElem hafter]
    simp only [Option.map_some, Option.getD_some]
    omega
  · rw [hitOffset, hhere, List.getElem?_append_right (Nat.le_refl _), Nat.sub_self]
    simp only [List.getElem?_cons_zero, Option.map_some, Option.getD_some]
    omega

end Offsets

/-- What is found in the lines of a comment, one of which gets bytes inserted behind a hit. -/
theorem findingsAt_insert (kind : SpanKind) {left inserted back : Bytes} (right : Bytes)
    {first second : List Hit} {hit : Hit} {continued : List CommentLine} (number : Nat)
    (hnewline : Bytes.newline ∉ inserted) (hleft : left.length = offset + front.length)
    (hlines : (before ++ ⟨offset, front ++ back⟩ :: after).Pairwise fun first second =>
      first.offset + first.text.length ≤ second.offset)
    (hhit : hit.line = before.length ∧ hit.start ≤ front.length ∧ hit.stop = front.length)
    (hordered : (first ++ hit :: second).Pairwise Hit.Before)
    (hsorted : (first ++ hit :: second).Pairwise fun first second =>
      hitOffset (before ++ ⟨offset, front ++ back⟩ :: (after ++ continued)) first <
        hitOffset (before ++ ⟨offset, front ++ back⟩ :: (after ++ continued)) second)
    (hsecond : ∀ other ∈ second, (before.length < other.line ∨
      other.line = before.length ∧ front.length ≤ other.start) ∧ other.start ≤ other.stop ∧
        other.line < (before ++ ⟨offset, front ++ back⟩ :: after).length) :
    ∃ pre finding post,
      findingsAt kind (left ++ right) (before ++ ⟨offset, front ++ back⟩ :: (after ++ continued))
          (first ++ hit :: second) = pre ++ finding :: post ∧
        pre.length = first.length ∧
        findingsAt kind (left ++ (inserted ++ right))
          (before ++ ⟨offset, front ++ (inserted ++ back)⟩ ::
            (after.map (·.moved inserted.length) ++ continued))
          (first ++ hit.reported inserted.length number ::
            second.map (·.moved before.length inserted.length)) =
            pre ++ { finding with issue := some number } ::
              post.map (·.moved inserted.length 0) := by
  have hhitOffset : hitOffset (before ++ ⟨offset, front ++ back⟩ :: (after ++ continued)) hit ≤
      left.length := by
    rw [hitOffset, hhit.1, List.getElem?_append_right (Nat.le_refl _), Nat.sub_self, hleft]
    exact Nat.add_le_add_left hhit.2.1 _
  have hbefore : ∀ other ∈ first, other.Before hit := fun other hother =>
    (List.pairwise_append.1 hordered).2.2 other hother hit List.mem_cons_self
  refine findingsAt_change number ?_ hnewline ⟨hhit.1, hhit.2.1, Nat.le_of_eq hhit.2.2.symm⟩ ?_ ?_
    ?_ ?_
  · rw [List.map_append, List.map_append, map_text_moved]
  · intro other hother
    rcases hbefore other hother with hless | ⟨hsame, hless⟩
    · exact Or.inl (Nat.lt_of_lt_of_eq hless hhit.1)
    · exact Or.inr ⟨hsame.trans hhit.1, Nat.le_trans (Nat.le_of_lt hless) hhit.2.1⟩
  · intro other hother
    rcases List.mem_append.1 hother with hother | hother
    · have hless := (List.pairwise_append.1 hsorted).2.2 other hother hit List.mem_cons_self
      refine ⟨hitOffset_in_front rfl ?_, Nat.le_trans (Nat.le_of_lt hless) hhitOffset⟩
      rcases hbefore other hother with hless | ⟨hsame, -⟩ <;> omega
    · rw [List.mem_singleton.1 hother]
      exact ⟨hitOffset_in_front rfl (Nat.le_of_eq hhit.1), hhitOffset⟩
  · intro other hother
    rcases hsecond other hother with ⟨hbegins, hstop, -⟩
    rcases hbegins with hless | ⟨hsame, hstart⟩
    · exact Or.inl hless
    · exact Or.inr ⟨hsame, Nat.le_trans hstart hstop⟩
  · intro other hother
    rcases hsecond other hother with ⟨hbegins, -, hinside⟩
    refine ⟨hitOffset_behind inserted.length rfl ?_ hinside, ?_⟩
    · rcases hbegins with hless | ⟨hsame, -⟩ <;> omega
    · rw [hleft]
      refine le_hitOffset_of_behind hlines ?_ hbegins hinside
      rw [List.length_append]
      exact Nat.le_add_right _ _

/-- A policy selects the same hits if some of them are changed. -/
theorem MarkerPolicy.select_change {policy : MarkerPolicy} {hit : Hit}
    {first second front back : List Hit} (hfirst : hit ∉ first) (hsecond : hit ∉ second)
    (hselect : policy.select (first ++ hit :: second) = front ++ hit :: back) (moved : Hit)
    (change : Hit → Hit) :
    policy.select (first ++ moved :: second.map change) = front ++ moved :: back.map change ∧
      back ⊆ second := by
  cases policy with
  | all =>
      rcases (List.append_cons_inj_of_notMem hfirst hsecond).1 hselect with ⟨rfl, -, rfl⟩
      exact ⟨rfl, List.Subset.refl _⟩
  | first =>
      cases first with
      | nil =>
          cases front with
          | nil =>
              rcases List.cons.inj hselect with ⟨-, rfl⟩
              exact ⟨rfl, List.nil_subset _⟩
          | cons own front =>
              have hnil := (List.cons.inj hselect).2
              cases front <;> cases hnil
      | cons own first =>
          cases front with
          | nil =>
              rcases List.cons.inj hselect with ⟨rfl, -⟩
              exact absurd List.mem_cons_self hfirst
          | cons other front =>
              have hnil := (List.cons.inj hselect).2
              cases front <;> cases hnil

/-! ## A comment -/

/-- The text around a marker without an issue in one of the lines of a comment. -/
theorem exists_line_of_hit {marker : Bytes} {lines : List CommentLine} {found : List Hit}
    {hit : Hit} (hne : marker ≠ []) (hsolid : Solid marker)
    (hfound : hits marker lines = .ok found) (hmem : hit ∈ found) (hissue : hit.issue = none) :
    ∃ before offset front behind after,
      lines = before ++ ⟨offset, front ++ (marker ++ behind)⟩ :: after ∧
        hit = ⟨⟨front.length, front.length + marker.length, none⟩, before.length⟩ ∧
          isBoundary front.getLast? = true ∧ isBoundary behind.head? = true := by
  rcases isHit_of_mem_hits hne hsolid hfound hit hmem with
    ⟨line, hline, front, reference, behind, htext, hreference, hfront, hbehind, hstart, hstop⟩
  rw [hissue] at hreference
  cases hreference
  rcases List.getElem?_eq_some_iff.1 hline with ⟨hindex, hget⟩
  have hlength : (lines.take hit.line).length = hit.line :=
    List.length_take_of_le (Nat.le_of_lt hindex)
  refine ⟨lines.take hit.line, line.offset, front, behind, lines.drop (hit.line + 1), ?_, ?_, ?_,
    hbehind⟩
  · have hown : (⟨line.offset, front ++ (marker ++ behind)⟩ : CommentLine) = line := by
      rw [← List.nil_append behind, ← htext]
    rw [hown, ← hget, List.getElem_cons_drop, List.take_append_drop]
  · rw [hlength]
    rcases hit with ⟨⟨start, stop, issue⟩, number⟩
    simp only at hstart hstop hissue
    rw [Nat.zero_add] at hstart
    rw [hstop, hstart, hissue]
    rfl
  · rw [Option.or_none] at hfront
    exact hfront

/-- A reference behind a marker without one becomes a part of the hit of the marker, if that hit
counts, and moves the hits behind it.  The same hits count. -/
theorem select_hits_insert {policy : MarkerPolicy} {marker : Bytes} {found first second : List Hit}
    (hne : marker ≠ []) (hsolid : Solid marker) (hreference : IsReference reference (some number))
    (hshort : reference.length ≤ IssueTooLong.limit + 3)
    (hfront : isBoundary front.getLast? = true) (hbehind : isBoundary behind.head? = true)
    (hfound : hits marker (before ++ ⟨offset, front ++ (marker ++ behind)⟩ :: after) = .ok found)
    (hselected : policy.select found = first ++
      ⟨⟨front.length, front.length + marker.length, none⟩, before.length⟩ :: second) :
    (∀ other ∈ second, (before.length < other.line ∨
        other.line = before.length ∧ front.length + marker.length ≤ other.start) ∧
      other.start ≤ other.stop ∧
      other.line < (before ++ ⟨offset, front ++ (marker ++ behind)⟩ :: after).length) ∧
    ∀ more, more.map (·.text) = after.map (·.text) → ∃ moved,
      hits marker (before ++ ⟨offset, front ++ (marker ++ (reference ++ behind))⟩ :: more) =
          .ok moved ∧ moved ≠ [] ∧
        policy.select moved = first ++
          Hit.reported ⟨⟨front.length, front.length + marker.length, none⟩, before.length⟩
            reference.length number :: second.map (·.moved before.length reference.length) := by
  rcases hits_insert hne hsolid hreference hshort hfront hbehind hfound with
    ⟨left, right, rfl, hright, hnew⟩
  have hordered := (hitsFrom_exact hne hsolid hfound).1
  have hirrefl : ∀ hit : Hit, ¬ hit.Before hit := by
    intro hit hbefore
    rcases hbefore with hless | ⟨-, hless⟩ <;> exact Nat.lt_irrefl _ hless
  -- The hit occurs only once, so what the policy selects is split at the same place.
  rcases List.pairwise_append.1 hordered with ⟨-, hrest, hcross⟩
  rcases MarkerPolicy.select_change
    (fun hmem => hirrefl _ (hcross _ hmem _ List.mem_cons_self))
    (fun hmem => hirrefl _ ((List.pairwise_cons.1 hrest).1 _ hmem)) hselected
    (Hit.reported ⟨⟨front.length, front.length + marker.length, none⟩, before.length⟩
      reference.length number) (·.moved before.length reference.length) with ⟨hselect, hsubset⟩
  constructor
  · intro other hother
    have hmem := List.mem_append_right left (List.mem_cons_of_mem
      (⟨⟨front.length, front.length + marker.length, none⟩, before.length⟩ : Hit)
      (hsubset hother))
    rcases isHit_of_mem_hits hne hsolid hfound other hmem with
      ⟨line, hline, _, _, _, -, -, -, -, -, hstop⟩
    refine ⟨hright other (hsubset hother), ?_, (List.getElem?_eq_some_iff.1 hline).1⟩
    rw [hstop]
    exact Nat.le_add_right _ _
  · intro more hmore
    exact ⟨_, hnew more hmore, by simp, hselect⟩

/-- A reference behind a marker in one of the lines of a comment becomes the issue of the marker,
and moves what is found behind it. -/
theorem findings_insert {policy : MarkerPolicy} {marker left : Bytes}
    {found first second : List Hit} {continued : List CommentLine} (kind : SpanKind)
    (right : Bytes) (hne : marker ≠ [])
    (hsolid : Solid marker) (hreference : IsReference reference (some number))
    (hshort : reference.length ≤ IssueTooLong.limit + 3)
    (hfront : isBoundary front.getLast? = true) (hbehind : isBoundary behind.head? = true)
    (hlines : (before ++ ⟨offset, front ++ (marker ++ behind)⟩ :: after).Pairwise
      fun first second => first.offset + first.text.length ≤ second.offset)
    (hleft : left.length = offset + (front.length + marker.length))
    (hfound : hits marker (before ++ ⟨offset, front ++ (marker ++ behind)⟩ :: after) = .ok found)
    (hsorted : found.Pairwise fun first second =>
      hitOffset (before ++ ⟨offset, front ++ (marker ++ behind)⟩ :: after ++ continued) first <
        hitOffset (before ++ ⟨offset, front ++ (marker ++ behind)⟩ :: after ++ continued) second)
    (hselected : policy.select found = first ++
      ⟨⟨front.length, front.length + marker.length, none⟩, before.length⟩ :: second) :
    ∃ pre finding post moved,
      findingsAt kind (left ++ right)
          (before ++ ⟨offset, front ++ (marker ++ behind)⟩ :: after ++ continued)
          (policy.select found) = pre ++ finding :: post ∧
        pre.length = first.length ∧
        hits marker (before ++ ⟨offset, front ++ (marker ++ (reference ++ behind))⟩ ::
          after.map (·.moved reference.length)) = .ok moved ∧ moved ≠ [] ∧
        findingsAt kind (left ++ (reference ++ right))
          (before ++ ⟨offset, front ++ (marker ++ (reference ++ behind))⟩ ::
            after.map (·.moved reference.length) ++ continued) (policy.select moved) =
          pre ++ { finding with issue := some number } ::
            post.map (·.moved reference.length 0) := by
  have hordered := (hitsFrom_exact hne hsolid hfound).1.sublist (policy.select_sublist found)
  have hselectSorted := hsorted.sublist (policy.select_sublist found)
  rcases select_hits_insert hne hsolid hreference hshort hfront hbehind hfound hselected with
    ⟨hsecond, hmoved⟩
  rcases hmoved _ (map_text_moved after reference.length) with
    ⟨moved, hmoved, hnonempty, hselectMoved⟩
  rw [hselected] at hordered hselectSorted
  have hnewline : Bytes.newline ∉ reference := by
    intro hmem
    cases hreference.solid _ hmem
  rw [← List.length_append] at hleft hsecond hselectMoved hselected hordered hselectSorted
  rw [← List.append_assoc front] at hlines hsecond hselectSorted hmoved
  rw [List.append_assoc, List.cons_append] at hselectSorted
  rcases findingsAt_insert kind right number hnewline hleft hlines
    ⟨rfl, by rw [List.length_append]; exact Nat.le_add_right _ _, rfl⟩ hordered hselectSorted
    hsecond with ⟨pre, finding, post, hold, hlength, hnew⟩
  refine ⟨pre, finding, post, moved, ?_, hlength, ?_, hnonempty, ?_⟩
  · rw [hselected, ← List.append_assoc front, List.append_assoc before, List.cons_append, hold]
  · rw [← List.append_assoc front, hmoved]
  · rw [hselectMoved, ← List.append_assoc front, List.append_assoc before, List.cons_append, hnew]

/-- Holds if a marker is found in a comment. -/
def HasHits (marker : Bytes) (lexeme : Lexeme) : Prop :=
  ∃ found, hits marker lexeme.lines = .ok found ∧ found ≠ []

variable {query : Query} {following : List Lexeme} {pre post : List Finding} {finding : Finding}

/-- What another text of a comment has to keep so that only the findings of the comment itself
change: one of them gets an issue, and those behind it stand a number of bytes further on. -/
structure Reports (query : Query) (comment other : Lexeme) (following : List Lexeme)
    (pre : List Finding) (finding : Finding) (post : List Finding) (issue : Option Nat)
    (count : Nat) : Prop where
  kind : other.kind = comment.kind
  found : HasHits query.marker.bytes comment
  foundAgain : HasHits query.marker.bytes other
  length : other.text.length = comment.text.length + count
  lines : Bytes.newlineCount other.text = Bytes.newlineCount comment.text
  findings : commentFindings query other following =
    .ok (pre ++ { finding with issue := issue } :: post.map (·.moved count 0))

/-- A reference behind a marker of a comment becomes the issue of the marker, and moves what is
found behind it.  It stands inside the comment, in front of a blank or of the closing delimiter. -/
theorem commentFindings_insert (hlexeme : lexeme.WellFormed) (hkind : lexeme.kind.isComment = true)
    (hcloser : lexeme.kind = .lineComment → Text.encode lexeme.closer = [])
    (hreference : IsReference reference (some number))
    (hshort : reference.length ≤ IssueTooLong.limit + 3)
    (hhere : commentFindings query lexeme following = .ok (pre ++ finding :: post))
    (hissue : finding.issue = none) :
    ∃ left right, lexeme.text = left ++ right ∧
      left.length = finding.offset + query.marker.bytes.length ∧
      (Text.encode lexeme.opener).length < left.length ∧
      (Text.encode lexeme.closer).length ≤ right.length ∧
      (isBoundary right.head? = true ∨ right = Text.encode lexeme.closer) ∧
      Reports query lexeme (lexeme.withText (left ++ (reference ++ right))) following pre finding
        post (some number) reference.length := by
  have hne : query.marker.bytes ≠ [] := query.marker.bytes_ne_nil
  have hsolid := query.marker.solid_bytes
  rcases exists_hits_of_commentFindings (by simp) hhere with
    ⟨found, continued, hfound, hnonempty, hcontinued, hfindings⟩
  rcases exists_of_findingsAt_eq hfindings.symm with
    ⟨selectedFirst, hit, selectedSecond, hselected, hlength, hoffset, hsameIssue⟩
  have hmem : hit ∈ found := by
    apply (query.policy.select_sublist found).subset
    rw [hselected]
    exact List.mem_append_right _ List.mem_cons_self
  rcases exists_line_of_hit hne hsolid hfound hmem (hsameIssue.symm.trans hissue) with
    ⟨before, offset, front, behind, after, hlines, hhit, hfront, hbehind⟩
  have hhits := hfound
  have hword : ∃ byte ∈ front ++ query.marker.bytes, Bytes.isBlank byte = false := by
    rcases List.exists_mem_of_ne_nil _ hne with ⟨byte, hbyte⟩
    exact ⟨byte, List.mem_append_right _ hbyte, hsolid byte hbyte⟩
  have hplaced : lexeme.lines =
      before ++ ⟨offset, front ++ query.marker.bytes ++ behind⟩ :: after := by
    rw [hlines, List.append_assoc]
  rcases Lexeme.lines_insert hlexeme hkind hcloser hreference hword hbehind hplaced with
    ⟨left, right, htext, hleft, hopener, hend, hright, hchanged⟩
  -- What is found in the old lines and in the new ones.
  have hsorted := pairwise_hitOffset_lines hlexeme hkind hne hsolid hfound
    (continued.map (CommentLine.mk 0))
  rw [hlines] at hsorted hhits
  rw [hhit] at hselected
  rcases findings_insert lexeme.kind right hne hsolid hreference hshort hfront hbehind
    (by rw [← hlines]; exact Span.pairwise_commentLines _ hkind)
    (by rw [hleft, List.length_append]) hhits hsorted hselected with
    ⟨oldPre, oldFinding, oldPost, moved, hold, hsize, hmoved, hmovedNonempty, hnew⟩
  have hsame : pre ++ finding :: post = oldPre ++ oldFinding :: oldPost := by
    rw [← hold, hfindings, htext, hlines]
  rcases List.append_inj hsame (hlength.symm.trans hsize.symm) with ⟨rfl, hrestSame⟩
  rcases List.cons.inj hrestSame with ⟨rfl, rfl⟩
  rw [List.append_assoc] at hchanged
  rw [← hchanged] at hmoved hnew
  refine ⟨left, right, htext, ?_, hopener, hend, hright, ⟨rfl, ⟨found, hfound, hnonempty⟩,
    ⟨moved, hmoved, hmovedNonempty⟩, ?_, ?_, ?_⟩⟩
  · rw [hleft, hoffset, hlines, hhit, List.append_assoc, List.cons_append, hitOffset,
      List.getElem?_append_right (Nat.le_refl _), Nat.sub_self, List.length_append]
    simp only [List.getElem?_cons_zero, Option.map_some, Option.getD_some, Nat.add_assoc]
  · rw [htext]
    simp only [Lexeme.withText, List.length_append]
    omega
  · have hnone : Bytes.newlineCount reference = 0 := by
      refine List.count_eq_zero.2 fun hnewline => ?_
      cases hreference.solid _ hnewline
    rw [htext]
    simp only [Lexeme.withText, newlineCount_append, hnone, Nat.zero_add]
  · rw [commentFindings_of_hits hmoved hmovedNonempty hcontinued]
    exact congrArg Except.ok hnew

end CommentMarkers
