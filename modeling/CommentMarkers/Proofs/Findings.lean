import CommentMarkers.Annotation.Extraction
import CommentMarkers.Proofs.CommentHits
import CommentMarkers.Proofs.CommentLines
import CommentMarkers.Proofs.Lexing
import CommentMarkers.Proofs.Payloads
import CommentMarkers.Scan.LineTracker

/-!
# Findings

What extraction says about a source depends on the lexemes of the source, and their places only
add to the offsets and the lines that it answers.  This file states what is found in a list of
lexemes without giving them places, and proves that extraction finds the same.

Main results:

- Theorem `commentLines_spanAt`: the lines of a comment move with it.
- Theorem `extract_placeSpans`: extraction from placed lexemes answers their findings.
- Theorem `pairwise_findings`: findings stand in the order of their offsets.
- Theorems `exists_findings_of_annotations` and `exists_annotations_of_findings`: the annotations of
  a source tell of what is found in its lexemes.
-/

namespace CommentMarkers

/-! ## Findings and their places -/

/-- What extraction says about a marker, except how far its comment reaches.  The offset and the
line are counted from the beginning of a text. -/
structure Finding where
  payload : String
  kind : SpanKind
  issue : Option Nat
  offset : Nat
  line : Nat
  deriving DecidableEq, Repr

/-- A finding that has more text in front of it. -/
def Finding.moved (finding : Finding) (bytes lines : Nat) : Finding :=
  { finding with offset := bytes + finding.offset, line := lines + finding.line }

/-- Moving a finding twice. -/
theorem Finding.moved_moved (finding : Finding) (bytes lines moreBytes moreLines : Nat) :
    (finding.moved bytes lines).moved moreBytes moreLines =
      finding.moved (moreBytes + bytes) (moreLines + lines) := by
  simp only [moved, Nat.add_assoc]

/-- The finding that an annotation tells of. -/
def Annotation.finding (note : Annotation) : Finding :=
  ⟨note.payload, note.kind, note.issue, note.place.offset, note.place.line⟩

/-- A line that has more text in front of it. -/
def CommentLine.moved (line : CommentLine) (bytes : Nat) : CommentLine :=
  ⟨bytes + line.offset, line.text⟩

/-- Moving over a text adds its newlines to the line. -/
theorem Position.line_advance (place : Position) (text : Bytes) :
    (place.advance text).line = place.line + Bytes.newlineCount text := by
  rw [advance_eq]

/-! ## Lines of a lexeme -/

/-- The lines of a comment, with their offsets in the comment. -/
def Lexeme.lines (lexeme : Lexeme) : List CommentLine :=
  (lexeme.spanAt .first).commentLines lexeme.text

/-- Placing lines further on moves them. -/
theorem placeLines_moved (bytes offset : Nat) (texts : List Bytes) :
    placeLines (bytes + offset) texts = (placeLines offset texts).map (·.moved bytes) := by
  induction texts generalizing offset with
  | nil => rfl
  | cons text rest ih =>
      rw [placeLines, placeLines, List.map_cons, ← ih]
      simp only [CommentLine.moved, Nat.add_assoc]

/-- Stripping a line does not depend on its place. -/
theorem CommentLine.strip_moved (kind : SpanKind) (line : CommentLine) (bytes : Nat) :
    (line.moved bytes).strip kind = (line.strip kind).moved bytes := by
  have hspace : ∀ line : CommentLine,
      (line.moved bytes).dropSpace = line.dropSpace.moved bytes := by
    intro line
    unfold dropSpace
    by_cases hhead : line.text.head? = some Bytes.space
    · rw [if_pos hhead, if_pos (by exact hhead)]
      simp only [moved, dropFront, Nat.add_assoc]
    · rw [if_neg hhead, if_neg (by exact hhead)]
  have hstar : (line.moved bytes).dropStar = line.dropStar.moved bytes := by
    have hfront : (line.moved bytes).dropFront ((line.moved bytes).indentation + 1) =
        (line.dropFront (line.indentation + 1)).moved bytes := by
      simp only [moved, dropFront, indentation, Nat.add_assoc]
    unfold dropStar
    by_cases hstar : line.text[line.indentation]? = some Bytes.star
    · rw [if_pos hstar, if_pos (by exact hstar), hfront, hspace]
    · rw [if_neg hstar, if_neg (by exact hstar)]
  unfold strip
  split
  · rw [hspace]
    rfl
  · rw [hstar]
    rfl

variable {lexeme : Lexeme} {front back : Bytes} {place : Position}

/-- The delimiters of a construct fit into its text. -/
theorem Lexeme.WellFormed.delimiters_le (hlexeme : lexeme.WellFormed)
    (hkind : lexeme.kind ≠ .code) :
    (Text.encode lexeme.opener).length + (Text.encode lexeme.closer).length ≤
      lexeme.text.length := by
  rcases hlexeme.delimited hkind with ⟨body, hbody⟩
  rw [hbody]
  simp only [List.length_append]
  omega

/-- The lines of a comment move with it. -/
theorem commentLines_spanAt (hlexeme : lexeme.WellFormed) (hkind : lexeme.kind ≠ .code)
    (hplace : place.offset = front.length) (back : Bytes) :
    (lexeme.spanAt place).commentLines (front ++ (lexeme.text ++ back)) =
      lexeme.lines.map (·.moved front.length) := by
  have hfits := hlexeme.delimiters_le hkind
  have hraw : (lexeme.spanAt place).rawLines (front ++ (lexeme.text ++ back)) =
      ((lexeme.spanAt .first).rawLines lexeme.text).map (·.moved front.length) := by
    have hstart : (lexeme.spanAt place).bodyStart =
        front.length + (lexeme.spanAt .first).bodyStart := by
      simp only [Span.bodyStart, Lexeme.spanAt, hplace, Position.first, Nat.zero_add]
    have hfirst : (lexeme.spanAt .first).stop = lexeme.text.length := Nat.zero_add _
    have hslice : ∀ start stop, stop ≤ lexeme.text.length →
        Bytes.slice (front ++ (lexeme.text ++ back)) (front.length + start)
          (front.length + stop) = Bytes.slice lexeme.text start stop :=
      fun start stop => slice_inside front lexeme.text back
    unfold Span.rawLines
    by_cases hline : lexeme.kind = .lineComment
    · have hstop : (lexeme.spanAt place).stop = front.length + lexeme.text.length := by
        rw [← hplace]
        rfl
      rw [if_pos (by exact hline), if_pos (by exact hline), hstart, hstop, hfirst,
        hslice _ _ (Nat.le_refl _)]
      rfl
    · have hstop : (lexeme.spanAt place).bodyStop =
          front.length + (lexeme.spanAt .first).bodyStop := by
        simp only [Span.bodyStop, Lexeme.spanAt, hplace, Position.first, Nat.zero_add]
        omega
      have hbody : (lexeme.spanAt place).body (front ++ (lexeme.text ++ back)) =
          (lexeme.spanAt .first).body lexeme.text := by
        rw [Span.body_eq_slice, Span.body_eq_slice, hstart, hstop]
        · exact hslice _ _ (Nat.le_trans (Nat.sub_le _ _) (Nat.le_of_eq hfirst))
        · rw [hfirst]
          exact Nat.le_trans (Nat.le_add_left _ _) hfits
        · simp only [Lexeme.spanAt]
          omega
      rw [if_neg (by exact hline), if_neg (by exact hline), hbody, hstart, placeLines_moved]
  rw [Lexeme.lines, Span.commentLines_eq, Span.commentLines_eq, hraw, List.map_map, List.map_map]
  apply List.map_congr_left
  intro line _
  exact line.strip_moved lexeme.kind front.length

/-- A line of a comment lies inside the comment. -/
theorem Lexeme.WellFormed.line_le (hlexeme : lexeme.WellFormed)
    (hkind : lexeme.kind.isComment = true) :
    ∀ line ∈ lexeme.lines, line.offset + line.text.length ≤ lexeme.text.length := by
  have hcode := SpanKind.ne_code_of_isComment hkind
  have hfits := hlexeme.delimiters_le hcode
  have hstop : (lexeme.spanAt .first).stop = lexeme.text.length := Nat.zero_add _
  have hstart : (lexeme.spanAt .first).bodyStart = (Text.encode lexeme.opener).length :=
    Nat.zero_add _
  intro line hline
  have hplaced := (Span.mem_commentLines_iff hkind (by rw [hstart, hstop]; exact hfits)
    (Nat.le_of_eq hstop)).1 hline
  rcases hplaced.exists_eq_append with ⟨-, -, -, -, -, hend⟩
  rw [hstop] at hend
  exact hend

/-! ## What is found in lexemes -/

/-- A finding behind a text. -/
def Finding.behind (finding : Finding) (text : Bytes) : Finding :=
  finding.moved text.length (Bytes.newlineCount text)

/-- Each hit in the lines of a comment becomes a finding. -/
def findingsAt (kind : SpanKind) (text : Bytes) (lines : List CommentLine) :
    List Hit → List Finding
  | [] => []
  | hit :: rest =>
    { payload := Text.decode (payloadBytes lines hit rest.head?)
      kind := kind
      issue := hit.issue
      offset := hitOffset lines hit
      line := Bytes.newlineCount (text.take (hitOffset lines hit)) } ::
        findingsAt kind text lines rest

/-- Holds of code between two line comments on neighbouring lines. -/
def Lexeme.isLineBreak (lexeme : Lexeme) : Bool :=
  lexeme.kind = .code && Bytes.newlineCount lexeme.text = 1 && Bytes.isBlankText lexeme.text

/-- The texts of the line comments that continue a line comment in front of the lexemes. -/
def continuedTexts (marker : Bytes) : List Lexeme → Except IssueTooLong (List Bytes)
  | gap :: comment :: rest =>
    if gap.isLineBreak && comment.kind = .lineComment then do
      let found ← hits marker comment.lines
      if found.isEmpty then
        let more ← continuedTexts marker rest
        return comment.lines.map (·.text) ++ more
      else return []
    else return []
  | _ => return []

/-- The texts that continue a comment, if the query asks for them. -/
def Query.continuedTexts (query : Query) (lexeme : Lexeme) (following : List Lexeme) :
    Except IssueTooLong (List Bytes) :=
  if query.join && lexeme.kind = .lineComment then
    CommentMarkers.continuedTexts query.marker.bytes following
  else return []

/-- What is found in one comment. -/
def commentFindings (query : Query) (lexeme : Lexeme) (following : List Lexeme) :
    Except IssueTooLong (List Finding) := do
  match ← hits query.marker.bytes lexeme.lines with
  | [] => return []
  | found =>
    let more ← query.continuedTexts lexeme following
    return findingsAt lexeme.kind lexeme.text (lexeme.lines ++ more.map (CommentLine.mk 0))
      (query.policy.select found)

/-- What is found in lexemes, counted from the beginning of the first one. -/
def findings (query : Query) : List Lexeme → Except IssueTooLong (List Finding)
  | [] => return []
  | lexeme :: rest => do
    let here ← (if lexeme.kind.isComment then commentFindings query lexeme rest else return [])
    let more ← (findings query rest).map (·.map (·.behind lexeme.text))
    return here ++ more

/-! ## Placed lexemes -/

/-- The texts of moved lines are those of the lines. -/
theorem map_text_moved (lines : List CommentLine) (bytes : Nat) :
    (lines.map (·.moved bytes)).map (·.text) = lines.map (·.text) := by
  rw [List.map_map]
  rfl

/-- A comment is searched in the same way wherever it stands. -/
theorem hitsFrom_moved (marker : Bytes) (number bytes : Nat) (lines : List CommentLine) :
    hitsFrom marker number (lines.map (·.moved bytes)) = hitsFrom marker number lines :=
  hitsFrom_congr_text marker number (map_text_moved lines bytes)

variable {lexemes : List Lexeme}

/-- A comment among placed lexemes has its lines in the source. -/
theorem commentLines_cons {source : Bytes} {rest : List Lexeme} (hlexeme : lexeme.WellFormed)
    (hkind : lexeme.kind.isComment = true)
    (hsource : source = front ++ (textOf (lexeme :: rest) ++ back))
    (hplace : place.offset = front.length) :
    (lexeme.spanAt place).commentLines source = lexeme.lines.map (·.moved front.length) := by
  rw [hsource, textOf_cons, List.append_assoc]
  exact commentLines_spanAt hlexeme (SpanKind.ne_code_of_isComment hkind) hplace _

/-- Code between two line comments is seen as such wherever it stands. -/
theorem isLineBreak_spanAt {source : Bytes} {rest : List Lexeme}
    (hsource : source = front ++ (textOf (lexeme :: rest) ++ back))
    (hplace : place.offset = front.length) :
    (lexeme.spanAt place).isLineBreak source = lexeme.isLineBreak := by
  have htext : (lexeme.spanAt place).text source = lexeme.text := by
    rw [hsource, textOf_cons, List.append_assoc]
    simp only [Span.text, Lexeme.spanAt, hplace]
    exact slice_middle _ _ _
  unfold Span.isLineBreak Lexeme.isLineBreak
  rw [htext]
  rfl

/-- The line comments that continue a comment have the same texts wherever they stand. -/
theorem continuation_placeSpans (marker : Bytes) {source : Bytes}
    (hlexemes : ∀ lexeme ∈ lexemes, lexeme.WellFormed)
    (hsource : source = front ++ (textOf lexemes ++ back)) (hplace : place.offset = front.length) :
    (continuation marker source (placeSpans place lexemes)).map
        (fun spans => (spans.flatMap (·.commentLines source)).map (·.text)) =
      continuedTexts marker lexemes := by
  fun_induction continuedTexts marker lexemes generalizing front place with
  | case1 gap comment rest hnext ih =>
      rcases List.forall_mem_cons.1 hlexemes with ⟨hgapFormed, hrest⟩
      rcases List.forall_mem_cons.1 hrest with ⟨hformed, hrest⟩
      have hgap := isLineBreak_spanAt hsource hplace
      have hcomment : comment.kind = .lineComment := by
        simp only [Bool.and_eq_true, decide_eq_true_eq] at hnext
        exact hnext.2
      have hbehind : (place.advance gap.text).offset = (front ++ gap.text).length := by
        rw [Position.offset_advance, hplace, List.length_append]
      have htail : source = front ++ gap.text ++ (textOf (comment :: rest) ++ back) :=
        hsource.trans (by simp)
      have hlines := commentLines_cons hformed (by rw [hcomment]; rfl) htail hbehind
      have hagain : (continuation marker source (placeSpans
          ((place.advance gap.text).advance comment.text) rest)).map
            (fun spans => (spans.flatMap (·.commentLines source)).map (·.text)) =
          continuedTexts marker rest := by
        have hrestSource : source = front ++ gap.text ++ comment.text ++ (textOf rest ++ back) :=
          htail.trans (by simp)
        apply ih hrest hrestSource
        rw [Position.offset_advance, hbehind, ← List.length_append]
      rw [placeSpans, placeSpans, continuation, hgap]
      change (if (gap.isLineBreak && decide (comment.kind = .lineComment)) = true then _ else _ :
        Except IssueTooLong (List Span)).map _ = _
      rw [if_pos hnext, hlines, hits, hitsFrom_moved, ← hits]
      cases hits marker comment.lines with
      | error fault => rfl
      | ok found =>
          rw [ok_bind, ok_bind]
          by_cases hempty : found.isEmpty = true
          · rw [if_pos hempty, if_pos hempty, ← hagain]
            cases continuation marker source
                (placeSpans ((place.advance gap.text).advance comment.text) rest) with
            | error fault => rfl
            | ok more =>
                rw [ok_bind]
                apply congrArg Except.ok
                simp only [List.flatMap_cons, List.map_append, hlines, map_text_moved]
          · rw [if_neg hempty, if_neg hempty]
            rfl
  | case2 gap comment rest hnext =>
      have hgap := isLineBreak_spanAt hsource hplace
      rw [placeSpans, placeSpans, continuation, hgap]
      change (if (gap.isLineBreak && decide (comment.kind = .lineComment)) = true then _ else _ :
        Except IssueTooLong (List Span)).map _ = _
      rw [if_neg hnext]
      rfl
  | case3 lexemes hshort =>
      cases lexemes with
      | nil => rfl
      | cons gap rest =>
          cases rest with
          | nil => rfl
          | cons comment rest => exact absurd rfl (hshort gap comment rest)

/-- The comments that go on with the text of a placed comment have the same texts wherever they
stand. -/
theorem continuing_placeSpans (query : Query) (lexeme : Lexeme) (place : Position) {source : Bytes}
    {behind : Position} (hlexemes : ∀ member ∈ lexemes, member.WellFormed)
    (hsource : source = front ++ (textOf lexemes ++ back))
    (hbehind : behind.offset = front.length) :
    (query.continuing source (lexeme.spanAt place) (placeSpans behind lexemes)).map
        (fun spans => (spans.flatMap (·.commentLines source)).map (·.text)) =
      query.continuedTexts lexeme lexemes := by
  unfold Query.continuing Query.continuedTexts
  by_cases hjoin : (query.join && decide (lexeme.kind = .lineComment)) = true
  · rw [if_pos hjoin, if_pos (by exact hjoin)]
    exact continuation_placeSpans query.marker.bytes hlexemes hsource hbehind
  · rw [if_neg hjoin, if_neg (by exact hjoin)]
    rfl

/-- The line of a place inside a comment is counted from the line of the comment. -/
theorem line_placeOf_spanAt {source : Bytes} (hsource : source = front ++ (lexeme.text ++ back))
    (hplace : place.offset = front.length) {offset : Nat} (hinside : offset ≤ lexeme.text.length) :
    ((lexeme.spanAt place).placeOf source (front.length + offset)).line =
      place.line + Bytes.newlineCount (lexeme.text.take offset) := by
  have hslice : Bytes.slice source place.offset (front.length + offset) =
      lexeme.text.take offset := by
    have hinner : Bytes.slice source (front.length + 0) (front.length + offset) =
        Bytes.slice lexeme.text 0 offset := by
      rw [hsource]
      exact slice_inside front lexeme.text back hinside
    rw [Nat.add_zero] at hinner
    rw [hplace, hinner, Bytes.slice, List.drop_zero, Nat.sub_zero]
  change (place.advance (Bytes.slice source place.offset (front.length + offset))).line = _
  rw [hslice, Position.line_advance]

/-- The annotations for hits tell of the findings of these hits. -/
theorem annotateHits_spanAt (query : Query) {source : Bytes} (stop : Nat)
    {lines other : List CommentLine} {found : List Hit}
    (hsource : source = front ++ (lexeme.text ++ back)) (hplace : place.offset = front.length)
    (htexts : lines.map (·.text) = other.map (·.text))
    (hoffsets : ∀ hit ∈ found, hitOffset lines hit = front.length + hitOffset other hit ∧
      hitOffset other hit ≤ lexeme.text.length) :
    (annotateHits query source (lexeme.spanAt place) stop lines found).map (·.finding) =
      (findingsAt lexeme.kind lexeme.text other found).map (·.moved place.offset place.line) := by
  induction found with
  | nil => rfl
  | cons hit rest ih =>
      rcases List.forall_mem_cons.1 hoffsets with ⟨⟨hoffset, hinside⟩, hrest⟩
      rw [annotateHits, findingsAt, List.map_cons, List.map_cons, ih hrest]
      congr 1
      change Finding.mk _ _ _ (hitOffset lines hit)
        ((lexeme.spanAt place).placeOf source (hitOffset lines hit)).line = _
      rw [hoffset, line_placeOf_spanAt hsource hplace hinside,
        payloadBytes_congr_text hit rest.head? htexts, ← hplace]
      rfl

/-- The hits that count are hits. -/
theorem MarkerPolicy.select_sublist (policy : MarkerPolicy) (found : List Hit) :
    (policy.select found).Sublist found := by
  cases policy with
  | first => exact List.take_sublist 1 found
  | all => exact List.Sublist.refl found

/-- A hit in a comment has its offset inside the comment, whatever lines are behind those of the
comment. -/
theorem hitOffset_lines (hlexeme : lexeme.WellFormed) (hkind : lexeme.kind.isComment = true)
    {marker : Bytes} (hne : marker ≠ []) (hsolid : Solid marker) {found : List Hit}
    (hfound : hits marker lexeme.lines = .ok found) (more : List CommentLine) :
    ∀ hit ∈ found, ∃ line, lexeme.lines[hit.line]? = some line ∧
      hitOffset (lexeme.lines ++ more) hit = line.offset + hit.start ∧
        line.offset + hit.start < lexeme.text.length := by
  intro hit hhit
  rcases isHit_of_mem_hits hne hsolid hfound hit hhit with ⟨line, hline, hplace⟩
  have hinside := hplace.start_lt hne
  have hfits := hlexeme.line_le hkind line (List.mem_of_getElem? hline)
  have hindex := (List.getElem?_eq_some_iff.1 hline).1
  refine ⟨line, hline, ?_, by omega⟩
  rw [hitOffset, List.getElem?_append_left hindex, hline]
  rfl

/-- The annotations of a placed comment tell of what is found in the comment. -/
theorem annotateComment_spanAt (query : Query) {source : Bytes} {rest : List Lexeme}
    (hlexemes : ∀ member ∈ lexeme :: rest, member.WellFormed)
    (hkind : lexeme.kind.isComment = true)
    (hsource : source = front ++ (textOf (lexeme :: rest) ++ back))
    (hplace : place.offset = front.length) :
    (annotateComment query source (lexeme.spanAt place)
        (placeSpans (place.advance lexeme.text) rest)).map (·.map (·.finding)) =
      (commentFindings query lexeme rest).map (·.map (·.moved place.offset place.line)) := by
  rcases List.forall_mem_cons.1 hlexemes with ⟨hlexeme, hrest⟩
  have hne : query.marker.bytes ≠ [] := query.marker.bytes_ne_nil
  have hlines := commentLines_cons hlexeme hkind hsource hplace
  have hhits : hits query.marker.bytes ((lexeme.spanAt place).commentLines source) =
      hits query.marker.bytes lexeme.lines := by
    rw [hlines, hits, hitsFrom_moved, ← hits]
  have hbehind : (place.advance lexeme.text).offset = (front ++ lexeme.text).length := by
    rw [Position.offset_advance, hplace, List.length_append]
  have htail : source = front ++ lexeme.text ++ (textOf rest ++ back) :=
    hsource.trans (by simp)
  have hcontinued := continuing_placeSpans query lexeme place hrest htail hbehind
  unfold annotateComment commentFindings
  simp only [hhits]
  cases hfound : hits query.marker.bytes lexeme.lines with
  | error fault => rfl
  | ok found =>
      cases found with
      | nil => rfl
      | cons hit found =>
          rw [ok_bind, ok_bind, ← hcontinued]
          simp only
          cases hcontinuing : query.continuing source (lexeme.spanAt place)
              (placeSpans (place.advance lexeme.text) rest) with
          | error fault => rfl
          | ok spans =>
              apply congrArg Except.ok
              refine annotateHits_spanAt query _ (by rw [hsource, textOf_cons, List.append_assoc])
                hplace ?_ ?_
              · simp only [List.map_append, hlines, List.map_map]
                congr 1
              · intro other hother
                obtain ⟨line, hline, hoffset, hinside⟩ := hitOffset_lines hlexeme hkind hne
                  query.marker.solid_bytes hfound
                  (((spans.flatMap (·.commentLines source)).map (·.text)).map (CommentLine.mk 0))
                  other ((query.policy.select_sublist _).subset hother)
                have hindex := (List.getElem?_eq_some_iff.1 hline).1
                refine ⟨?_, by rw [hoffset]; omega⟩
                rw [hoffset, hitOffset, hlines, List.getElem?_append_left (by simpa using hindex),
                  List.getElem?_map, hline]
                simp only [Option.map_some, Option.getD_some, CommentLine.moved, Nat.add_assoc]

/-- Extraction looks at the first span, if it is a comment, and at the others. -/
theorem extract_cons (query : Query) (source : Bytes) (span : Span) (rest : List Span) :
    extract query source (span :: rest) =
      (if span.kind.isComment then annotateComment query source span rest else return []) >>=
        fun here => extract query source rest >>= fun more => return here ++ more := by
  rw [extract]
  split
  · rfl
  · cases extract query source rest <;> rfl

/-- Extraction from placed lexemes answers annotations that tell of what is found in them. -/
theorem extract_placeSpans (query : Query) {source : Bytes}
    (hlexemes : ∀ lexeme ∈ lexemes, lexeme.WellFormed)
    (hsource : source = front ++ (textOf lexemes ++ back)) (hplace : place.offset = front.length) :
    (extract query source (placeSpans place lexemes)).map (·.map (·.finding)) =
      (findings query lexemes).map (·.map (·.moved place.offset place.line)) := by
  induction lexemes generalizing front place with
  | nil => rfl
  | cons lexeme rest ih =>
      have hrest := (List.forall_mem_cons.1 hlexemes).2
      have hbehind : (place.advance lexeme.text).offset = (front ++ lexeme.text).length := by
        rw [Position.offset_advance, hplace, List.length_append]
      have htail : source = front ++ lexeme.text ++ (textOf rest ++ back) :=
        hsource.trans (by simp)
      have hagain := ih hrest htail hbehind
      have hmoved : ∀ found : List Finding,
          found.map (·.moved (place.advance lexeme.text).offset
            (place.advance lexeme.text).line) =
          (found.map (·.behind lexeme.text)).map (·.moved place.offset place.line) := by
        intro found
        rw [List.map_map, Position.offset_advance, Position.line_advance]
        apply List.map_congr_left
        intro finding _
        exact (Finding.moved_moved _ _ _ _ _).symm
      have hhere : (if lexeme.kind.isComment then annotateComment query source
            (lexeme.spanAt place) (placeSpans (place.advance lexeme.text) rest)
          else return []).map (·.map (·.finding)) =
          (if lexeme.kind.isComment then commentFindings query lexeme rest
            else return []).map (·.map (·.moved place.offset place.line)) := by
        split
        · rename_i hkind
          exact annotateComment_spanAt query hlexemes hkind hsource hplace
        · rfl
      have hmore : (extract query source (placeSpans (place.advance lexeme.text) rest)).map
            (·.map (·.finding)) =
          ((findings query rest).map (·.map (·.behind lexeme.text))).map
            (·.map (·.moved place.offset place.line)) := by
        rw [hagain]
        cases findings query rest with
        | error fault => rfl
        | ok found => exact congrArg Except.ok (hmoved found)
      rw [placeSpans, extract_cons, map_bind_append, findings, map_bind_append, hmore]
      change Except.map _ (if lexeme.kind.isComment = true then _ else _) >>= _ = _
      rw [hhere]

/-- Annotations are about the marker that was asked for. -/
theorem marker_of_mem_extract {query : Query} {source : Bytes} {spans : List Span}
    {notes : List Annotation} (hnotes : extract query source spans = .ok notes) :
    ∀ note ∈ notes, note.marker = query.marker := by
  have hhits : ∀ span stop lines found,
      ∀ note ∈ annotateHits query source span stop lines found, note.marker = query.marker := by
    intro span stop lines found note hnote
    induction found with
    | nil => cases hnote
    | cons hit rest ih =>
        rcases List.mem_cons.1 hnote with rfl | hmore
        · rfl
        · exact ih hmore
  induction spans generalizing notes with
  | nil =>
      cases hnotes
      intro note hnote
      cases hnote
  | cons span rest ih =>
      rw [extract_cons] at hnotes
      rcases bind_eq_ok_iff.1 hnotes with ⟨here, hhere, hbind⟩
      rcases bind_eq_ok_iff.1 hbind with ⟨more, hmore, hsame⟩
      cases hsame
      intro note hnote
      rcases List.mem_append.1 hnote with hnote | hnote
      · split at hhere
        · rcases bind_eq_ok_iff.1 hhere with ⟨found, -, hfound⟩
          split at hfound
          · cases hfound
            cases hnote
          · rcases bind_eq_ok_iff.1 hfound with ⟨continuing, -, hsame⟩
            cases hsame
            exact hhits _ _ _ _ note hnote
        · cases hhere
          cases hnote
      · exact ih hmore note hnote

/-! ## The order of findings -/

/-- A comment with hits is annotated with them. -/
theorem commentFindings_of_hits {query : Query} {following : List Lexeme} {found : List Hit}
    {more : List Bytes} (hfound : hits query.marker.bytes lexeme.lines = .ok found)
    (hne : found ≠ []) (hmore : query.continuedTexts lexeme following = .ok more) :
    commentFindings query lexeme following =
      .ok (findingsAt lexeme.kind lexeme.text (lexeme.lines ++ more.map (CommentLine.mk 0))
        (query.policy.select found)) := by
  rw [commentFindings, hfound, ok_bind]
  cases found with
  | nil => exact absurd rfl hne
  | cons hit found =>
      simp only
      rw [hmore]
      rfl

/-- What is found in a comment comes from its hits. -/
theorem exists_hits_of_commentFindings {query : Query} {following : List Lexeme}
    {here : List Finding} (hne : here ≠ [])
    (hhere : commentFindings query lexeme following = .ok here) :
    ∃ found more, hits query.marker.bytes lexeme.lines = .ok found ∧ found ≠ [] ∧
      query.continuedTexts lexeme following = .ok more ∧
      here = findingsAt lexeme.kind lexeme.text (lexeme.lines ++ more.map (CommentLine.mk 0))
        (query.policy.select found) := by
  rcases bind_eq_ok_iff.1 hhere with ⟨found, hfound, hbind⟩
  cases found with
  | nil =>
      cases hbind
      exact absurd rfl hne
  | cons hit found =>
      rcases bind_eq_ok_iff.1 hbind with ⟨more, hmore, hsame⟩
      cases hsame
      exact ⟨hit :: found, more, hfound, List.cons_ne_nil _ _, hmore, rfl⟩

/-- The offsets of findings are those of their hits. -/
theorem map_offset_findingsAt (kind : SpanKind) (text : Bytes) (lines : List CommentLine)
    (found : List Hit) :
    (findingsAt kind text lines found).map (·.offset) = found.map (hitOffset lines) := by
  induction found with
  | nil => rfl
  | cons hit rest ih => rw [findingsAt, List.map_cons, List.map_cons, ih]

/-- Each finding comes from one of the hits. -/
theorem exists_of_findingsAt_eq {kind : SpanKind} {text : Bytes} {lines : List CommentLine}
    {found : List Hit} {pre post : List Finding} {finding : Finding}
    (hfindings : findingsAt kind text lines found = pre ++ finding :: post) :
    ∃ first hit second, found = first ++ hit :: second ∧ first.length = pre.length ∧
      finding.offset = hitOffset lines hit ∧ finding.issue = hit.issue := by
  induction pre generalizing found with
  | nil =>
      cases found with
      | nil => cases hfindings
      | cons hit rest =>
          rcases List.cons.inj hfindings with ⟨rfl, -⟩
          exact ⟨[], hit, rest, rfl, rfl, rfl, rfl⟩
  | cons own pre ih =>
      cases found with
      | nil => cases hfindings
      | cons hit rest =>
          rcases ih (List.cons.inj hfindings).2 with ⟨first, other, second, rfl, hlength, hsame⟩
          exact ⟨hit :: first, other, second, rfl, congrArg (· + 1) hlength, hsame⟩

/-- The hits of a comment stand in the order of their offsets. -/
theorem pairwise_hitOffset_lines (hlexeme : lexeme.WellFormed)
    (hkind : lexeme.kind.isComment = true) {marker : Bytes} (hne : marker ≠ [])
    (hsolid : Solid marker) {found : List Hit} (hfound : hits marker lexeme.lines = .ok found)
    (more : List CommentLine) :
    found.Pairwise fun first second =>
      hitOffset (lexeme.lines ++ more) first < hitOffset (lexeme.lines ++ more) second := by
  have hown : ∀ hit ∈ found, hitOffset (lexeme.lines ++ more) hit =
      hitOffset lexeme.lines hit := by
    intro hit hhit
    rcases hitOffset_lines hlexeme hkind hne hsolid hfound more hit hhit with
      ⟨line, hline, hoffset, -⟩
    rw [hoffset, hitOffset, hline]
    rfl
  have hsorted : found.Pairwise fun first second =>
      hitOffset lexeme.lines first < hitOffset lexeme.lines second := by
    refine pairwise_hitOffset (Span.pairwise_commentLines _ hkind) ?_
      (hitsFrom_exact hne hsolid hfound).1
    intro hit hhit
    rcases isHit_of_mem_hits hne hsolid hfound hit hhit with ⟨line, hline, hplace⟩
    exact ⟨line, hline, hplace.start_lt hne⟩
  apply hsorted.imp_of_mem
  intro first second hfirst hsecond hbefore
  rw [hown first hfirst, hown second hsecond]
  exact hbefore

/-- What is found in a comment stands in the order of the offsets, and inside the comment. -/
theorem pairwise_commentFindings {query : Query} {following : List Lexeme} {here : List Finding}
    (hlexeme : lexeme.WellFormed) (hkind : lexeme.kind.isComment = true)
    (hhere : commentFindings query lexeme following = .ok here) :
    here.Pairwise (·.offset < ·.offset) ∧
      ∀ finding ∈ here, finding.offset < lexeme.text.length := by
  by_cases hnil : here = []
  · rw [hnil]
    exact ⟨List.Pairwise.nil, fun finding hfinding => by cases hfinding⟩
  rcases exists_hits_of_commentFindings hnil hhere with ⟨found, more, hfound, -, -, rfl⟩
  have hne : query.marker.bytes ≠ [] := query.marker.bytes_ne_nil
  have hoffsets := map_offset_findingsAt lexeme.kind lexeme.text
    (lexeme.lines ++ more.map (CommentLine.mk 0)) (query.policy.select found)
  have hselect := query.policy.select_sublist found
  constructor
  · rw [← List.pairwise_map (f := Finding.offset), hoffsets, List.pairwise_map]
    exact (pairwise_hitOffset_lines hlexeme hkind hne query.marker.solid_bytes hfound _).sublist
      hselect
  · intro finding hfinding
    have hmem := List.mem_map_of_mem (f := Finding.offset) hfinding
    rw [hoffsets] at hmem
    rcases List.mem_map.1 hmem with ⟨hit, hhit, hsame⟩
    obtain ⟨line, -, hoffset, hinside⟩ := hitOffset_lines hlexeme hkind hne
      query.marker.solid_bytes hfound (more.map (CommentLine.mk 0)) hit (hselect.subset hhit)
    rw [← hsame, hoffset]
    exact hinside

/-- Findings stand in the order of their offsets, and inside the text. -/
theorem pairwise_findings {query : Query} {found : List Finding}
    (hlexemes : ∀ lexeme ∈ lexemes, lexeme.WellFormed)
    (hfound : findings query lexemes = .ok found) :
    found.Pairwise (·.offset < ·.offset) ∧
      ∀ finding ∈ found, finding.offset < (textOf lexemes).length := by
  induction lexemes generalizing found with
  | nil =>
      cases hfound
      exact ⟨List.Pairwise.nil, fun finding hfinding => by cases hfinding⟩
  | cons lexeme rest ih =>
      rcases List.forall_mem_cons.1 hlexemes with ⟨hlexeme, hrest⟩
      rcases bind_eq_ok_iff.1 hfound with ⟨here, hhere, hbind⟩
      rcases bind_eq_ok_iff.1 hbind with ⟨behind, hbehind, hsame⟩
      rcases map_eq_ok_iff.1 hbehind with ⟨more, hmore, rfl⟩
      cases hsame
      rcases ih hrest hmore with ⟨hsorted, hinside⟩
      have hown : here.Pairwise (·.offset < ·.offset) ∧
          ∀ finding ∈ here, finding.offset < lexeme.text.length := by
        split at hhere
        · rename_i hkind
          exact pairwise_commentFindings hlexeme hkind hhere
        · cases hhere
          exact ⟨List.Pairwise.nil, fun finding hfinding => by cases hfinding⟩
      rw [textOf_cons, List.length_append]
      constructor
      · refine List.pairwise_append.2 ⟨hown.1, ?_, ?_⟩
        · rw [List.pairwise_map]
          exact hsorted.imp fun hbefore => Nat.add_lt_add_left hbefore _
        · intro finding hfinding other hother
          rcases List.mem_map.1 hother with ⟨inner, -, rfl⟩
          exact Nat.lt_of_lt_of_le (hown.2 finding hfinding) (Nat.le_add_right _ _)
      · intro finding hfinding
        rcases List.mem_append.1 hfinding with hfinding | hfinding
        · exact Nat.lt_of_lt_of_le (hown.2 finding hfinding) (Nat.le_add_right _ _)
        · rcases List.mem_map.1 hfinding with ⟨inner, hinner, rfl⟩
          exact Nat.add_lt_add_left (hinside inner hinner) _

/-! ## Annotations of a source -/

variable {grammar : Grammar} {query : Query} {source : Bytes} {lexing : Lexing}

/-- A source with annotations is scanned to its end, and they are extracted from its spans. -/
theorem extract_of_annotations {notes : List Annotation}
    (hnotes : grammar.annotations query source = .ok notes) :
    (grammar.scan source).failure = none ∧
      extract query source (grammar.scan source).spans = .ok notes := by
  rw [Grammar.annotations, Scan.complete] at hnotes
  cases hfailure : (grammar.scan source).failure with
  | some failure =>
      rw [hfailure] at hnotes
      cases hnotes
  | none =>
      rw [hfailure] at hnotes
      change (extract query source (grammar.scan source).spans).mapError _ = _ at hnotes
      cases hextract : extract query source (grammar.scan source).spans with
      | error fault =>
          rw [hextract] at hnotes
          cases hnotes
      | ok found =>
          rw [hextract] at hnotes
          exact ⟨rfl, congrArg Except.ok (Except.ok.inj hnotes)⟩

/-- Extraction from the spans of a source answers annotations that tell of what is found in its
lexemes. -/
theorem extract_scan (query : Query) (hlexes : Lexes grammar.openers source lexing)
    (hclosed : lexing.unclosed = none) :
    (extract query source (grammar.scan source).spans).map (·.map (·.finding)) =
      (findings query lexing.lexemes).map (·.map (·.moved 0 1)) := by
  have htexts := hlexes.texts_eq
  rw [hclosed] at htexts
  have hsource : source = [] ++ (textOf lexing.lexemes ++ []) := by
    rw [List.append_nil]
    exact htexts
  have hspans : (grammar.scan source).spans = placeSpans .first lexing.lexemes := by
    rw [Grammar.scan_eq, ← hlexes.eq_lex]
    rfl
  have hplace : Position.first.offset = ([] : Bytes).length := rfl
  rw [hspans]
  exact extract_placeSpans query hlexes.wellFormed hsource hplace

/-- A source with annotations has no construct that is not closed, and its annotations tell of what
is found in it. -/
theorem exists_findings_of_annotations {notes : List Annotation}
    (hlexes : Lexes grammar.openers source lexing)
    (hnotes : grammar.annotations query source = .ok notes) :
    lexing.unclosed = none ∧ ∃ found, findings query lexing.lexemes = .ok found ∧
      found.map (·.moved 0 1) = notes.map (·.finding) := by
  rcases extract_of_annotations hnotes with ⟨hfailure, hextract⟩
  rw [Grammar.scan_eq, ← hlexes.eq_lex] at hfailure
  have hclosed : lexing.unclosed = none := Option.map_eq_none_iff.1 hfailure
  have hsame := extract_scan query hlexes hclosed
  rw [hextract] at hsame
  exact ⟨hclosed, map_eq_ok_iff.1 hsame.symm⟩

/-- What is found in the lexemes of a source becomes annotations of the source. -/
theorem exists_annotations_of_findings {found : List Finding}
    (hlexes : Lexes grammar.openers source lexing) (hclosed : lexing.unclosed = none)
    (hfound : findings query lexing.lexemes = .ok found) :
    ∃ notes, grammar.annotations query source = .ok notes ∧
      notes.map (·.finding) = found.map (·.moved 0 1) := by
  have hsame := extract_scan query hlexes hclosed
  rw [hfound] at hsame
  rcases map_eq_ok_iff.1 hsame with ⟨notes, hextract, hnotes⟩
  have hfailure : (grammar.scan source).failure = none := by
    rw [Grammar.scan_eq, ← hlexes.eq_lex, Lexing.scanFrom, hclosed]
    rfl
  refine ⟨notes, ?_, hnotes⟩
  rw [Grammar.annotations, Scan.complete, hfailure]
  change (extract query source (grammar.scan source).spans).mapError _ = _
  rw [hextract]
  rfl

end CommentMarkers
