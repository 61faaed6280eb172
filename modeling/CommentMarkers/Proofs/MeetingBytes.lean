import CommentMarkers.Proofs.SparedConstructs

/-!
# Bytes that meet

Where a comment is purged, the bytes in front of it and behind it meet and could make up a
delimiter.  They do not if the comment ends its line, since then a newline is left behind it.  In
half of the built-in grammars they never do: a part of a delimiter in front of a comment makes up a
delimiter with the comment itself, or is the delimiter of a line comment, so it is not code.

Main results:

- Theorem `Lexes.exists_construct`: where a delimiter occurs in code, a construct begins.
- Theorem `Grammar.builtin_seamless`: the grammars in which no delimiter is made up of bytes that
  meet, wherever a comment stands.
- Theorem `unglued_selectedRanges`: purging leaves no new delimiter in code.
-/

namespace CommentMarkers

/-! ## Where a construct begins -/

variable {openers : List Opener}

/-- In code no delimiter occurs that always opens its construct. -/
theorem opening_eq_none_of_code (hunbounded : ∀ opener ∈ openers, opener.closing.isBounded = false)
    (front : Bytes) {back : Bytes} {byte : UInt8}
    (hnext : ∀ length opener,
      nextConstruct openers (front ++ byte :: back) = some (length, opener) →
      front.length < length) : opening openers (byte :: back) = none := by
  have hstays : Stays openers (byte :: back) := by
    refine stays_of_code (fun opener hopener hbounded => ?_) front hnext
    rw [hunbounded opener hopener] at hbounded
    cases hbounded
  rw [Option.eq_none_iff_forall_not_mem]
  intro opener hopening
  have hcode := (hstays opener hopening).1
  rw [Opener.staysCode, hunbounded opener (List.mem_of_find?_eq_some hopening)] at hcode
  cases hcode

/-- The offsets in the construct of a round, behind its first byte, are in a construct. -/
theorem inConstruct_of_round {code : Bytes} {own : Lexeme} {more : List Lexeme} {offset : Nat}
    (hkind : own.kind ≠ .code) (hpos : 0 < offset) (hoffset : offset < own.text.length) :
    InConstruct (Lexeme.code code ++ [own] ++ more) (code.length + offset) := by
  refine ⟨Lexeme.code code, own, more, List.append_assoc _ _ _, hkind, ?_⟩
  rw [textOf_code]
  omega

/-- The offsets in constructs behind a round are in constructs of the whole. -/
theorem InConstruct.behind_round {code : Bytes} {own : Lexeme} {more : List Lexeme} {offset : Nat}
    (hin : InConstruct more offset) :
    InConstruct (Lexeme.code code ++ [own] ++ more) (code.length + own.text.length + offset) := by
  rcases hin with ⟨before, construct, after, rfl, hkind, hstart, hstop⟩
  refine ⟨Lexeme.code code ++ [own] ++ before, construct, after, by simp, hkind, ?_⟩
  simp only [textOf_append, textOf_code, textOf_cons, textOf_nil, List.append_nil,
    List.length_append]
  omega

/-- Where something opens there is a byte. -/
theorem exists_byte_of_opening {bytes : Bytes} {offset : Nat} {opener : Opener}
    (hopening : opening openers (bytes.drop offset) = some opener) :
    ∃ front byte back, bytes = front ++ byte :: back ∧ front.length = offset := by
  rcases token_prefix_of_opening hopening with ⟨htoken, hpos⟩
  have hlength := htoken.length_le
  rw [List.length_drop] at hlength
  have hinside : offset < bytes.length := by
    omega
  refine ⟨bytes.take offset, bytes[offset], bytes.drop (offset + 1), ?_, ?_⟩
  · rw [← List.drop_eq_getElem_cons hinside, List.take_append_drop]
  · rw [List.length_take]
    omega

/-- Where a delimiter occurs in code, the construct begins that it opens, if all delimiters open
their constructs. -/
theorem Lexes.exists_construct {bytes : Bytes} {lexing : Lexing}
    (hlexes : Lexes openers bytes lexing) (hcomplete : lexing.unclosed = none)
    (hunbounded : ∀ opener ∈ openers, opener.closing.isBounded = false)
    (hconstruct : ∀ opener ∈ openers, opener.kind ≠ .code) {offset : Nat}
    (hcode : ¬ InConstruct lexing.lexemes offset) {opener : Opener}
    (hopening : opening openers (bytes.drop offset) = some opener) :
    ∃ before inner after,
      lexing.lexemes = before ++ Lexeme.ofConstruct opener (opener.token ++ inner) :: after ∧
        (textOf before).length = offset := by
  induction hlexes generalizing offset with
  | code bytes hnone =>
      rcases exists_byte_of_opening hopening with ⟨front, byte, back, rfl, rfl⟩
      have hnothing : opening openers (byte :: back) = none := by
        refine opening_eq_none_of_code hunbounded front fun length own hown => ?_
        rw [hnone] at hown
        cases hown
      rw [List.drop_left, hnothing] at hopening
      cases hopening
  | unclosed code tail own hopens hopen => cases hcomplete
  | closed code inner rest own lexing hopens hclosed hrest ih =>
      have hownKind := hconstruct own (mem_of_nextConstruct hopens)
      rcases Nat.lt_trichotomy offset code.length with hfront | rfl | hbehind
      · have hsplit : code = code.take offset ++ code[offset] :: code.drop (offset + 1) := by
          rw [← List.drop_eq_getElem_cons hfront, List.take_append_drop]
        have hlength : (code.take offset).length = offset := by
          rw [List.length_take]
          omega
        have hnothing : opening openers
            (code[offset] :: (code.drop (offset + 1) ++ (own.token ++ (inner ++ rest)))) =
              none := by
          refine opening_eq_none_of_code hunbounded (code.take offset) fun length other hother => ?_
          rw [← List.cons_append, ← List.append_assoc, ← hsplit, hopens] at hother
          cases hother
          omega
        rw [List.drop_append_of_le_length (Nat.le_of_lt hfront), List.drop_eq_getElem_cons hfront,
          List.cons_append, hnothing] at hopening
        cases hopening
      · rw [List.drop_left, (opening_of_nextConstruct hopens).1] at hopening
        cases hopening
        exact ⟨Lexeme.code code, inner, lexing.lexemes, List.append_assoc _ _ _,
          by rw [textOf_code]⟩
      · -- Inside the construct of the round nothing is asked, and behind it the rest is.
        obtain ⟨count, rfl⟩ := Nat.exists_eq_add_of_le (Nat.le_of_lt hbehind)
        change ¬ InConstruct (Lexeme.code code ++ [_] ++ lexing.lexemes) _ at hcode
        rcases Nat.lt_or_ge count (own.token ++ inner).length with hinside | hafter
        · exact (hcode (inConstruct_of_round hownKind (by omega) hinside)).elim
        · obtain ⟨more, rfl⟩ := Nat.exists_eq_add_of_le hafter
          rw [← Nat.add_assoc] at hcode
          rw [← List.drop_drop, ← List.drop_drop, List.drop_left, ← List.append_assoc,
            List.drop_left] at hopening
          rcases ih hcomplete (fun hin => hcode hin.behind_round) hopening with
            ⟨before, text, after, hsplit, rfl⟩
          refine ⟨Lexeme.code code ++ [Lexeme.ofConstruct own (own.token ++ inner)] ++ before, text,
            after, ?_, ?_⟩
          · rw [Lexing.prepend, hsplit, List.append_assoc _ before]
          · simp only [textOf_append, textOf_code, textOf_cons, textOf_nil, List.append_nil,
              List.length_append, Lexeme.text_ofConstruct, Nat.add_assoc]

/-! ## Where code is left -/

/-- Holds of the offsets inside a comment or a literal, behind its first byte. -/
def Scan.Encloses (scan : Scan) (offset : Nat) : Prop :=
  ∃ span ∈ scan.spans, span.kind ≠ .code ∧ span.start < offset ∧ offset < span.stop

instance (scan : Scan) (offset : Nat) : Decidable (scan.Encloses offset) :=
  inferInstanceAs (Decidable (∃ span ∈ scan.spans, _))

/-- Holds of a deletion that leaves no delimiter in code but those that were there. -/
def Grammar.Unglued (grammar : Grammar) (source : Bytes) (gone : Nat → Bool) : Prop :=
  ∀ offset < source.length, gone offset = false → ¬ (grammar.scan source).Encloses offset →
    NothingNew grammar.openers (source.drop offset) fun more => gone (offset + more)

instance (grammar : Grammar) (source : Bytes) (gone : Nat → Bool) :
    Decidable (grammar.Unglued source gone) :=
  inferInstanceAs (Decidable (∀ offset < source.length, _))

variable {grammar : Grammar} {source : Bytes}

/-- What is inside a construct is inside its span. -/
theorem encloses_iff {offset : Nat} :
    (grammar.scan source).Encloses offset ↔
      InConstruct (lex grammar.openers source).lexemes offset := by
  constructor
  · rintro ⟨span, hspan, hkind, hstart, hstop⟩
    rcases List.append_of_mem hspan with ⟨before, after, hspans⟩
    rcases exists_split_of_scan hspans with ⟨front, lexeme, back, hsplit, rfl, rfl, rfl, -, -⟩
    simp only [Lexeme.spanAt, (spanAt_mem_scan hsplit).2] at hstart hstop
    exact ⟨front, lexeme, back, hsplit, hkind, hstart, hstop⟩
  · rintro ⟨before, construct, after, hsplit, hkind, hstart, hstop⟩
    obtain ⟨hspan, hplace⟩ := spanAt_mem_scan hsplit
    refine ⟨_, hspan, hkind, ?_⟩
    simp only [Lexeme.spanAt, hplace]
    exact ⟨hstart, hstop⟩

/-- Where a delimiter occurs in code, a comment or a literal begins, if all delimiters open their
constructs. -/
theorem exists_span_of_occursAt
    (hunbounded : ∀ opener ∈ grammar.openers, opener.closing.isBounded = false)
    (hcomplete : (grammar.scan source).failure = none) {offset : Nat}
    (hcode : ¬ (grammar.scan source).Encloses offset) {opener : Opener}
    (hopener : opener ∈ grammar.openers) (hoccurs : opener.occursAt (source.drop offset) = true) :
    ∃ span ∈ (grammar.scan source).spans, span.start = offset ∧
      ∃ own ∈ grammar.openers, own.kind = span.kind ∧ own.occursAt (source.drop offset) = true ∧
        offset + own.token.length ≤ span.stop := by
  have hclosed : (lex grammar.openers source).unclosed = none := Option.map_eq_none_iff.1 hcomplete
  cases hopening : opening grammar.openers (source.drop offset) with
  | none =>
      rw [opening, List.find?_eq_none] at hopening
      exact absurd hoccurs (hopening opener hopener)
  | some own =>
      rcases (lexes_lex grammar.openers source).exists_construct hclosed hunbounded
        (fun opener hopener => Grammar.kind_ne_code_of_mem_openers hopener)
        (fun hin => hcode (encloses_iff.2 hin)) hopening with
        ⟨before, inner, after, hlexemes, hlength⟩
      obtain ⟨hspan, hplace⟩ := spanAt_mem_scan hlexemes
      obtain ⟨htoken, hpos⟩ := token_prefix_of_opening hopening
      refine ⟨_, hspan, hplace.trans hlength, own, List.mem_of_find?_eq_some hopening, rfl,
        Opener.occursAt_iff.2 ⟨List.length_pos_iff.1 hpos, htoken⟩, ?_⟩
      simp only [Lexeme.spanAt, hplace, Lexeme.text_ofConstruct, List.length_append]
      omega

/-! ## Parts of delimiters -/

/-- Holds of delimiters that bytes that meet do not make up: a part of a delimiter in front of a
comment makes up a delimiter with the comment, and in such a part there are no delimiters but those
of line comments. -/
structure Seamless (openers : List Opener) : Prop where
  opens : ∀ opener ∈ openers, ∀ count < opener.token.length, 0 < count →
    ∀ comment ∈ openers, comment.kind.isComment = true →
      ∃ other ∈ openers, other.occursAt (opener.token.take count ++ comment.token) = true
  lines : ∀ opener ∈ openers, ∀ count < opener.token.length, ∀ other ∈ openers,
    other.occursAt (opener.token.take count) = true → other.kind = .lineComment

/-- The built-in grammars in which bytes that meet never make up a delimiter. -/
def seamlessLanguages : List String :=
  ["c", "go", "javascript", "zig", "shell", "r", "lua", "asm"]

/-- In these grammars bytes that meet do not make up a delimiter. -/
theorem Grammar.builtin_seamless : ∀ grammar ∈ Grammar.builtin,
    grammar.language ∈ seamlessLanguages → Seamless grammar.openers := by
  have hchecked : ∀ grammar ∈ Grammar.builtin, grammar.language ∈ seamlessLanguages →
      (∀ opener ∈ grammar.openers, ∀ count < opener.token.length, 0 < count →
        ∀ comment ∈ grammar.openers, comment.kind.isComment = true →
          ∃ other ∈ grammar.openers,
            other.occursAt (opener.token.take count ++ comment.token) = true) ∧
        ∀ opener ∈ grammar.openers, ∀ count < opener.token.length, ∀ other ∈ grammar.openers,
          other.occursAt (opener.token.take count) = true → other.kind = .lineComment := by
    decide +kernel
  intro grammar hgrammar hlanguage
  obtain ⟨hopens, hlines⟩ := hchecked grammar hgrammar hlanguage
  exact ⟨hopens, hlines⟩

/-- Only one of the built-in grammars has literals with a limit. -/
theorem Grammar.builtin_unbounded : ∀ grammar ∈ Grammar.builtin, grammar.language ≠ "rust" →
    ∀ opener ∈ grammar.openers, opener.closing.isBounded = false := by
  decide +kernel

variable {query : Query} {notes : List Annotation} {issues : Option (List Int)}

/-- A part of such a delimiter directly in front of a comment does not stand in code. -/
theorem Seamless.encloses_part (hseamless : Seamless grammar.openers)
    (hsolid : ∀ opener ∈ grammar.openers, opener.IsSolid)
    (hunbounded : ∀ opener ∈ grammar.openers, opener.closing.isBounded = false)
    (hcomplete : (grammar.scan source).failure = none) {comment : Span}
    (hcomment : comment ∈ (grammar.scan source).spans) (hkind : comment.kind.isComment = true)
    {opener : Opener} (hopener : opener ∈ grammar.openers) {part : Bytes} (hne : part ≠ [])
    (hpart : part <+: opener.token) (hproper : part.length < opener.token.length) {offset : Nat}
    (hsplit : source.drop offset = part ++ source.drop comment.start)
    (hstart : offset + part.length = comment.start) :
    (grammar.scan source).Encloses offset := by
  refine Classical.byContradiction fun hcode => ?_
  have htiles := tiles_of_scan hcomplete
  have hpos := List.length_pos_iff.2 hne
  have htake : opener.token.take part.length = part := (List.prefix_iff_eq_take.1 hpart).symm
  -- With the token of the comment the part makes up a delimiter, so a construct begins there.
  obtain ⟨token, htoken, htokenKind, hbehind⟩ :=
    exists_token_of_mem_scan hcomment (SpanKind.ne_code_of_isComment hkind)
  obtain ⟨other, hother, hoccurs⟩ := hseamless.opens opener hopener part.length hproper hpos token
    htoken (by rw [htokenKind]; exact hkind)
  rw [htake, Opener.occursAt_iff] at hoccurs
  obtain ⟨span, hspan, hspanStart, own, hown, hownKind, hownOccurs, hownStop⟩ :=
    exists_span_of_occursAt hunbounded hcomplete hcode hother (Opener.occursAt_iff.2 ⟨hoccurs.1, by
      rw [hsplit]
      exact hoccurs.2.trans ((List.prefix_append_right_inj part).2 hbehind)⟩)
  rw [Opener.occursAt_iff] at hownOccurs
  -- It ends in front of the comment, so its delimiter is in the part, and it is a line comment.
  have hends : span.stop ≤ comment.start := by
    have hlong := htiles.start_lt_stop comment hcomment
    rcases htiles.eq_or_apart hspan hcomment with rfl | hbefore | hbehind <;> omega
  have hinside : own.token <+: part :=
    List.prefix_of_prefix_length_le hownOccurs.2 (by rw [hsplit]; exact List.prefix_append _ _)
      (by omega)
  have hline : own.kind = .lineComment := by
    refine hseamless.lines opener hopener part.length hproper own hown ?_
    rw [htake]
    exact Opener.occursAt_iff.2 ⟨hownOccurs.1, hinside⟩
  have hnewline := newline_of_lineComment hspan (hownKind.symm.trans hline)
  -- But behind it there is a byte of the part or of the comment, and neither is a newline.
  have hstartStop : offset ≤ span.stop := by
    omega
  rcases Nat.lt_or_eq_of_le hends with hbefore | hmeets
  · obtain ⟨count, hcount⟩ := Nat.exists_eq_add_of_le hstartStop
    have hinPart : count < part.length := by
      omega
    rw [hcount, ← List.getElem?_drop, hsplit, List.getElem?_append_left hinPart,
      List.getElem?_eq_getElem hinPart] at hnewline
    have hblank := (hsolid opener hopener).token _ (hpart.subset (List.getElem_mem hinPart))
    rw [hnewline _ rfl] at hblank
    cases hblank
  · have hfirm := isFirm_of_mem_scan hsolid hcomment (SpanKind.ne_code_of_isComment hkind)
    have hbyte := List.getElem?_eq_getElem (Nat.lt_of_lt_of_le hfirm.nonempty hfirm.inside)
    rw [hmeets] at hnewline
    exact hfirm.not_blank hbyte (by rw [hnewline _ hbyte]; rfl)

/-- Behind a comment that ends its line, a newline or nothing is left, if something is left in front
of it on the line. -/
theorem head?_without_of_endsLine (hsolid : ∀ opener ∈ grammar.openers, opener.IsSolid)
    (hjoin : query.join = false) (hnotes : grammar.annotations query source = .ok notes)
    {comment : ByteRange} (hpurged : isPurged notes issues comment = true)
    (hstop : (removalRange source comment).stop = lineStop source comment.stop) :
    ∀ byte ∈ (Bytes.without (source.drop (removalRange source comment).start) fun more =>
        ByteRange.covers (selectedRanges source notes issues)
          ((removalRange source comment).start + more)).head?, byte = Bytes.newline := by
  have htiles := tiles_of_annotations hnotes
  have hfirm : ∀ {comment : ByteRange}, isPurged notes issues comment = true →
      comment.IsFirm source := by
    intro comment hpurged
    rcases exists_span_of_isPurged hjoin hnotes hpurged with ⟨span, hspan, hkind, rfl⟩
    exact isFirm_of_mem_scan hsolid hspan (SpanKind.ne_code_of_isComment hkind)
  have hinside := (hfirm hpurged).inside
  have hnonempty := (hfirm hpurged).nonempty
  obtain ⟨-, hlineInside, hlineNewline⟩ := lineStop_spec hinside
  obtain ⟨hstart, hcommentStop⟩ := removalRange_comment hinside
  rw [hstop] at hcommentStop
  generalize hfrom : (removalRange source comment).start = start at hstart ⊢
  have hlength : ((source.drop start).take (lineStop source comment.stop - start)).length =
      lineStop source comment.stop - start := by
    rw [List.length_take, List.length_drop]
    omega
  have hsum : start + (lineStop source comment.stop - start) = lineStop source comment.stop := by
    omega
  have hgone : ∀ offset < lineStop source comment.stop - start,
      ByteRange.covers (selectedRanges source notes issues) (start + offset) = true := by
    intro offset hoffset
    refine covers_selectedRanges_iff.2 ⟨comment, hpurged, ByteRange.contains_iff.2 ?_⟩
    rw [hstop, hfrom]
    omega
  rw [← List.take_append_drop (lineStop source comment.stop - start) (source.drop start),
    Bytes.without_append, Bytes.without_eq_nil (by rw [hlength]; exact hgone), List.nil_append,
    List.drop_drop, hlength, hsum]
  rcases Nat.lt_or_eq_of_le hlineInside with hmore | hend
  · -- The newline behind the comment is left, also by the other comments.
    have hnewline : ByteRange.covers (selectedRanges source notes issues)
        (lineStop source comment.stop) = false := by
      rw [Bool.eq_false_iff, ne_eq, covers_selectedRanges_iff]
      rintro ⟨other, hother, hcontains⟩
      by_cases hsame : other = comment
      · rw [hsame, ByteRange.contains_iff, hstop] at hcontains
        exact Nat.lt_irrefl _ hcontains.2
      · have happart : comment.stop ≤ other.start ∨ other.stop ≤ comment.start := by
          rcases exists_span_of_isPurged hjoin hnotes hpurged with ⟨span, hspan, -, rfl⟩
          rcases exists_span_of_isPurged hjoin hnotes hother with ⟨second, hsecond, -, rfl⟩
          rcases htiles.eq_or_apart hspan hsecond with rfl | happart
          · exact absurd rfl hsame
          · exact happart
        rw [removalRange_leaves_newline (hfirm hpurged) (hfirm hother) happart hstop] at hcontains
        cases hcontains
    have hbyte := (List.getElem?_eq_some_iff.1 (hlineNewline hmore)).2
    rw [List.drop_eq_getElem_cons hmore, hbyte, Bytes.without_cons, Nat.add_zero, hsum, hnewline]
    intro byte hhead
    exact (Option.some.inj hhead).symm
  · rw [hend, List.drop_length]
    intro byte hhead
    cases hhead

/-- Behind a byte that is left, the first one that is deleted starts the range of a purged
comment. -/
theorem exists_range_of_covers {offset : Nat}
    (hstays : ByteRange.covers (selectedRanges source notes issues) offset = false)
    (hgone : ByteRange.covers (selectedRanges source notes issues) (offset + 1) = true) :
    ∃ comment, isPurged notes issues comment = true ∧
      (removalRange source comment).start = offset + 1 := by
  rcases covers_selectedRanges_iff.1 hgone with ⟨comment, hpurged, hcontains⟩
  refine ⟨comment, hpurged, ?_⟩
  rw [ByteRange.contains_iff] at hcontains
  refine Nat.le_antisymm hcontains.1 (Nat.lt_of_not_le fun hbefore => ?_)
  rw [Bool.eq_false_iff, ne_eq, covers_selectedRanges_iff] at hstays
  exact hstays ⟨comment, hpurged, ByteRange.contains_iff.2 ⟨hbefore, by omega⟩⟩

/-- Behind a part of a token that is left in front of a comment at the end of its line, the token
does not go on. -/
theorem not_prefix_of_endsLine (hsolid : ∀ opener ∈ grammar.openers, opener.IsSolid)
    (hjoin : query.join = false) (hnotes : grammar.annotations query source = .ok notes)
    {comment : ByteRange} (hpurged : isPurged notes issues comment = true)
    (hends : comment.endsLine source = true) {offset : Nat}
    (hstart : (removalRange source comment).start = offset + 1) {byte : UInt8}
    (hbyte : source[offset]? = some byte) (hnewline : byte ≠ Bytes.newline) {token part : Bytes}
    (htoken : Solid token) (hlong : part.length < token.length) :
    ¬ token <+: part ++ Bytes.without (source.drop (offset + 1)) fun more =>
      ByteRange.covers (selectedRanges source notes issues) (offset + 1 + more) := by
  intro hwhole
  have hstop : (removalRange source comment).stop = lineStop source comment.stop := by
    refine removalRange_stop_eq hends (by omega) ?_
    rw [hstart, Nat.add_sub_cancel, hbyte]
    exact fun hsame => hnewline (Option.some.inj hsame)
  have hhead := head?_without_of_endsLine hsolid hjoin hnotes hpurged hstop
  rw [hstart] at hhead
  obtain ⟨more, rfl⟩ :=
    List.prefix_of_prefix_length_le (List.prefix_append _ _) hwhole (Nat.le_of_lt hlong)
  have hmore := (List.prefix_append_right_inj part).1 hwhole
  rw [List.length_append] at hlong
  obtain ⟨first, more, rfl⟩ := List.exists_cons_of_ne_nil
    (List.length_pos_iff.1 (Nat.pos_of_lt_add_right hlong))
  rcases hmore with ⟨rest, hrest⟩
  rw [← hrest] at hhead
  have hblank := htoken first (by simp)
  rw [hhead first rfl] at hblank
  cases hblank

/-- If a token is new where a byte is left, a part of it was there already, directly in front of the
range of a purged comment. -/
theorem exists_part_of_new {token : Bytes} {offset : Nat}
    (hstays : ByteRange.covers (selectedRanges source notes issues) offset = false)
    (hnew : token <+: Bytes.without (source.drop offset) fun more =>
      ByteRange.covers (selectedRanges source notes issues) (offset + more))
    (hold : ¬ token <+: source.drop offset) :
    ∃ init last back comment, source.drop offset = init ++ [last] ++ back ∧
      (init ++ [last]).length < token.length ∧ isPurged notes issues comment = true ∧
      (removalRange source comment).start = offset + init.length + 1 ∧
      source.drop (offset + init.length + 1) = back ∧
      token <+: init ++ [last] ++ Bytes.without (source.drop (offset + init.length + 1)) fun more =>
        ByteRange.covers (selectedRanges source notes issues)
          (offset + init.length + 1 + more) := by
  rcases Bytes.exists_front_of_without (source.drop offset) fun more =>
      ByteRange.covers (selectedRanges source notes issues) (offset + more) with
    ⟨front, back, hsplit, hfront, hback, hwithout⟩
  have hbehind : source.drop (offset + front.length) = back := by
    rw [← List.drop_drop, hsplit, List.drop_left]
  rw [hwithout, ← hbehind] at hnew
  simp only [← Nat.add_assoc] at hnew
  have hlong : front.length < token.length := by
    refine Nat.lt_of_not_le fun hshort => hold ?_
    have hinside := List.prefix_of_prefix_length_le hnew (List.prefix_append front _) hshort
    rw [hsplit]
    exact hinside.trans (List.prefix_append _ _)
  have hgone : ByteRange.covers (selectedRanges source notes issues)
      (offset + front.length) = true := by
    refine hback fun hnil => ?_
    have hlength := hnew.length_le
    rw [hbehind, hnil, Bytes.without_nil, List.append_nil] at hlength
    omega
  rcases List.eq_nil_or_concat front with rfl | ⟨init, last, rfl⟩
  · rw [List.length_nil, Nat.add_zero, hstays] at hgone
    cases hgone
  · rw [List.concat_eq_append] at hsplit hfront hbehind hnew hlong hgone
    have hcount : offset + (init ++ [last]).length = offset + init.length + 1 := by
      rw [List.length_append, List.length_singleton, Nat.add_assoc]
    rw [hcount] at hgone hbehind hnew
    rcases exists_range_of_covers (hfront init.length (by simp)) hgone with
      ⟨comment, hpurged, hstart⟩
    exact ⟨init, last, back, comment, hsplit, hlong, hpurged, hstart, hbehind, hnew⟩

/-- Purging leaves no delimiter in code but those that were there: in the grammars in which bytes
that meet do not make up a delimiter, and in the others if the purged comments end their lines. -/
theorem unglued_selectedRanges (hsolid : ∀ opener ∈ grammar.openers, opener.IsSolid)
    (hunbounded : ∀ opener ∈ grammar.openers, opener.closing.isBounded = false)
    (hjoin : query.join = false) (hnotes : grammar.annotations query source = .ok notes)
    (hends : Seamless grammar.openers ∨ ∀ comment, isPurged notes issues comment = true →
      comment.endsLine source = true) :
    grammar.Unglued source (ByteRange.covers (selectedRanges source notes issues)) := by
  intro offset hoffset hstays hcode opener hopener hoccurs
  refine ⟨?_, fun hstaysCode => ?_⟩
  · have htoken := (hsolid opener hopener).token
    rw [Opener.occursAt_iff] at hoccurs ⊢
    refine ⟨hoccurs.1, Classical.byContradiction fun hold => ?_⟩
    obtain ⟨init, last, back, comment, hsplit, hlong, hpurged, hstart, hbehind, hwhole⟩ :=
      exists_part_of_new hstays hoccurs.2 hold
    have hpart : init ++ [last] <+: opener.token :=
      List.prefix_of_prefix_length_le (List.prefix_append _ _) hwhole (Nat.le_of_lt hlong)
    cases hend : comment.endsLine source with
    | true =>
        have hbyte : source[offset + init.length]? = some last := by
          rw [← List.getElem?_drop, hsplit, List.append_assoc]
          exact getElem?_middle init last back
        have hnewline : last ≠ Bytes.newline := by
          rintro rfl
          have hblank := htoken Bytes.newline (hpart.subset (by simp))
          cases hblank
        exact not_prefix_of_endsLine hsolid hjoin hnotes hpurged hend hstart hbyte hnewline htoken
          hlong hwhole
    | false =>
        rcases hends with hseamless | hends
        · rcases exists_span_of_isPurged hjoin hnotes hpurged with ⟨span, hspan, hkind, rfl⟩
          rw [removalRange_eq_self hend] at hstart
          have hspanStart : span.start = offset + init.length + 1 := hstart
          refine hcode (hseamless.encloses_part hsolid hunbounded (extract_of_annotations hnotes).1
            hspan hkind hopener (by simp) hpart hlong ?_ ?_)
          · rw [hspanStart, hbehind]
            exact hsplit
          · rw [hspanStart, List.length_append, List.length_singleton, Nat.add_assoc]
        · rw [hends comment hpurged] at hend
          cases hend
  · rw [Opener.staysCode, hunbounded opener hopener] at hstaysCode
    cases hstaysCode

end CommentMarkers
