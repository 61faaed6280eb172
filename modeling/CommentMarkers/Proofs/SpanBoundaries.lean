import CommentMarkers.Proofs.Immunity
import CommentMarkers.Proofs.Tiling

/-!
# Scanning from a boundary

Scanning has no memory at the boundaries of spans.  What it finds from a boundary on does not
depend on what is in front of the boundary, and where a construct closes does not depend on what is
behind the construct.  So a source can be scanned again from any boundary, and the text of a
construct is a source of its own with this construct in it.

Main results:

- Theorem `Closing.length?_front`: a construct closes in the same way where the source ends with it.
- Theorem `Lexes.drop_front`: the lexemes from a boundary on are those of the bytes from there on.
- Theorem `scan_from_boundary`: the same for the spans and the failure of a scan, and for the text
  of a single construct.
-/

namespace CommentMarkers

/-! ## Closing at the end of a source -/

/-- A token begins the front of some bytes if it begins them and is no longer than the front. -/
theorem isPrefixOf_take_iff {token bytes : Bytes} {size : Nat} :
    token.isPrefixOf (bytes.take size) = true ↔
      token.isPrefixOf bytes = true ∧ token.length ≤ size := by
  rw [List.isPrefixOf_iff_prefix, List.isPrefixOf_iff_prefix, List.prefix_take_iff]

/-- A nested comment closes in the same way if the bytes end somewhere behind it. -/
theorem closeNested_take {start stop bytes : Bytes} {depth length size : Nat} (hstop : stop ≠ [])
    (hclosed : closeNested start stop depth bytes = some length) (hsize : length ≤ size) :
    closeNested start stop depth (bytes.take size) = some length := by
  have hpos := List.length_pos_iff.2 hstop
  fun_induction closeNested start stop depth bytes generalizing length size with
  | case1 depth => cases hclosed
  | case2 byte rest hstops =>
      cases hclosed
      have hfront := isPrefixOf_take_iff.2 ⟨hstops, hsize⟩
      obtain ⟨size, rfl⟩ := Nat.exists_eq_succ_of_ne_zero (show size ≠ 0 by omega)
      rw [List.take_succ_cons] at hfront ⊢
      rw [closeNested, if_pos hfront]
  | case3 byte rest hstops depth ih =>
      obtain ⟨inner, hinner, rfl⟩ := Option.map_eq_some_iff.1 hclosed
      have hfront := isPrefixOf_take_iff.2 ⟨hstops, show stop.length ≤ size by omega⟩
      obtain ⟨size, rfl⟩ := Nat.exists_eq_succ_of_ne_zero (show size ≠ 0 by omega)
      rw [List.take_succ_cons] at hfront ⊢
      rw [closeNested, if_pos hfront, List.drop_take, ih hinner (by omega)]
      rfl
  | case4 depth byte rest hstops hstarts ih =>
      obtain ⟨inner, hinner, rfl⟩ := Option.map_eq_some_iff.1 hclosed
      have hfront := isPrefixOf_take_iff.2 ⟨hstarts, show start.length ≤ size by omega⟩
      have hnone : ¬ stop.isPrefixOf ((byte :: rest).take size) = true :=
        fun hfront => hstops (isPrefixOf_take_iff.1 hfront).1
      obtain ⟨size, rfl⟩ := Nat.exists_eq_succ_of_ne_zero (show size ≠ 0 by omega)
      rw [List.take_succ_cons] at hfront hnone ⊢
      rw [closeNested.eq_def]
      simp only
      rw [if_neg hnone, if_pos hfront, List.drop_take, ih hinner (by omega)]
      rfl
  | case5 depth byte rest hstops hstarts ih =>
      obtain ⟨inner, hinner, rfl⟩ := Option.map_eq_some_iff.1 hclosed
      have hnone : ∀ token : Bytes, ¬ token.isPrefixOf (byte :: rest) = true →
          ¬ token.isPrefixOf ((byte :: rest).take size) = true :=
        fun token htoken hfront => htoken (isPrefixOf_take_iff.1 hfront).1
      obtain ⟨size, rfl⟩ := Nat.exists_eq_succ_of_ne_zero (show size ≠ 0 by omega)
      rw [List.take_succ_cons] at hnone ⊢
      rw [closeNested.eq_def]
      simp only
      rw [if_neg (hnone stop hstops), if_neg (hnone start hstarts), ih hinner (by omega)]
      rfl

/-- An escape is read in the front of some bytes if it is read in them and is no longer than the
front. -/
theorem escapeLength_take_iff {token bytes : Bytes} {escape : Option Bytes} {length size : Nat} :
    escapeLength token escape (bytes.take size) = some length ↔
      escapeLength token escape bytes = some length ∧ length ≤ size := by
  rw [escapeLength_eq_some_iff, escapeLength_eq_some_iff]
  constructor
  · rintro (⟨hdouble, hstarts, rfl⟩ | ⟨mark, rfl, hne, hstarts, hlong, rfl⟩)
    · obtain ⟨hstarts, hfits⟩ := List.prefix_take_iff.1 hstarts
      rw [List.length_append] at hfits
      exact ⟨Or.inl ⟨hdouble, hstarts, rfl⟩, hfits⟩
    · rw [List.length_take] at hlong
      exact ⟨Or.inr ⟨mark, rfl, hne, (List.prefix_take_iff.1 hstarts).1, by omega, rfl⟩, by omega⟩
  · rintro ⟨⟨hdouble, hstarts, rfl⟩ | ⟨mark, rfl, hne, hstarts, hlong, rfl⟩, hsize⟩
    · refine Or.inl ⟨hdouble, List.prefix_take_iff.2 ⟨hstarts, ?_⟩, rfl⟩
      rwa [List.length_append]
    · refine Or.inr ⟨mark, rfl, hne, List.prefix_take_iff.2 ⟨hstarts, by omega⟩, ?_, rfl⟩
      rw [List.length_take]
      omega

/-- Where no escape is read in some bytes, none is read in a front of them. -/
theorem escapeLength_take_eq_none {token bytes : Bytes} {escape : Option Bytes}
    (hnone : escapeLength token escape bytes = none) (size : Nat) :
    escapeLength token escape (bytes.take size) = none := by
  rw [Option.eq_none_iff_forall_ne_some]
  intro length hlength
  rw [(escapeLength_take_iff.1 hlength).1] at hnone
  cases hnone

/-- A literal closes in the same way if the bytes end somewhere behind it. -/
theorem closeQuote_take {token bytes : Bytes} {escape : Option Bytes} {length size : Nat}
    (htoken : token ≠ []) (hclosed : closeQuote token escape bytes = some length)
    (hsize : length ≤ size) : closeQuote token escape (bytes.take size) = some length := by
  have hpos := List.length_pos_iff.2 htoken
  fun_induction closeQuote token escape bytes generalizing length size with
  | case1 => cases hclosed
  | case2 byte rest escaped hescape ih =>
      obtain ⟨inner, hinner, rfl⟩ := Option.map_eq_some_iff.1 hclosed
      have hfront := escapeLength_take_iff.2 ⟨hescape, show escaped ≤ size by omega⟩
      obtain ⟨size, rfl⟩ := Nat.exists_eq_succ_of_ne_zero (show size ≠ 0 by omega)
      rw [List.take_succ_cons] at hfront ⊢
      rw [closeQuote, hfront]
      simp only
      rw [List.drop_take, ih hinner (by omega)]
      rfl
  | case3 byte rest hescape hcloses =>
      cases hclosed
      have hnone := escapeLength_take_eq_none hescape size
      have hfront := isPrefixOf_take_iff.2 ⟨hcloses, hsize⟩
      obtain ⟨size, rfl⟩ := Nat.exists_eq_succ_of_ne_zero (show size ≠ 0 by omega)
      rw [List.take_succ_cons] at hnone hfront ⊢
      rw [closeQuote, hnone]
      simp only
      rw [if_pos hfront]
  | case4 byte rest hescape hcloses ih =>
      obtain ⟨inner, hinner, rfl⟩ := Option.map_eq_some_iff.1 hclosed
      have hnone := escapeLength_take_eq_none hescape size
      have hfront : ¬ token.isPrefixOf ((byte :: rest).take size) = true :=
        fun hfront => hcloses (isPrefixOf_take_iff.1 hfront).1
      obtain ⟨size, rfl⟩ := Nat.exists_eq_succ_of_ne_zero (show size ≠ 0 by omega)
      rw [List.take_succ_cons] at hnone hfront ⊢
      rw [closeQuote, hnone]
      simp only
      rw [if_neg hfront, ih hinner (by omega)]
      rfl

/-- A limited literal closes in the same way if the bytes end with it. -/
theorem closeBounded_front {token inner rest : Bytes} {escape : Option Bytes} {limit : Nat}
    (htoken : token ≠ [])
    (hclosed : closeBounded token escape limit (inner ++ rest) = some inner.length) :
    closeBounded token escape limit inner = some inner.length := by
  obtain ⟨hquote, hbody⟩ := Option.filter_eq_some_iff.1 hclosed
  have hwindow := closeQuote_take htoken hquote (Nat.le_refl _)
  rw [List.take_take, Nat.min_comm, ← List.take_take, List.take_left] at hwindow
  rw [List.take_append_of_le_length (Nat.sub_le _ _)] at hbody
  exact Option.filter_eq_some_iff.2 ⟨hwindow, hbody⟩

/-- A construct closes in the same way where the source ends with it. -/
theorem Closing.length?_front {closing : Closing}
    (hends : closing = .endOfLine ∨ closing.terminator ≠ []) {inner rest : Bytes}
    (hclosed : closing.length? (inner ++ rest) = some inner.length) :
    closing.length? inner = some inner.length := by
  have hterminator : closing ≠ .endOfLine → closing.terminator ≠ [] := fun hline =>
    hends.resolve_left hline
  cases closing with
  | endOfLine =>
      have hline := newline_not_mem_of_firstLineLength (Nat.le_of_eq (Option.some.inj hclosed).symm)
      have hlength := firstLineLength_append hline []
      rw [List.append_nil] at hlength
      exact congrArg some hlength
  | block stop =>
      have hfront : closeBlock stop (inner ++ []) = some inner.length :=
        closeBlock_local (hterminator (by simp)) hclosed
      rwa [List.append_nil] at hfront
  | nestedBlock start stop =>
      have hfront := closeNested_take (hterminator (by simp)) hclosed (Nat.le_refl _)
      rwa [List.take_left] at hfront
  | quote token escape =>
      have hfront := closeQuote_take (hterminator (by simp)) hclosed (Nat.le_refl _)
      rwa [List.take_left] at hfront
  | boundedQuote token escape limit => exact closeBounded_front (hterminator (by simp)) hclosed

/-- What opens at the beginning of a text opens there if the bytes end behind its token. -/
theorem opening_front {openers : List Opener} {opener : Opener} {inner rest : Bytes}
    (hopening : opening openers (opener.token ++ (inner ++ rest)) = some opener) :
    opening openers (opener.token ++ inner) = some opener := by
  obtain ⟨hoccurs, before, after, hopeners, hnone⟩ := List.find?_eq_some_iff_append.1 hopening
  rw [Opener.occursAt_iff] at hoccurs
  refine List.find?_eq_some_iff_append.2
    ⟨Opener.occursAt_iff.2 ⟨hoccurs.1, List.prefix_append _ _⟩, before, after, hopeners, ?_⟩
  intro other hother
  have hnot := hnone other hother
  rw [Bool.not_eq_true', Bool.eq_false_iff, ne_eq, Opener.occursAt_iff] at hnot ⊢
  intro hfront
  refine hnot ⟨hfront.1, hfront.2.trans ?_⟩
  rw [← List.append_assoc]
  exact List.prefix_append _ _

/-! ## Lexemes from a boundary on -/

/-- A construct that opens at the beginning of a text is the next one. -/
theorem nextConstruct_of_opens {openers : List Opener} {bytes : Bytes} {opener : Opener}
    (hopens : opening openers bytes = some opener ∧ opener.staysCode bytes = false) :
    nextConstruct openers bytes = some (0, opener) := by
  rw [nextConstruct_of_some hopens.1, if_neg (by simp [hopens.2])]

/-- Code is at most one lexeme, so a boundary is in front of all of it or behind it. -/
theorem code_boundary {code : Bytes} {more front back : List Lexeme}
    (hsplit : Lexeme.code code ++ more = front ++ back) :
    front = [] ∨ ∃ inner, front = Lexeme.code code ++ inner ∧ more = inner ++ back := by
  cases code with
  | nil => exact Or.inr ⟨front, rfl, hsplit⟩
  | cons byte code =>
      cases front with
      | nil => exact Or.inl rfl
      | cons lexeme front =>
          obtain ⟨hfirst, hmore⟩ := List.cons.inj hsplit
          exact Or.inr ⟨front, congrArg (· :: front) hfirst.symm, hmore⟩

namespace Lexes

variable {openers : List Opener} {bytes : Bytes} {lexing : Lexing} {front back : List Lexeme}

/-- The lexemes behind the beginning are all lexemes. -/
theorem drop_nil (hlexes : Lexes openers bytes lexing) (hsplit : lexing.lexemes = [] ++ back) :
    Lexes openers (bytes.drop (textOf []).length) ⟨back, lexing.unclosed⟩ := by
  rw [List.nil_append] at hsplit
  rw [← hsplit]
  exact hlexes

/-- Scanning from a boundary on finds the lexemes behind the boundary. -/
theorem drop_front (hlexes : Lexes openers bytes lexing)
    (hsplit : lexing.lexemes = front ++ back) :
    Lexes openers (bytes.drop (textOf front).length) ⟨back, lexing.unclosed⟩ := by
  induction hlexes generalizing front with
  | code bytes hnext =>
      have hcode : Lexeme.code bytes ++ [] = front ++ back := by rwa [List.append_nil]
      rcases code_boundary hcode with rfl | ⟨inner, rfl, hmore⟩
      · exact (Lexes.code bytes hnext).drop_nil hsplit
      · obtain ⟨rfl, rfl⟩ := List.append_eq_nil_iff.1 hmore.symm
        rw [List.append_nil, textOf_code, List.drop_length]
        exact Lexes.code [] (by rw [nextConstruct])
  | unclosed code tail opener hnext hopen =>
      have hcode : Lexeme.code code ++ [] = front ++ back := by rwa [List.append_nil]
      rcases code_boundary hcode with rfl | ⟨inner, rfl, hmore⟩
      · exact (Lexes.unclosed code tail opener hnext hopen).drop_nil hsplit
      · obtain ⟨rfl, rfl⟩ := List.append_eq_nil_iff.1 hmore.symm
        rw [List.append_nil, textOf_code, List.drop_left]
        exact Lexes.unclosed [] tail opener
          (nextConstruct_of_opens (opening_of_nextConstruct hnext)) hopen
  | closed code inner rest opener lexing hnext hclosed hrest ih =>
      have hwhole := Lexes.closed code inner rest opener lexing hnext hclosed hrest
      simp only [Lexing.prepend, List.append_assoc] at hsplit
      rcases code_boundary hsplit with rfl | ⟨within, rfl, hmore⟩
      · exact hwhole.drop_nil (by simpa only [Lexing.prepend, List.append_assoc] using hsplit)
      · rw [textOf_append, textOf_code, List.length_append, ← List.drop_drop, List.drop_left]
        cases within with
        | nil =>
            rw [List.nil_append] at hmore
            rw [← hmore]
            exact Lexes.closed [] inner rest opener lexing
              (nextConstruct_of_opens (opening_of_nextConstruct hnext)) hclosed hrest
        | cons own within =>
            obtain ⟨rfl, hlexemes⟩ := List.cons.inj hmore
            rw [textOf_cons, Lexeme.text_ofConstruct, List.length_append, ← List.drop_drop,
              ← List.append_assoc, List.drop_left]
            exact ih hlexemes

/-- The text of a construct, scanned alone, is this construct. -/
theorem alone {grammar : Grammar} (haccepted : grammar.Accepted) {construct : Lexeme}
    (hlexes : Lexes grammar.openers bytes lexing) (hkind : construct.kind ≠ .code)
    (hsplit : lexing.lexemes = front ++ construct :: back) {behind : Bytes}
    (hbytes : bytes = textOf front ++ (construct.text ++ behind)) :
    Lexes grammar.openers construct.text ⟨[construct], none⟩ := by
  obtain ⟨opener, hopener, inner, rfl, hclosed, hopening⟩ :=
    hlexes.exists_opener hkind hsplit hbytes
  have hfront := Closing.length?_front (haccepted.endOfLine_or_terminator_ne_nil hopener) hclosed
  have hopens : opener.staysCode (opener.token ++ inner) = false := by
    rw [Opener.staysCode, List.drop_left, hfront]
    exact Bool.and_false _
  have hclosing : opener.closing.length? (inner ++ []) = some inner.length := by
    rwa [List.append_nil]
  have hnext := nextConstruct_of_opens ⟨opening_front hopening, hopens⟩
  have halone := Lexes.closed [] inner [] opener ⟨[], none⟩ (by rwa [List.append_nil]) hclosing
    (Lexes.code [] (by rw [nextConstruct]))
  rw [List.append_nil] at halone
  exact halone

end Lexes

/-! ## Spans from a boundary on -/

variable {grammar : Grammar} {source : Bytes}

/-- Holds of the offsets where a span of a source starts or stops. -/
def Grammar.IsBoundary (grammar : Grammar) (source : Bytes) (offset : Nat) : Prop :=
  ∃ span ∈ (grammar.scan source).spans, offset = span.start ∨ offset = span.stop

/-- A boundary has lexemes in front of it and behind it. -/
theorem Grammar.IsBoundary.exists_split {offset : Nat}
    (hoffset : grammar.IsBoundary source offset) :
    ∃ front back, (lex grammar.openers source).lexemes = front ++ back ∧
      offset = (textOf front).length := by
  obtain ⟨span, hspan, hends⟩ := hoffset
  obtain ⟨before, after, hspans⟩ := List.append_of_mem hspan
  obtain ⟨front, lexeme, back, hsplit, -, rfl, -⟩ := exists_split_of_scan hspans
  have hstart : (Position.first.advance (textOf front)).offset = (textOf front).length := by
    rw [Position.offset_advance]
    exact Nat.zero_add _
  rcases hends with rfl | rfl
  · exact ⟨front, lexeme :: back, hsplit, hstart⟩
  · refine ⟨front ++ [lexeme], back, by rw [hsplit, List.append_assoc]; rfl, ?_⟩
    rw [textOf_append, List.length_append, textOf_cons, textOf_nil, List.append_nil, ← hstart]
    rfl

/-- The spans that start at a boundary or behind it are those of the lexemes behind it. -/
theorem filter_spans {front back : List Lexeme}
    (hsplit : (lex grammar.openers source).lexemes = front ++ back) :
    (grammar.scan source).spans.filter (fun span => (textOf front).length ≤ span.start) =
      placeSpans (Position.first.advance (textOf front)) back := by
  have hwellFormed := (lexes_lex grammar.openers source).wellFormed
  rw [hsplit] at hwellFormed
  have hfront := tiles_placeSpans
    (fun lexeme hlexeme => hwellFormed lexeme (List.mem_append_left _ hlexeme)) .first
  have hback := tiles_placeSpans
    (fun lexeme hlexeme => hwellFormed lexeme (List.mem_append_right _ hlexeme))
    (Position.first.advance (textOf front))
  rw [Position.offset_advance, show Position.first.offset = 0 from rfl, Nat.zero_add] at hback
  rw [show Position.first.offset = 0 from rfl, Nat.zero_add] at hfront
  rw [Grammar.scan_eq]
  change (placeSpans .first (lex grammar.openers source).lexemes).filter _ = _
  rw [hsplit, placeSpans_append, List.filter_append, List.filter_eq_nil_iff.2 ?_,
    List.filter_eq_self.2 ?_, List.nil_append]
  · intro span hspan
    exact decide_eq_true (hback.bounds.2 span hspan).1
  · intro span hspan hbehind
    have hbounds := (hfront.bounds.2 span hspan).2
    have hlong := hfront.start_lt_stop span hspan
    have hstart := of_decide_eq_true hbehind
    omega

/-- From a boundary on, a source is scanned like the bytes from there on. -/
theorem scan_shifted {offset : Nat} (hoffset : grammar.IsBoundary source offset) :
    List.Forall₂ (Span.ShiftedBy (-offset))
        ((grammar.scan source).spans.filter (offset ≤ ·.start))
        (grammar.scan (source.drop offset)).spans ∧
      Option.Rel (Unclosed.ShiftedBy (-offset)) (grammar.scan source).failure
        (grammar.scan (source.drop offset)).failure := by
  obtain ⟨front, back, hsplit, rfl⟩ := hoffset.exists_split
  have hbehind := ((lexes_lex grammar.openers source).drop_front hsplit).eq_lex
  have hplace : ∀ text : Bytes,
      ((Position.first.advance text).offset : Int) =
        (Position.first.advance (textOf front ++ text)).offset +
          -((textOf front).length : Int) := by
    intro text
    rw [Position.offset_advance, Position.offset_advance, List.length_append]
    omega
  rw [filter_spans hsplit, grammar.scan_eq (source.drop _), ← hbehind, Grammar.scan_eq]
  constructor
  · have hstart := hplace []
    rw [List.append_nil] at hstart
    exact placeSpans_shifted hstart back
  · simp only [Lexing.scanFrom, placeBehind_eq, hsplit, textOf_append]
    exact failure_shifted (hplace (textOf back)) _

/-- The text of a construct is scanned as this construct. -/
theorem scan_text (haccepted : grammar.Accepted) {span : Span}
    (hspan : span ∈ (grammar.scan source).spans) (hkind : span.kind ≠ .code) :
    grammar.scan (span.text source) =
      ⟨[{ span with start := 0, stop := span.stop - span.start, line := 1, column := 1 }],
        none⟩ := by
  obtain ⟨before, after, hspans⟩ := List.append_of_mem hspan
  obtain ⟨front, construct, back, hsplit, -, hplaced, -, hfront, hsource⟩ :=
    exists_split_of_scan hspans
  have hconstruct : construct.kind ≠ .code := by
    rw [hplaced] at hkind
    exact hkind
  have halone := (lexes_lex grammar.openers source).alone haccepted hconstruct hsplit hsource
  have hstart : span.start = (textOf front).length := by
    rw [hplaced, Lexeme.spanAt, Position.offset_advance]
    exact Nat.zero_add _
  have hstop : span.stop = span.start + construct.text.length := by
    rw [hplaced]
    rfl
  have htext : span.text source = construct.text := by
    rw [Span.text, hstop, hstart]
    conv_lhs => rw [hsource]
    exact slice_middle _ _ _
  rw [htext, Grammar.scan_eq, ← halone.eq_lex, hstop, Nat.add_sub_cancel_left, hplaced]
  simp only [Lexing.scanFrom, placeSpans, Lexeme.spanAt, Position.first, Option.map_none,
    Nat.zero_add]

/-- Scanning has no memory at boundaries.  From a boundary on, a source has the same spans as the
bytes from there on, moved by what is in front of them, and so it is with a construct that is left
open.  The text of a construct has this construct as its only span. -/
theorem scan_from_boundary (haccepted : grammar.Accepted) (source : Bytes) :
    (∀ offset, grammar.IsBoundary source offset →
      List.Forall₂ (Span.ShiftedBy (-offset))
          ((grammar.scan source).spans.filter (offset ≤ ·.start))
          (grammar.scan (source.drop offset)).spans ∧
        Option.Rel (Unclosed.ShiftedBy (-offset)) (grammar.scan source).failure
          (grammar.scan (source.drop offset)).failure) ∧
      ∀ span ∈ (grammar.scan source).spans, span.kind ≠ .code →
        grammar.scan (span.text source) =
          ⟨[{ span with start := 0, stop := span.stop - span.start, line := 1, column := 1 }],
            none⟩ :=
  ⟨fun _ => scan_shifted, fun _ => scan_text haccepted⟩

/-- A literal with a doubled quote and the comment behind it, which is left open. -/
theorem scan_from_boundary_doubled_quote :
    Grammar.sql.Accepted ∧
      Grammar.sql.scan (Text.encode "'a''b'") =
        ⟨[⟨.stringLiteral, 0, 6, 1, 1, "'", "'"⟩], none⟩ ∧
      List.Forall₂ (Span.ShiftedBy (-8))
        ((Grammar.sql.scan (Text.encode "x 'a''b' /* c")).spans.filter (8 ≤ ·.start))
        (Grammar.sql.scan (Text.encode " /* c")).spans := by
  have haccepted : Grammar.sql.Accepted := Grammar.builtin_accepted _ (by decide)
  obtain ⟨hshifted, halone⟩ := scan_from_boundary haccepted (Text.encode "x 'a''b' /* c")
  refine ⟨haccepted, ?_, ?_⟩
  · exact halone ⟨.stringLiteral, 2, 8, 1, 3, "'", "'"⟩ (by decide +kernel) (by decide)
  · exact (hshifted 8 ⟨⟨.stringLiteral, 2, 8, 1, 3, "'", "'"⟩, by decide +kernel,
      Or.inr rfl⟩).1

end CommentMarkers
