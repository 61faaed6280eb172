import CommentMarkers.Grammar.Builtin
import CommentMarkers.Proofs.Lexing
import Mathlib.Data.List.Chain

/-!
# Spans tile their source

The spans of a scan follow each other without gaps.  This file states that as a relation between
two offsets and a list of spans, and proves it for every grammar and every source, together with
what each span looks like from inside.

Main results:

- Theorem `tiles_placeSpans`: lexemes that follow each other become spans that tile their text.
- Theorem `Lexeme.WellFormed.isDelimited`: the text of a construct is its opener, a body and its
  closer.
- Theorem `scan_tiles`: the spans of a scan tile the source, or the part of it in front of the
  delimiter that is left open.
-/

namespace CommentMarkers

/-! ## Tilings -/

/-- Spans that are not empty and lead from `start` to `stop` without a gap. -/
def Tiles (start stop : Nat) : List Span → Prop
  | [] => start = stop
  | span :: rest => span.start = start ∧ start < span.stop ∧ Tiles span.stop stop rest

/-- Spans that tile a range lie inside it. -/
theorem Tiles.bounds {start stop : Nat} {spans : List Span} (htiles : Tiles start stop spans) :
    start ≤ stop ∧ ∀ span ∈ spans, start ≤ span.start ∧ span.stop ≤ stop := by
  induction spans generalizing start with
  | nil => exact ⟨Nat.le_of_eq htiles, fun span hspan => by cases hspan⟩
  | cons span rest ih =>
      rcases htiles with ⟨hstart, hpos, hrest⟩
      rcases ih hrest with ⟨hle, hinside⟩
      refine ⟨by omega, ?_⟩
      intro other hother
      rcases List.mem_cons.1 hother with rfl | hother
      · omega
      · have hbounds := hinside other hother
        omega

/-- Spans that tile a range follow each other. -/
theorem Tiles.pairwise {start stop : Nat} {spans : List Span} (htiles : Tiles start stop spans) :
    spans.Pairwise fun first second => first.stop ≤ second.start := by
  induction spans generalizing start with
  | nil => exact List.Pairwise.nil
  | cons span rest ih =>
      rcases htiles with ⟨-, -, hrest⟩
      exact List.Pairwise.cons (fun other hother => (hrest.bounds.2 other hother).1) (ih hrest)

/-- Spans that tile a range are not empty. -/
theorem Tiles.start_lt_stop {start stop : Nat} {spans : List Span}
    (htiles : Tiles start stop spans) : ∀ span ∈ spans, span.start < span.stop := by
  induction spans generalizing start with
  | nil =>
      intro span hspan
      cases hspan
  | cons span rest ih =>
      rcases htiles with ⟨hstart, hlt, hrest⟩
      exact List.forall_mem_cons.2 ⟨by rw [hstart]; exact hlt, ih hrest⟩

/-- Of the spans that tile a range, those that start behind a span come behind it, and the one that
starts with it is the same. -/
theorem Tiles.mem_of_start_le {start stop : Nat} {before following : List Span} {span other : Span}
    (htiles : Tiles start stop (before ++ span :: following))
    (hother : other ∈ before ++ span :: following) (hstart : span.start ≤ other.start) :
    other = span ∨ other ∈ following ∧ span.start < other.start := by
  have hpos := htiles.start_lt_stop
  rcases List.pairwise_append.1 htiles.pairwise with ⟨-, hbehind, hbetween⟩
  rcases List.mem_append.1 hother with hbefore | hother
  · have hends := hbetween other hbefore span List.mem_cons_self
    have hlong := hpos other (List.mem_append_left _ hbefore)
    omega
  · rcases List.mem_cons.1 hother with rfl | hafter
    · exact Or.inl rfl
    · have hends := (List.pairwise_cons.1 hbehind).1 other hafter
      have hlong := hpos span (by simp)
      exact Or.inr ⟨hafter, by omega⟩

/-- Two spans that tile a range with others are the same or lie apart. -/
theorem Tiles.eq_or_apart {start stop : Nat} {spans : List Span} {first second : Span}
    (htiles : Tiles start stop spans) (hfirst : first ∈ spans) (hsecond : second ∈ spans) :
    first = second ∨ first.stop ≤ second.start ∨ second.stop ≤ first.start := by
  have hbehind : ∀ {first second : Span}, first ∈ spans → second ∈ spans →
      first.start ≤ second.start → second = first ∨ first.stop ≤ second.start := by
    intro first second hfirst hsecond hstart
    rcases List.append_of_mem hfirst with ⟨before, following, rfl⟩
    rcases htiles.mem_of_start_le hsecond hstart with hsame | ⟨hfollowing, -⟩
    · exact Or.inl hsame
    · have horder := (List.pairwise_append.1 htiles.pairwise).2.1
      exact Or.inr ((List.pairwise_cons.1 horder).1 second hfollowing)
  rcases Nat.le_total first.start second.start with hle | hle
  · exact (hbehind hfirst hsecond hle).imp Eq.symm Or.inl
  · exact (hbehind hsecond hfirst hle).imp_right Or.inr

/-- Spans of which at most one is code. -/
def NotBothCode (first second : Span) : Prop :=
  ¬ (first.kind = .code ∧ second.kind = .code)

/-- A span whose text is its opener, its body and its closer, none of which overlap. -/
structure Span.IsDelimited (span : Span) (source : Bytes) : Prop where
  fits : span.bodyStart + (Text.encode span.closer).length ≤ span.stop
  text_eq : span.text source =
    Text.encode span.opener ++ (span.body source ++ Text.encode span.closer)

/-- Lexemes that follow each other become spans that tile their text. -/
theorem tiles_placeSpans {lexemes : List Lexeme}
    (hlexemes : ∀ lexeme ∈ lexemes, lexeme.WellFormed) (place : Position) :
    Tiles place.offset (place.offset + (textOf lexemes).length) (placeSpans place lexemes) := by
  induction lexemes generalizing place with
  | nil => rfl
  | cons lexeme rest ih =>
      rcases List.forall_mem_cons.1 hlexemes with ⟨hfirst, hrest⟩
      have hpos := List.length_pos_iff.2 hfirst.nonempty
      refine ⟨rfl, ?_, ?_⟩
      · simp only [Lexeme.spanAt]
        omega
      · have hmore := ih hrest (place.advance lexeme.text)
        rw [Position.offset_advance] at hmore
        rw [textOf_cons, List.length_append, ← Nat.add_assoc]
        exact hmore

/-! ## Spans from inside -/

/-- The text of a construct is its opener, a body and its closer. -/
theorem Lexeme.WellFormed.isDelimited {lexeme : Lexeme} (hlexeme : lexeme.WellFormed)
    (hkind : lexeme.kind ≠ .code) {front back : Bytes} {place : Position}
    (hplace : place.offset = front.length) :
    (lexeme.spanAt place).IsDelimited (front ++ (lexeme.text ++ back)) := by
  rcases hlexeme.delimited hkind with ⟨body, hbody⟩
  have hlength := congrArg List.length hbody
  simp only [List.length_append] at hlength
  have hfits : (lexeme.spanAt place).bodyStart + (Text.encode lexeme.closer).length ≤
      (lexeme.spanAt place).stop := by
    simp only [Span.bodyStart, spanAt]
    omega
  refine ⟨hfits, ?_⟩
  have htext : (lexeme.spanAt place).text (front ++ (lexeme.text ++ back)) = lexeme.text := by
    simp only [Span.text, spanAt, hplace]
    exact slice_middle front lexeme.text back
  have hbodyText : (lexeme.spanAt place).body (front ++ (lexeme.text ++ back)) = body := by
    rw [Span.body_eq_slice _ (by simp only [spanAt]; omega)]
    simp only [Span.bodyStart, Span.bodyStop, spanAt, hplace, hlength]
    have hstop : front.length + ((Text.encode lexeme.opener).length +
          (body.length + (Text.encode lexeme.closer).length)) -
          (Text.encode lexeme.closer).length =
        (front ++ Text.encode lexeme.opener).length + body.length := by
      rw [List.length_append]
      omega
    rw [hstop, ← List.length_append, hbody]
    simp only [List.append_assoc]
    rw [← List.append_assoc front]
    exact slice_middle _ body _
  rw [htext, hbodyText]
  exact hbody

/-- Every construct among placed lexemes is delimited. -/
theorem isDelimited_of_mem_placeSpans {lexemes : List Lexeme}
    (hlexemes : ∀ lexeme ∈ lexemes, lexeme.WellFormed) (front : Bytes) {back source : Bytes}
    (hsource : source = front ++ (textOf lexemes ++ back)) {place : Position}
    (hplace : place.offset = front.length) :
    ∀ span ∈ placeSpans place lexemes, span.kind ≠ .code → span.IsDelimited source := by
  induction lexemes generalizing front place with
  | nil =>
      intro span hspan
      cases hspan
  | cons lexeme rest ih =>
      rcases List.forall_mem_cons.1 hlexemes with ⟨hfirst, hrest⟩
      rw [textOf_cons, List.append_assoc] at hsource
      intro span hspan hkind
      rcases List.mem_cons.1 hspan with rfl | hspan
      · rw [hsource]
        exact hfirst.isDelimited hkind hplace
      · refine ih hrest (front ++ lexeme.text) ?_ ?_ span hspan hkind
        · rw [hsource, List.append_assoc]
        · rw [Position.offset_advance, hplace, List.length_append]

/-! ## Neighbours -/

/-- Placing lexemes keeps their kinds. -/
theorem kinds_placeSpans (place : Position) (lexemes : List Lexeme) :
    (placeSpans place lexemes).map (·.kind) = lexemes.map (·.kind) := by
  induction lexemes generalizing place with
  | nil => rfl
  | cons lexeme rest ih =>
      rw [placeSpans, List.map_cons, List.map_cons, ih]
      rfl

/-- Kinds of which at most one is code. -/
def KindsNotBothCode (first second : SpanKind) : Prop :=
  ¬ (first = .code ∧ second = .code)

/-- A construct may be followed by anything. -/
theorem isChain_cons_construct {kind : SpanKind} (hkind : kind ≠ .code) {kinds : List SpanKind}
    (hkinds : kinds.IsChain KindsNotBothCode) : (kind :: kinds).IsChain KindsNotBothCode := by
  cases kinds with
  | nil => exact List.isChain_singleton kind
  | cons second rest =>
      rw [List.isChain_cons_cons]
      exact ⟨fun hboth => hkind hboth.1, hkinds⟩

/-- Code is followed by a construct. -/
theorem isChain_code_append {kind : SpanKind} (hkind : kind ≠ .code) (code : Bytes)
    {kinds : List SpanKind} (hkinds : (kind :: kinds).IsChain KindsNotBothCode) :
    ((Lexeme.code code).map (·.kind) ++ kind :: kinds).IsChain KindsNotBothCode := by
  cases code with
  | nil => exact hkinds
  | cons byte code =>
      simp only [Lexeme.code, List.isEmpty_cons, Bool.false_eq_true, if_false, List.map_cons,
        List.map_nil, List.cons_append, List.nil_append]
      rw [List.isChain_cons_cons]
      exact ⟨fun hboth => hkind hboth.2, hkinds⟩

/-- A stretch of code is at most one lexeme. -/
theorem isChain_code (code : Bytes) :
    ((Lexeme.code code).map (·.kind)).IsChain KindsNotBothCode := by
  cases code with
  | nil => exact List.isChain_nil
  | cons byte code => exact List.isChain_singleton _

/-- Between two lexemes of code there is always a construct. -/
theorem Lexes.isChain_kinds {grammar : Grammar} {bytes : Bytes} {lexing : Lexing}
    (hlexes : Lexes grammar.openers bytes lexing) :
    (lexing.lexemes.map (·.kind)).IsChain KindsNotBothCode := by
  induction hlexes with
  | code bytes hnext => exact isChain_code bytes
  | unclosed code tail opener hnext hopen => exact isChain_code code
  | closed code inner rest opener lexing hnext hclosed hrest ih =>
      have hkind := Grammar.kind_ne_code_of_mem_openers (mem_of_nextConstruct hnext)
      simp only [Lexing.prepend, List.map_append, List.append_assoc, List.map_cons,
        List.singleton_append]
      exact isChain_code_append hkind code (isChain_cons_construct hkind ih)

/-! ## Whole scans -/

variable {grammar : Grammar} {source : Bytes}

/-- No two neighbours among the spans of a scan are both code. -/
theorem isChain_scan (grammar : Grammar) (source : Bytes) :
    (grammar.scan source).spans.IsChain NotBothCode := by
  have hchain := (lexes_lex grammar.openers source).isChain_kinds
  rwa [← kinds_placeSpans .first, List.isChain_map] at hchain

/-- The lexemes of a source begin it. -/
theorem exists_eq_textOf_append (grammar : Grammar) (source : Bytes) :
    ∃ back, source = textOf (lex grammar.openers source).lexemes ++ back := by
  have htexts := (lexes_lex grammar.openers source).texts_eq
  split at htexts
  · exact ⟨[], by rw [List.append_nil]; exact htexts⟩
  · obtain ⟨-, -, tail, hsource⟩ := htexts
    exact ⟨_, hsource⟩

/-- Every construct among the spans of a scan is its opener, its body and its closer. -/
theorem isDelimited_of_mem_scan {span : Span} (hspan : span ∈ (grammar.scan source).spans)
    (hkind : span.kind ≠ .code) : span.IsDelimited source := by
  obtain ⟨back, hsource⟩ := exists_eq_textOf_append grammar source
  rw [Grammar.scan_eq] at hspan
  exact isDelimited_of_mem_placeSpans (lexes_lex grammar.openers source).wellFormed [] hsource rfl
    span hspan hkind

/-- The spans of a scan tile the texts of its lexemes. -/
theorem tiles_textOf (grammar : Grammar) (source : Bytes) :
    Tiles 0 (textOf (lex grammar.openers source).lexemes).length (grammar.scan source).spans := by
  have htiles := tiles_placeSpans (lexes_lex grammar.openers source).wellFormed .first
  rwa [show Position.first.offset = 0 from rfl, Nat.zero_add] at htiles

/-- The spans of a scan lie in the source. -/
theorem stop_le_of_mem_scan {span : Span} (hspan : span ∈ (grammar.scan source).spans) :
    span.stop ≤ source.length := by
  obtain ⟨back, hsource⟩ := exists_eq_textOf_append grammar source
  have hlength := congrArg List.length hsource
  have hstop := ((tiles_textOf grammar source).bounds.2 span hspan).2
  rw [List.length_append] at hlength
  omega

/-- The spans of a scan that reaches the end of the source tile it. -/
theorem tiles_of_scan (hcomplete : (grammar.scan source).failure = none) :
    Tiles 0 source.length (grammar.scan source).spans := by
  have htexts := (lexes_lex grammar.openers source).texts_eq
  rw [Grammar.scan_eq, Lexing.scanFrom, Option.map_eq_none_iff] at hcomplete
  rw [hcomplete] at htexts
  have htiles := tiles_textOf grammar source
  rwa [← htexts] at htiles

/-- A construct of a source that is left open stands behind its lexemes. -/
theorem unclosed_of_scan {failure : Unclosed}
    (hfailure : (grammar.scan source).failure = some failure) :
    ∃ opener ∈ grammar.openers, ∃ tail,
      source = textOf (lex grammar.openers source).lexemes ++ (opener.token ++ tail) ∧
        failure = opener.unclosedAt
          (Position.first.advance (textOf (lex grammar.openers source).lexemes)) ∧
        failure.place.offset = (textOf (lex grammar.openers source).lexemes).length ∧
        opener.token = Text.encode failure.delimiter ∧ opener.token ≠ [] := by
  have htexts := (lexes_lex grammar.openers source).texts_eq
  rw [Grammar.scan_eq, Lexing.scanFrom, Option.map_eq_some_iff] at hfailure
  obtain ⟨opener, hopener, rfl⟩ := hfailure
  rw [hopener] at htexts
  obtain ⟨hmem, htoken, tail, hsource⟩ := htexts
  rw [placeBehind_eq]
  refine ⟨opener, hmem, tail, hsource, rfl, ?_,
    (Grammar.delimiters_of_mem_openers hmem).1, htoken⟩
  rw [Opener.unclosedAt, Position.offset_advance]
  exact Nat.zero_add _

/-- The spans of a scan tile the source, and where a construct is left open they tile what is in
front of its delimiter, which occurs there.  No two neighbours are both code, and every other span
is its opener, its body and its closer. -/
theorem scan_tiles (grammar : Grammar) (source : Bytes) :
    (grammar.scan source).spans.IsChain NotBothCode ∧
      (∀ span ∈ (grammar.scan source).spans, span.kind ≠ .code → span.IsDelimited source) ∧
      match (grammar.scan source).failure with
      | none => Tiles 0 source.length (grammar.scan source).spans
      | some failure =>
        Tiles 0 failure.place.offset (grammar.scan source).spans ∧
          Text.encode failure.delimiter ≠ [] ∧
          Text.encode failure.delimiter <+: source.drop failure.place.offset := by
  refine ⟨isChain_scan grammar source, fun span => isDelimited_of_mem_scan, ?_⟩
  split
  · rename_i hcomplete
    exact tiles_of_scan hcomplete
  · rename_i failure hfailure
    obtain ⟨opener, -, tail, hsource, -, hoffset, htoken, hne⟩ := unclosed_of_scan hfailure
    rw [hoffset, ← htoken]
    refine ⟨tiles_textOf grammar source, hne, ?_⟩
    have hdrop := congrArg
      (List.drop (textOf (lex grammar.openers source).lexemes).length) hsource
    rw [List.drop_left] at hdrop
    rw [hdrop]
    exact List.prefix_append opener.token tail

/-- A source that ends inside a string, with a comment and code in front of it. -/
theorem scan_tiles_unclosed :
    (Grammar.c.scan (Text.encode "/* é */x = \"y")).spans.IsChain NotBothCode ∧
      (∀ span ∈ (Grammar.c.scan (Text.encode "/* é */x = \"y")).spans, span.kind ≠ .code →
        span.IsDelimited (Text.encode "/* é */x = \"y")) ∧
      Tiles 0 12 (Grammar.c.scan (Text.encode "/* é */x = \"y")).spans ∧
      Text.encode "\"" ≠ [] ∧
      Text.encode "\"" <+: (Text.encode "/* é */x = \"y").drop 12 := by
  have hfailure : (Grammar.c.scan (Text.encode "/* é */x = \"y")).failure =
      some ⟨.literal, "\"", ⟨12, 1, 13⟩, none⟩ := by decide +kernel
  have htiles := scan_tiles .c (Text.encode "/* é */x = \"y")
  rw [hfailure] at htiles
  exact htiles

end CommentMarkers
