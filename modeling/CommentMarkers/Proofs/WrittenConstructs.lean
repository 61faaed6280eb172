import CommentMarkers.Grammar.Builtin
import CommentMarkers.Proofs.LongestMatch
import CommentMarkers.Proofs.QuoteLimits

/-!
# Constructs as they are written

Who writes a comment inside another one, or quotes a text, wants the scanner to read all of it as
one construct.  This file writes nested comments as trees and quoted texts byte by byte, and shows
that scanning reads them back, whatever follows.

Main results:

- Theorem `scan_leading`: a construct at the beginning of a source is its first span.
- Theorem `CommentPart.closeNested_renderAll`: the depth behind the parts of a comment is the one in
  front of them.
- Theorem `nested_comment_scanned`: a tree of comments is one block comment.
- Theorem `closeQuote_escaped`: a literal closes behind the escaped text in it.
- Theorem `quoted_text_scanned`: a quoted text is one literal.
-/

namespace CommentMarkers

variable {grammar : Grammar}

/-! ## Constructs at the beginning of a source -/

section Leading

variable {opener : Opener} {inner rest : Bytes}

/-- A construct that opens at the beginning of a source and is closed is its first span. -/
theorem scan_leading
    (hopening : opening grammar.openers (opener.token ++ (inner ++ rest)) = some opener)
    (hclosed : opener.closing.length? (inner ++ rest) = some inner.length) :
    (grammar.scan (opener.token ++ (inner ++ rest))).spans.head? =
      some ⟨opener.kind, 0, (opener.token ++ inner).length, 1, 1, opener.text, opener.closer⟩ := by
  have hopens : opener.staysCode (opener.token ++ (inner ++ rest)) = false := by
    rw [Opener.staysCode, List.drop_left, hclosed, Option.isNone_some, Bool.and_false]
  have hnext := nextConstruct_of_opens ⟨hopening, hopens⟩
  have hlexes := Lexes.closed [] inner rest opener _ hnext hclosed (lexes_lex grammar.openers rest)
  rw [List.nil_append] at hlexes
  rw [Grammar.scan_eq, ← hlexes.eq_lex, Lexing.scanFrom_prepend]
  simp only [Scan.prepend, Lexeme.code, List.isEmpty_nil, if_true, List.nil_append, placeSpans,
    List.singleton_append, List.head?_cons, Lexeme.spanAt, Lexeme.ofConstruct, Position.first,
    Nat.zero_add]

/-- A construct that opens at the beginning of a source and is not closed leaves no spans. -/
theorem scan_leading_unclosed
    (hopening : opening grammar.openers (opener.token ++ inner) = some opener)
    (hbounded : opener.closing.isBounded = false) (hopen : opener.closing.length? inner = none) :
    grammar.scan (opener.token ++ inner) = ⟨[], some (opener.unclosedAt .first)⟩ := by
  have hopens : opener.staysCode (opener.token ++ inner) = false := by
    rw [Opener.staysCode, hbounded, Bool.false_and]
  have hlexes := Lexes.unclosed [] inner opener (nextConstruct_of_opens ⟨hopening, hopens⟩) hopen
  rw [List.nil_append] at hlexes
  rw [Grammar.scan_eq, ← hlexes.eq_lex]
  rfl

end Leading

/-! ## Nested comments -/

/-- A part of a comment between the delimiters `start` and `stop`: a text that shares no byte with
them, or a comment with parts of its own. -/
inductive CommentPart (start stop : Bytes) where
  | text (bytes : Bytes) (plain : ∀ byte ∈ bytes, byte ∉ start ∧ byte ∉ stop)
  | comment (parts : List (CommentPart start stop))

/-- Holds of delimiters of which neither begins the other one. -/
structure NeitherBegins (start stop : Bytes) : Prop where
  not_start : ¬ start <+: stop
  not_stop : ¬ stop <+: start

namespace NeitherBegins

variable {start stop : Bytes}

/-- The start delimiter is not empty. -/
theorem start_ne_nil (hneither : NeitherBegins start stop) : start ≠ [] := by
  rintro rfl
  exact hneither.not_start List.nil_prefix

/-- The stop delimiter is not empty. -/
theorem stop_ne_nil (hneither : NeitherBegins start stop) : stop ≠ [] := by
  rintro rfl
  exact hneither.not_stop List.nil_prefix

/-- Where the start delimiter stands, the stop delimiter does not. -/
theorem not_stop_append (hneither : NeitherBegins start stop) (rest : Bytes) :
    ¬ stop <+: start ++ rest := by
  intro hstop
  rcases List.prefix_or_prefix_of_prefix hstop (List.prefix_append start rest) with hle | hle
  · exact hneither.not_stop hle
  · exact hneither.not_start hle

end NeitherBegins

namespace CommentPart

variable {start stop : Bytes}

mutual

/-- The bytes of a part. -/
def render : CommentPart start stop → Bytes
  | text bytes _ => bytes
  | comment parts => start ++ (renderAll parts ++ stop)

/-- The bytes of parts that follow each other. -/
def renderAll : List (CommentPart start stop) → Bytes
  | [] => []
  | part :: rest => part.render ++ renderAll rest

end

/-- In front of its start delimiter a nested comment gets one level deeper. -/
theorem closeNested_start (hneither : NeitherBegins start stop) (depth : Nat) (rest : Bytes) :
    closeNested start stop depth (start ++ rest) =
      (closeNested start stop (depth + 1) rest).map (· + start.length) := by
  have hnot := hneither.not_stop_append rest
  obtain ⟨byte, more, rfl⟩ := List.exists_cons_of_ne_nil hneither.start_ne_nil
  rw [List.cons_append] at hnot ⊢
  rw [← List.isPrefixOf_iff_prefix] at hnot
  rw [closeNested.eq_def]
  simp only
  rw [if_neg hnot, ← List.cons_append,
    if_pos (List.isPrefixOf_iff_prefix.2 (List.prefix_append _ _)), List.length_cons,
    Nat.add_sub_cancel, List.drop_left, Nat.max_eq_right (by omega)]

/-- A text that shares no byte with the delimiters adds its length only. -/
theorem closeNested_plain (hneither : NeitherBegins start stop) (depth : Nat) {bytes : Bytes}
    (hplain : ∀ byte ∈ bytes, byte ∉ start ∧ byte ∉ stop) (rest : Bytes) :
    closeNested start stop depth (bytes ++ rest) =
      (closeNested start stop depth rest).map (· + bytes.length) := by
  -- A token that is not empty has the byte that it would begin with.
  have hnone : ∀ {token : Bytes} {byte : UInt8} (more : Bytes), token ≠ [] → byte ∉ token →
      ¬ token.isPrefixOf (byte :: more) = true := by
    intro token byte more htoken hbyte hstarts
    obtain ⟨first, others, rfl⟩ := List.exists_cons_of_ne_nil htoken
    obtain ⟨rfl, -⟩ := List.cons_prefix_cons.1 (List.isPrefixOf_iff_prefix.1 hstarts)
    exact hbyte List.mem_cons_self
  induction bytes with
  | nil => exact Option.map_id'.symm
  | cons byte bytes ih =>
      obtain ⟨⟨hstart, hstop⟩, hmore⟩ := List.forall_mem_cons.1 hplain
      rw [List.cons_append, closeNested.eq_def]
      simp only
      rw [if_neg (hnone _ hneither.stop_ne_nil hstop),
        if_neg (hnone _ hneither.start_ne_nil hstart), ih hmore, Option.map_map]
      rfl

mutual

/-- A part adds its length only. -/
theorem closeNested_render (hneither : NeitherBegins start stop) (part : CommentPart start stop)
    (depth : Nat) (rest : Bytes) :
    closeNested start stop depth (part.render ++ rest) =
      (closeNested start stop depth rest).map (· + part.render.length) := by
  cases part with
  | text bytes plain => exact closeNested_plain hneither depth plain rest
  | comment parts =>
      have hstop : closeNested start stop (depth + 1) (stop ++ rest) =
          (closeNested start stop depth rest).map (· + stop.length) :=
        closeNested_stop hneither.stop_ne_nil (depth + 1) rest
      rw [render, List.append_assoc, List.append_assoc, closeNested_start hneither,
        closeNested_renderAll hneither parts, hstop, Option.map_map, Option.map_map]
      congr 1
      funext length
      simp only [Function.comp, List.length_append]
      omega

/-- Parts that follow each other add their length only, at every depth: each inner comment closes
again. -/
theorem closeNested_renderAll (hneither : NeitherBegins start stop)
    (parts : List (CommentPart start stop)) (depth : Nat) (rest : Bytes) :
    closeNested start stop depth (renderAll parts ++ rest) =
      (closeNested start stop depth rest).map (· + (renderAll parts).length) := by
  cases parts with
  | nil => exact Option.map_id'.symm
  | cons part more =>
      rw [renderAll, List.append_assoc, closeNested_render hneither part,
        closeNested_renderAll hneither more, Option.map_map]
      congr 1
      funext length
      simp only [Function.comp, List.length_append]
      omega

end

end CommentPart

/-- Holds if a nested block comment is the only one of a grammar, and neither of its delimiters
begins the other one. -/
structure Grammar.NestsOnly (grammar : Grammar) (block : BlockComment) : Prop where
  only : grammar.blockComments = [block]
  nested : block.nested = true
  not_start : ¬ block.start.toList <+: block.stop.toList
  not_stop : ¬ block.stop.toList <+: block.start.toList

section Nested

variable {block : BlockComment}

/-- A tree of comments between the delimiters of a block comment, as parts of its root. -/
abbrev BlockComment.Parts (block : BlockComment) : Type :=
  List (CommentPart (Text.encode block.start) (Text.encode block.stop))

/-- The delimiters as bytes do not begin each other either. -/
theorem Grammar.NestsOnly.neitherBegins (hnests : grammar.NestsOnly block) :
    NeitherBegins (Text.encode block.start) (Text.encode block.stop) where
  not_start := fun hstart => hnests.not_start (Text.encode_prefix_iff.1 hstart)
  not_stop := fun hstop => hnests.not_stop (Text.encode_prefix_iff.1 hstop)

/-- Block comments are tried first, so the start delimiter opens the comment. -/
theorem Grammar.NestsOnly.opening_eq (hnests : grammar.NestsOnly block) (rest : Bytes) :
    opening grammar.openers (Text.encode block.start ++ rest) = some (.ofBlock block) := by
  have hoccurs : (Opener.ofBlock block).occursAt (Text.encode block.start ++ rest) = true :=
    Opener.occursAt_iff.2 ⟨hnests.neitherBegins.start_ne_nil, List.prefix_append _ _⟩
  rw [opening, Grammar.openers, hnests.only, List.map_singleton, List.append_assoc,
    List.append_assoc, List.singleton_append]
  exact List.find?_cons_of_pos hoccurs

/-- The comment closes where its own start delimiter is closed. -/
theorem Grammar.NestsOnly.closing_eq (hnests : grammar.NestsOnly block) :
    (Opener.ofBlock block).closing =
      .nestedBlock (Text.encode block.start) (Text.encode block.stop) :=
  if_pos hnests.nested

/-- Nested comments are recognized at every depth.  A tree of comments is scanned as one block
comment, whatever follows it, and without its last stop delimiter it is a comment that is left open
at the beginning of the source. -/
theorem nested_comment_scanned (hnests : grammar.NestsOnly block) (parts : block.Parts) :
    (∀ rest, (grammar.scan ((CommentPart.comment parts).render ++ rest)).spans.head? =
      some ⟨.blockComment, 0, (CommentPart.comment parts).render.length, 1, 1, block.start,
        block.stop⟩) ∧
    ∀ source, (CommentPart.comment parts).render = source ++ Text.encode block.stop →
      grammar.scan source = ⟨[], some ⟨.comment, block.start, .first, none⟩⟩ := by
  have hneither := hnests.neitherBegins
  have hclose := fun rest => CommentPart.closeNested_renderAll hneither parts 0 rest
  constructor
  · intro rest
    have hlength : (Opener.ofBlock block).closing.length?
        ((CommentPart.renderAll parts ++ Text.encode block.stop) ++ rest) =
          some (CommentPart.renderAll parts ++ Text.encode block.stop).length := by
      rw [hnests.closing_eq, Closing.length?, List.append_assoc, hclose,
        closeNested_stop hneither.stop_ne_nil, Option.map_some, List.length_append, Nat.add_comm]
    have hfirst := scan_leading (hnests.opening_eq _) hlength
    rw [CommentPart.render, List.append_assoc]
    exact hfirst
  · intro source hsource
    have hopen : (Opener.ofBlock block).closing.length? (CommentPart.renderAll parts) = none := by
      have hnone := hclose []
      rw [List.append_nil, closeNested, Option.map_none] at hnone
      rw [hnests.closing_eq, Closing.length?, hnone]
    have hbounded : (Opener.ofBlock block).closing.isBounded = false := by
      rw [hnests.closing_eq]
      rfl
    rw [CommentPart.render, ← List.append_assoc, List.append_cancel_right_eq] at hsource
    rw [← hsource]
    exact scan_leading_unclosed (hnests.opening_eq _) hbounded hopen

/-- The built-in grammars with nested comments. -/
theorem Grammar.builtin_nestsOnly :
    rust.NestsOnly nestedSlashStar ∧ haskell.NestsOnly ⟨"\x7b-", "-\x7d", true⟩ ∧
      lisp.NestsOnly ⟨"#|", "|#", true⟩ ∧ ocaml.NestsOnly ⟨"(*", "*)", true⟩ := by
  refine ⟨⟨rfl, rfl, ?_, ?_⟩, ⟨rfl, rfl, ?_, ?_⟩, ⟨rfl, rfl, ?_, ?_⟩, ⟨rfl, rfl, ?_, ?_⟩⟩ <;>
    decide

/-- Two comments without a text between them, the second one with a text, inside a third one. -/
theorem nested_comment_scanned_rust :
    Grammar.rust.NestsOnly Grammar.nestedSlashStar ∧
      (Grammar.rust.scan (Text.encode "/*/**//*a*/*/*/")).spans.head? =
        some ⟨.blockComment, 0, 13, 1, 1, "/*", "*/"⟩ ∧
      Grammar.rust.scan (Text.encode "/*/**//*a*/") =
        ⟨[], some ⟨.comment, "/*", .first, none⟩⟩ := by
  have hnests := Grammar.builtin_nestsOnly.1
  let parts : Grammar.nestedSlashStar.Parts :=
    [.comment [], .comment [.text [97] (by decide +kernel)]]
  obtain ⟨hclosed, hopen⟩ := nested_comment_scanned hnests parts
  exact ⟨hnests, hclosed (Text.encode "*/"), hopen _ (by decide +kernel)⟩

end Nested

/-! ## Quoted texts -/

/-- A text inside a literal: a mark stands in front of each token and of each mark in it.  If the
mark is the token itself, each token is doubled. -/
def escaped (token mark : UInt8) (text : Bytes) : Bytes :=
  text.flatMap fun byte => if byte = token ∨ byte = mark then [mark, byte] else [byte]

/-- A text between two tokens. -/
def quoted (token mark : UInt8) (text : Bytes) : Bytes :=
  token :: (escaped token mark text ++ [token])

section Quoted

variable {token mark byte : UInt8} {text rest : Bytes}

/-- A token or a mark is written with a mark in front of it. -/
theorem escaped_cons_of_special (hspecial : byte = token ∨ byte = mark) (text : Bytes) :
    escaped token mark (byte :: text) = mark :: byte :: escaped token mark text := by
  rw [escaped, List.flatMap_cons, if_pos hspecial]
  rfl

/-- Any other byte is written as it is. -/
theorem escaped_cons_of_plain (hplain : ¬ (byte = token ∨ byte = mark)) (text : Bytes) :
    escaped token mark (byte :: text) = byte :: escaped token mark text := by
  rw [escaped, List.flatMap_cons, if_neg hplain]
  rfl

/-- A mark in front of a token or of a mark is an escape. -/
theorem escapeLength_special (hspecial : byte = token ∨ byte = mark) (rest : Bytes) :
    escapeLength [token] (some [mark]) (mark :: byte :: rest) = some 2 := by
  rw [escapeLength_eq_some_iff]
  by_cases hsame : mark = token
  · subst hsame
    obtain rfl : byte = mark := hspecial.elim id id
    exact Or.inl ⟨rfl, ⟨rest, rfl⟩, rfl⟩
  · exact Or.inr ⟨[mark], rfl, by simpa using hsame, ⟨byte :: rest, rfl⟩, by simp, rfl⟩

/-- No escape begins at a byte that is no mark, and a single token is none. -/
theorem escapeLength_eq_none (hsingle : byte = mark → mark = token ∧ rest.head? ≠ some token) :
    escapeLength [token] (some [mark]) (byte :: rest) = none := by
  rw [Option.eq_none_iff_forall_not_mem]
  intro length hescape
  rcases escapeLength_eq_some_iff.1 hescape with
    ⟨hdouble, ⟨more, hmore⟩, -⟩ | ⟨other, hother, hne, ⟨more, hmore⟩, -⟩
  · obtain rfl : mark = token := (List.cons.inj (Option.some.inj hdouble)).1
    obtain ⟨rfl, rfl⟩ := List.cons.inj hmore
    exact (hsingle rfl).2 rfl
  · cases hother
    obtain ⟨rfl, -⟩ := List.cons.inj hmore
    exact hne (congrArg (fun byte => [byte]) (hsingle rfl).1)

/-- A literal closes behind the escaped text in it.  Where tokens are doubled, this asks that no
token follows the closing one. -/
theorem closeQuote_escaped (hbehind : mark = token → rest.head? ≠ some token) (text : Bytes) :
    closeQuote [token] (some [mark]) (escaped token mark text ++ token :: rest) =
      some (escaped token mark text ++ [token]).length := by
  have hne : [token] ≠ [] := List.cons_ne_nil token []
  induction text with
  | nil =>
      have hnone : escapeLength [token] (some [mark]) ([token] ++ rest) = none :=
        escapeLength_eq_none fun hsame => ⟨hsame.symm, hbehind hsame.symm⟩
      exact closeQuote_token hne hnone
  | cons byte text ih =>
      by_cases hspecial : byte = token ∨ byte = mark
      · -- The escape takes both bytes, so the search goes on in front of the rest of the text.
        rw [escaped_cons_of_special hspecial, List.cons_append, List.cons_append,
          closeQuote_escape hne (escapeLength_special hspecial _), List.drop_succ_cons,
          List.drop_succ_cons, List.drop_zero, ih]
        rfl
      · have hnone : escapeLength [token] (some [mark])
            (byte :: (escaped token mark text ++ token :: rest)) = none :=
          escapeLength_eq_none fun hsame => absurd (Or.inr hsame) hspecial
        have hother : ¬ [token].isPrefixOf
            (byte :: (escaped token mark text ++ token :: rest)) = true := by
          intro hstarts
          have hfirst := (List.cons_prefix_cons.1 (List.isPrefixOf_iff_prefix.1 hstarts)).1
          exact hspecial (Or.inl hfirst.symm)
        rw [escaped_cons_of_plain hspecial, List.cons_append, closeQuote, hnone]
        simp only
        rw [if_neg hother, ih]
        rfl

/-- Holds if a quote is one of the strings or of the characters of a grammar. -/
def Grammar.HasQuote (grammar : Grammar) (kind : SpanKind) (quote : Quote) : Prop :=
  kind = .stringLiteral ∧ quote ∈ grammar.strings ∨ kind = .charLiteral ∧ quote ∈ grammar.chars

/-- A quote of a grammar is one of its openers. -/
theorem Grammar.HasQuote.mem_openers {kind : SpanKind} {quote : Quote}
    (hquote : grammar.HasQuote kind quote) : Opener.ofQuote kind quote ∈ grammar.openers := by
  rw [Grammar.openers, List.mem_append, List.mem_append]
  rcases hquote with ⟨rfl, hmem⟩ | ⟨rfl, hmem⟩
  · exact Or.inl (Or.inr (List.mem_map_of_mem hmem))
  · exact Or.inr (List.mem_map_of_mem hmem)

/-- Holds of a quote without a limit whose token and whose escape are single bytes, and whose token
begins no other opening token of the grammar. -/
structure Grammar.QuotesWith (grammar : Grammar) (kind : SpanKind) (quote : Quote)
    (token mark : UInt8) : Prop where
  known : grammar.HasQuote kind quote
  unlimited : quote.maxLength = none
  delimiter_eq : quote.delimiter = [token]
  mark_eq : quote.mark = some [mark]
  alone : ∀ opener ∈ grammar.openers, opener ≠ .ofQuote kind quote → ¬ [token] <+: opener.token

namespace Grammar.QuotesWith

variable {kind : SpanKind} {quote : Quote}

/-- The token of such a quote opens its literal. -/
theorem opening_eq (hquotes : grammar.QuotesWith kind quote token mark) (rest : Bytes) :
    opening grammar.openers (token :: rest) = some (.ofQuote kind quote) := by
  have hoccurs : (Opener.ofQuote kind quote).occursAt (token :: rest) = true := by
    rw [Opener.occursAt_iff]
    change quote.delimiter ≠ [] ∧ quote.delimiter <+: token :: rest
    rw [hquotes.delimiter_eq]
    exact ⟨List.cons_ne_nil _ _, rest, rfl⟩
  cases hopening : opening grammar.openers (token :: rest) with
  | none =>
      have hnone := List.find?_eq_none.1 hopening _ hquotes.known.mem_openers
      exact absurd hoccurs hnone
  | some opener =>
      -- Whatever opens here begins with the token.
      obtain ⟨hstarts, hpos⟩ := token_prefix_of_opening hopening
      obtain ⟨first, others, hfirst⟩ := List.exists_cons_of_ne_nil (List.length_pos_iff.1 hpos)
      rw [hfirst] at hstarts
      obtain ⟨rfl, -⟩ := List.cons_prefix_cons.1 hstarts
      by_contra hother
      refine hquotes.alone opener (List.mem_of_find?_eq_some hopening) ?_ ⟨others, hfirst.symm⟩
      exact fun hsame => hother (congrArg some hsame)

/-- The literal closes at the first token that is not escaped. -/
theorem closing_eq (hquotes : grammar.QuotesWith kind quote token mark) :
    (Opener.ofQuote kind quote).closing = .quote [token] (some [mark]) := by
  rw [← hquotes.delimiter_eq, ← hquotes.mark_eq]
  change Opener.closingOfQuote quote = _
  rw [Opener.closingOfQuote, hquotes.unlimited]
  rfl

end Grammar.QuotesWith

/-- The body of a quoted text is the text between its tokens. -/
theorem body_quoted (kind : SpanKind) {quote : String} (hquote : Text.encode quote = [token])
    (mark : UInt8) (text rest : Bytes) :
    Span.body ⟨kind, 0, (quoted token mark text).length, 1, 1, quote, quote⟩
      (quoted token mark text ++ rest) = escaped token mark text := by
  have hlength : (quoted token mark text).length = (escaped token mark text).length + 1 + 1 := by
    rw [quoted, List.length_cons, List.length_append, List.length_singleton]
  have hsource : quoted token mark text ++ rest =
      [token] ++ (escaped token mark text ++ ([token] ++ rest)) := by
    rw [quoted, List.cons_append, List.append_assoc]
    rfl
  have hslice := slice_middle [token] (escaped token mark text) ([token] ++ rest)
  rw [Span.body_eq_slice]
  · rw [← hsource] at hslice
    simp only [Span.bodyStart, Span.bodyStop, hquote, hlength, List.length_singleton,
      Nat.add_sub_cancel, Nat.zero_add]
    rwa [List.length_singleton, Nat.add_comm] at hslice
  · simp only [hquote, hlength, List.length_singleton]
    omega

/-- Quoting is undone by scanning.  A text in quotes, with a mark in front of each token and of each
mark in it, is scanned as one literal with the escaped text as its body.  If the mark is the token
itself, this asks that no token follows. -/
theorem quoted_text_scanned {kind : SpanKind} {quote : Quote}
    (hquotes : grammar.QuotesWith kind quote token mark) (text rest : Bytes)
    (hbehind : mark = token → rest.head? ≠ some token) :
    ∃ span, (grammar.scan (quoted token mark text ++ rest)).spans.head? = some span ∧
      span = ⟨kind, 0, (quoted token mark text).length, 1, 1, quote.token, quote.token⟩ ∧
      span.text (quoted token mark text ++ rest) = quoted token mark text ∧
      span.body (quoted token mark text ++ rest) = escaped token mark text := by
  have hlength : (Opener.ofQuote kind quote).closing.length?
      ((escaped token mark text ++ [token]) ++ rest) =
        some (escaped token mark text ++ [token]).length := by
    rw [hquotes.closing_eq, Closing.length?, List.append_assoc]
    exact closeQuote_escaped hbehind text
  have htoken : (Opener.ofQuote kind quote).token = [token] := hquotes.delimiter_eq
  have hopening : opening grammar.openers ((Opener.ofQuote kind quote).token ++
      ((escaped token mark text ++ [token]) ++ rest)) = some (.ofQuote kind quote) := by
    rw [htoken]
    exact hquotes.opening_eq _
  have hfirst := scan_leading hopening hlength
  rw [htoken] at hfirst
  exact ⟨_, hfirst, rfl, List.take_left, body_quoted kind hquotes.delimiter_eq mark text rest⟩

/-- In C quotes and backslashes are escaped, and in SQL a quote is doubled. -/
theorem quoted_text_scanned_c_and_sql :
    Grammar.c.QuotesWith .stringLiteral Grammar.doubleQuoted 34 92 ∧
      Grammar.sql.QuotesWith .stringLiteral ⟨"'", some "'", none⟩ 39 39 ∧
      (Grammar.c.scan (Text.encode "\"\\\"\\\\\"\"")).spans.head? =
        some ⟨.stringLiteral, 0, 6, 1, 1, "\"", "\""⟩ ∧
      (Grammar.sql.scan (Text.encode "'a''' 'b'")).spans.head? =
        some ⟨.stringLiteral, 0, 5, 1, 1, "'", "'"⟩ ∧
      Span.body ⟨.stringLiteral, 0, 5, 1, 1, "'", "'"⟩ (Text.encode "'a''' 'b'") =
        Text.encode "a''" := by
  have hbackslash : Grammar.c.QuotesWith .stringLiteral Grammar.doubleQuoted 34 92 :=
    ⟨Or.inl ⟨rfl, by decide⟩, rfl, by decide, by decide, by decide⟩
  have hdoubled : Grammar.sql.QuotesWith .stringLiteral ⟨"'", some "'", none⟩ 39 39 :=
    ⟨Or.inl ⟨rfl, by decide⟩, rfl, by decide, by decide, by decide⟩
  obtain ⟨_, hspan, rfl, -⟩ :=
    quoted_text_scanned hbackslash [34, 92] (Text.encode "\"") (by decide)
  obtain ⟨_, hother, rfl, -, hbody⟩ :=
    quoted_text_scanned hdoubled [97, 39] (Text.encode " 'b'") (by decide)
  exact ⟨hbackslash, hdoubled, hspan, hother, hbody⟩

end Quoted

end CommentMarkers
