import CommentMarkers.Grammar.Builtin
import CommentMarkers.Proofs.AcceptedTables
import CommentMarkers.Proofs.ClosingLocality
import Mathlib.Data.List.Find
import Mathlib.Data.List.Forall2

/-!
# Comments and literals are immune

What a comment or a literal says has no effect on how anything outside it is classified.  One can
put another comment or literal with the same delimiter in its place: what stands in front of it
and behind it is cut as before.  This asks that delimiters are not mistaken for parts of each
other, which `Grammar.Separated` makes precise, and that no literal has a limit.

Main results:

- Theorem `opening_change`: what opens in front of a delimiter does not depend on what follows it.
- Theorem `Lexes.replace`: a construct is replaced without a change of the other lexemes.
- Theorem `scan_replace`: the same for the spans of a scan and for its failure.
-/

namespace CommentMarkers

/-! ## Separated delimiters -/

/-- Delimiters that are not mistaken for parts of each other: no opening delimiter has another one
inside, no start of a nested comment has the end of that comment inside, and no escape has the
token of its literal inside, unless it is that token.  No literal has a limit. -/
structure Grammar.Separated (grammar : Grammar) : Prop where
  unlimited : ∀ quote ∈ grammar.strings ++ grammar.chars, quote.maxLength = none
  openers : ∀ first ∈ grammar.openers, ∀ second ∈ grammar.openers,
    first.token <:+: second.token → second.token = first.token
  nested : ∀ block ∈ grammar.blockComments, block.nested = true →
    ¬ Text.encode block.stop <:+: Text.encode block.start
  escapes : ∀ quote ∈ grammar.strings ++ grammar.chars, ∀ escape ∈ quote.escape,
    Text.encode quote.token <:+: Text.encode escape → escape = quote.token

variable {grammar : Grammar}

namespace Grammar.Separated

variable {opener : Opener}

/-- The literals of separated delimiters have no limit, so their delimiters always open them. -/
theorem staysCode_eq_false (hseparated : grammar.Separated) (hopener : opener ∈ grammar.openers)
    (bytes : Bytes) : opener.staysCode bytes = false := by
  have hbounded : opener.closing.isBounded = false := by
    rcases Grammar.opener_cases hopener with
      ⟨block, -, rfl⟩ | ⟨token, -, rfl⟩ | ⟨quote, hquote, kind, -, rfl⟩
    · cases hnested : block.nested <;> simp [Opener.ofBlock, hnested, Closing.isBounded]
    · rfl
    · simp [Opener.ofQuote, Opener.closingOfQuote, hseparated.unlimited quote hquote,
        Closing.isBounded]
  rw [Opener.staysCode, hbounded, Bool.false_and]

/-- A literal of separated delimiters is closed by the token that opens it. -/
theorem token_of_closing (hseparated : grammar.Separated) (hopener : opener ∈ grammar.openers)
    {token : Bytes} {escape : Option Bytes} (hclosing : opener.closing = .quote token escape) :
    token = opener.token := by
  rcases Grammar.opener_cases hopener with
    ⟨block, -, rfl⟩ | ⟨text, -, rfl⟩ | ⟨quote, hquote, kind, -, rfl⟩
  · cases hnested : block.nested <;> simp [Opener.ofBlock, hnested] at hclosing
  · cases hclosing
  · simp only [Opener.ofQuote, Opener.closingOfQuote, hseparated.unlimited quote hquote,
      Closing.quote.injEq] at hclosing
    exact hclosing.1.symm

/-- The constructs of an accepted grammar with separated delimiters close in the same way whatever
is behind them. -/
theorem stable (hseparated : grammar.Separated) (haccepted : grammar.Accepted)
    (hopener : opener ∈ grammar.openers) : opener.closing.Stable := by
  have htoken := haccepted.token_ne_nil hopener
  rcases Grammar.opener_cases hopener with
    ⟨block, hblock, rfl⟩ | ⟨text, -, rfl⟩ | ⟨quote, hquote, kind, -, rfl⟩
  · have hstop := Text.encode_ne_nil (haccepted.blockStop_ne_empty hblock)
    cases hnested : block.nested with
    | false => simpa [Opener.ofBlock, hnested, Closing.Stable] using hstop
    | true =>
        simp only [Opener.ofBlock, hnested, if_true]
        have hnone := hseparated.nested block hblock hnested
        exact ⟨htoken, hstop, fun hinside => absurd hinside hnone⟩
  · trivial
  · simp only [Opener.ofQuote, Opener.closingOfQuote, hseparated.unlimited quote hquote]
    refine ⟨htoken, fun mark hmark hinside => ?_⟩
    rcases Option.map_eq_some_iff.1 hmark with ⟨escape, hescape, rfl⟩
    rw [hseparated.escapes quote hquote escape hescape hinside]

end Grammar.Separated

/-! ## What opens in front of a delimiter -/

variable {openers : List Opener} {token : Bytes}

/-- What opens in front of a delimiter, or with it, does not depend on what follows the delimiter,
if no other opening delimiter has it inside. -/
theorem opening_change
    (hapart : ∀ opener ∈ openers, token <:+: opener.token → opener.token = token)
    (front rest other : Bytes) :
    opening openers (front ++ (token ++ rest)) = opening openers (front ++ (token ++ other)) := by
  unfold opening
  apply List.find?_congr
  intro opener hopener
  have hsame : opener.token <+: front ++ (token ++ rest) ↔
      opener.token <+: front ++ (token ++ other) :=
    ⟨prefix_of_prefix_change front (hapart opener hopener),
      prefix_of_prefix_change front (hapart opener hopener)⟩
  simp only [Opener.occursAt]
  rw [Bool.eq_iff_iff, Bool.and_eq_true, Bool.and_eq_true, List.isPrefixOf_iff_prefix,
    List.isPrefixOf_iff_prefix, hsame]

/-- The search finds a construct in front of a delimiter, or the one of the delimiter, in the same
way whatever follows the delimiter. -/
theorem nextConstruct_change {opener : Opener}
    (hopens : ∀ opener ∈ openers, ∀ bytes, opener.staysCode bytes = false)
    (hapart : ∀ opener ∈ openers, token <:+: opener.token → opener.token = token)
    (front : Bytes) {code rest : Bytes} (other : Bytes)
    (hnext : nextConstruct openers (code ++ (front ++ (token ++ rest))) =
      some (code.length, opener)) :
    nextConstruct openers (code ++ (front ++ (token ++ other))) = some (code.length, opener) := by
  induction code with
  | nil =>
      have hopening : opening openers (front ++ (token ++ rest)) = some opener :=
        (@opening_of_nextConstruct _ [] _ _ hnext).1
      rw [opening_change hapart front rest other] at hopening
      rw [List.nil_append, nextConstruct_of_some hopening,
        hopens opener (List.mem_of_find?_eq_some hopening)]
      rfl
  | cons byte code ih =>
      have hagain := opening_change hapart (byte :: code ++ front) rest other
      rw [List.append_assoc, List.append_assoc, List.cons_append, List.cons_append] at hagain
      rw [List.cons_append] at hnext ⊢
      cases hopening : opening openers (byte :: (code ++ (front ++ (token ++ rest)))) with
      | some found =>
          rw [nextConstruct_of_some hopening, hopens found (List.mem_of_find?_eq_some hopening)]
            at hnext
          cases hnext
      | none =>
          rw [nextConstruct_of_none hopening] at hnext
          rcases Option.map_eq_some_iff.1 hnext with ⟨⟨inner, found⟩, hinner, hsame⟩
          rcases Prod.mk.inj hsame with ⟨hlength, rfl⟩
          rw [show inner = code.length from Nat.succ.inj hlength] at hinner
          rw [hagain] at hopening
          rw [nextConstruct_of_none hopening, ih hinner]
          rfl

/-- Whether a construct may end in front of a text does not depend on what follows a delimiter in
that text. -/
theorem Closing.EndsBefore.change {closing : Closing} (hne : token ≠ [])
    (hapart : ∀ own escape, closing = .quote own escape → token <:+: own → own = token)
    {front rest : Bytes} (hends : closing.EndsBefore (front ++ (token ++ rest))) (other : Bytes) :
    closing.EndsBefore (front ++ (token ++ other)) := by
  cases closing with
  | endOfLine =>
      intro byte hbyte
      apply hends byte
      rw [← List.append_assoc] at hbyte ⊢
      rw [List.head?_append_of_ne_nil _ (List.append_ne_nil_of_right_ne_nil front hne)] at hbyte ⊢
      exact hbyte
  | quote own escape =>
      intro hdouble hstarts
      exact hends hdouble (prefix_of_prefix_change front (hapart own escape rfl) hstarts)
  | block stop | nestedBlock start stop | boundedQuote own escape limit => trivial

/-! ## Replacing a construct -/

variable {bytes behind text : Bytes} {lexing : Lexing} {before after : List Lexeme}
  {construct own : Lexeme}

/-- A construct may get another inner text that closes it: the other lexemes stay what they are. -/
theorem Lexes.replace_inner (haccepted : grammar.Accepted) (hseparated : grammar.Separated)
    (hlexes : Lexes grammar.openers bytes lexing) {opener : Opener} {inner word : Bytes}
    (hkind : opener.kind ≠ .code)
    (hsplit : lexing.lexemes =
      before ++ Lexeme.ofConstruct opener (opener.token ++ inner) :: after)
    (hbytes : bytes = textOf before ++ (opener.token ++ (inner ++ behind)))
    (hopening : opening grammar.openers (opener.token ++ (inner ++ behind)) = some opener)
    (hword : opener.closing.length? (word ++ behind) = some word.length) :
    Lexes grammar.openers (textOf before ++ (opener.token ++ (word ++ behind)))
      { lexing with
        lexemes := before ++ Lexeme.ofConstruct opener (opener.token ++ word) :: after } := by
  have hopens : ∀ opener ∈ grammar.openers, ∀ bytes, opener.staysCode bytes = false :=
    fun opener hopener => hseparated.staysCode_eq_false hopener
  have hmem := List.mem_of_find?_eq_some hopening
  have hapart := hseparated.openers opener hmem
  have hne := haccepted.token_ne_nil hmem
  induction hlexes generalizing before with
  | code bytes hnext => exact absurd hsplit (code_ne_append_construct hkind bytes before after)
  | unclosed code tail found hnext hopen =>
      exact absurd hsplit (code_ne_append_construct hkind code before after)
  | closed code own rest found lexing hnext hclosed hrest ih =>
      rcases construct_cases hkind hsplit with ⟨rfl, hsame, rfl⟩ | ⟨inside, rfl, hmore⟩
      · -- The construct of this round is the one with the new text.
        have htext : found.token ++ own = opener.token ++ inner := congrArg Lexeme.text hsame
        rw [textOf_code, List.append_cancel_left_eq, ← List.append_assoc, ← List.append_assoc,
          htext, List.append_cancel_left_eq] at hbytes
        subst hbytes
        rw [← List.append_assoc found.token, htext, List.append_assoc] at hnext
        obtain rfl : found = opener :=
          Option.some.inj ((opening_of_nextConstruct hnext).1.symm.trans hopening)
        have hfound := nextConstruct_change hopens hapart [] (word ++ rest) hnext
        simpa [Lexing.prepend] using Lexes.closed code word rest found lexing hfound hword hrest
      · -- The construct of this round is in front of it.
        simp only [textOf_append, textOf_code, textOf_cons, textOf_nil, Lexeme.text_ofConstruct,
          List.append_nil, List.append_assoc, List.append_cancel_left_eq] at hbytes
        subst hbytes
        have hagain := ih hmore rfl
        have hfoundMem := mem_of_nextConstruct hnext
        have hstable := hseparated.stable haccepted hfoundMem
        have hends := (Closing.endsBefore_of_length hstable hclosed).change hne
          (fun token escape hclosing hinside =>
            (hseparated.token_of_closing hfoundMem hclosing).trans
              (hapart found hfoundMem (hseparated.token_of_closing hfoundMem hclosing ▸ hinside)))
          (word ++ behind)
        have hcloses := hstable.length_eq hclosed hends
        have hshape : ∀ more, found.token ++ (own ++ (textOf inside ++ (opener.token ++ more))) =
            (found.token ++ (own ++ textOf inside)) ++ (opener.token ++ more) := by
          intro more
          simp
        rw [hshape] at hnext
        have hfound := nextConstruct_change hopens hapart _ (word ++ behind) hnext
        rw [← hshape] at hfound
        have hround := Lexes.closed code own _ found _ hfound hcloses hagain
        simpa [Lexing.prepend] using hround

/-- A text that is a single construct was opened and closed by an opener. -/
theorem Lexes.exists_alone (hlexes : Lexes openers text ⟨[own], none⟩) (hkind : own.kind ≠ .code) :
    ∃ opener word, own = Lexeme.ofConstruct opener (opener.token ++ word) ∧
      text = opener.token ++ word ∧ opening openers (opener.token ++ word) = some opener ∧
      opener.closing.length? word = some word.length := by
  have htext : text = textOf [] ++ (own.text ++ []) := hlexes.texts_eq
  rcases @Lexes.exists_opener _ _ _ _ hlexes [] _ _ hkind rfl htext with
    ⟨opener, -, word, rfl, hclosed, hopening⟩
  rw [List.append_nil] at hclosed hopening
  refine ⟨opener, word, rfl, ?_, hopening, hclosed⟩
  rw [htext, List.append_nil]
  rfl

/-- A construct may be replaced by another text that is a single construct with the same opening
delimiter: the other lexemes stay what they are. -/
theorem Lexes.replace (haccepted : grammar.Accepted) (hseparated : grammar.Separated)
    (hlexes : Lexes grammar.openers bytes lexing) (hkind : construct.kind ≠ .code)
    (hsplit : lexing.lexemes = before ++ construct :: after)
    (hbytes : bytes = textOf before ++ (construct.text ++ behind))
    (hsingle : Lexes grammar.openers text ⟨[own], none⟩) (hown : own.kind ≠ .code)
    (hopener : own.opener = construct.opener) :
    own.kind = construct.kind ∧ own.closer = construct.closer ∧
      Lexes grammar.openers (textOf before ++ (text ++ behind))
        { lexing with lexemes := before ++ own :: after } := by
  rcases hlexes.exists_opener hkind hsplit hbytes with
    ⟨opener, hmem, inner, rfl, hclosed, hopening⟩
  rcases hsingle.exists_alone hown with ⟨found, word, rfl, rfl, hfound, hword⟩
  have hfoundMem := List.mem_of_find?_eq_some hfound
  have htoken : found.token = opener.token := by
    rw [(Grammar.delimiters_of_mem_openers hfoundMem).1, (Grammar.delimiters_of_mem_openers hmem).1]
    exact congrArg Text.encode hopener
  -- The first opener with this token is the one that opens both of them.
  obtain rfl : found = opener := by
    have hchange := opening_change (hseparated.openers opener hmem) [] (inner ++ behind) word
    rw [htoken] at hfound
    simp only [List.nil_append] at hchange
    rw [hchange, hfound] at hopening
    exact Option.some.inj hopening
  have hstable := hseparated.stable haccepted hmem
  have halone : found.closing.length? (word ++ []) = some word.length := by
    rw [List.append_nil]
    exact hword
  have hcloses := hstable.length_eq halone (Closing.endsBefore_of_length hstable hclosed)
  rw [Lexeme.text_ofConstruct, List.append_assoc] at hbytes
  rw [List.append_assoc]
  exact ⟨rfl, rfl, hlexes.replace_inner haccepted hseparated hkind hsplit hbytes hopening hcloses⟩

/-! ## Spans further on -/

/-- The same region `shift` bytes further on, or further back if `shift` is negative. -/
structure Span.ShiftedBy (shift : Int) (span moved : Span) : Prop where
  kind : moved.kind = span.kind
  start : (moved.start : Int) = span.start + shift
  stop : (moved.stop : Int) = span.stop + shift
  opener : moved.opener = span.opener
  closer : moved.closer = span.closer

/-- The same failure `shift` bytes further on, or further back if `shift` is negative. -/
structure Unclosed.ShiftedBy (shift : Int) (failure moved : Unclosed) : Prop where
  construct : moved.construct = failure.construct
  delimiter : moved.delimiter = failure.delimiter
  offset : (moved.place.offset : Int) = failure.place.offset + shift
  path : moved.path = failure.path

/-- Lexemes that are placed further on become spans further on. -/
theorem placeSpans_shifted {shift : Int} {place other : Position}
    (hshift : (other.offset : Int) = place.offset + shift) (lexemes : List Lexeme) :
    List.Forall₂ (Span.ShiftedBy shift) (placeSpans place lexemes) (placeSpans other lexemes) := by
  induction lexemes generalizing place other with
  | nil => exact List.Forall₂.nil
  | cons lexeme rest ih =>
      refine List.Forall₂.cons ⟨rfl, hshift, ?_, rfl, rfl⟩ (ih ?_)
      · simp only [Lexeme.spanAt]
        omega
      · simp only [Position.offset_advance]
        omega

/-- A cut that is placed further on fails further on. -/
theorem failure_shifted {shift : Int} {place other : Position}
    (hshift : (other.offset : Int) = place.offset + shift) (unclosed : Option Opener) :
    Option.Rel (Unclosed.ShiftedBy shift) (unclosed.map (·.unclosedAt place))
      (unclosed.map (·.unclosedAt other)) := by
  cases unclosed with
  | none => exact Option.Rel.none
  | some opener => exact Option.Rel.some ⟨rfl, rfl, hshift, rfl⟩

/-! ## Scans -/

/-- A scan with a single span comes from a text that is a single lexeme. -/
theorem lexes_of_scan_eq_singleton {text : Bytes} {own : Span}
    (halone : grammar.scan text = ⟨[own], none⟩) :
    ∃ lexeme, Lexes grammar.openers text ⟨[lexeme], none⟩ ∧ own = lexeme.spanAt .first := by
  have hspans := congrArg Scan.spans halone
  have hclosed := congrArg Scan.failure halone
  rw [Grammar.scan_eq] at hspans hclosed
  rcases @exists_of_placeSpans_eq _ _ [] _ _ hspans with
    ⟨front, lexeme, back, hsplit, hfront, rfl, hback⟩
  obtain rfl : front = [] := by
    rw [← List.length_eq_zero_iff, ← length_placeSpans .first, ← hfront]
    rfl
  obtain rfl : back = [] := by
    rw [← List.length_eq_zero_iff, ← length_placeSpans _ back, ← hback]
    rfl
  refine ⟨lexeme, ?_, rfl⟩
  have hlexes := lexes_lex grammar.openers text
  have hsame : lex grammar.openers text = ⟨[lexeme], none⟩ := by
    cases hlexing : lex grammar.openers text with
    | mk lexemes unclosed =>
        rw [hlexing] at hsplit hclosed
        rw [show lexemes = [lexeme] from hsplit,
          show unclosed = none from Option.map_eq_none_iff.1 hclosed]
  rwa [hsame] at hlexes

/-- Comments and literals are immune.  Among the spans of a source with separated delimiters, a
comment or literal may be replaced by any text that is a single span of the same kind and with the
same opening delimiter: what is in front of it is classified as before, and so is what is behind
it, up to a failure that is the same as before. -/
theorem scan_replace (haccepted : grammar.Accepted) (hseparated : grammar.Separated)
    {source text : Bytes} {before after : List Span} {span own : Span}
    (hspans : (grammar.scan source).spans = before ++ span :: after) (hkind : span.kind ≠ .code)
    (halone : grammar.scan text = ⟨[own], none⟩) (hsame : own.kind = span.kind)
    (hopener : own.opener = span.opener) :
    ∃ middle later failure,
      grammar.scan (source.take span.start ++ (text ++ source.drop span.stop)) =
          ⟨before ++ middle :: later, failure⟩ ∧
        (middle.kind = span.kind ∧ middle.opener = span.opener ∧ middle.closer = span.closer ∧
          middle.start = span.start ∧ middle.stop = span.start + text.length) ∧
        List.Forall₂ (Span.ShiftedBy (text.length - span.length)) after later ∧
        Option.Rel (Unclosed.ShiftedBy (text.length - span.length)) (grammar.scan source).failure
          failure := by
  rcases exists_split_of_scan hspans with
    ⟨front, lexeme, back, hsplit, rfl, rfl, rfl, hfront, hsource⟩
  rcases lexes_of_scan_eq_singleton halone with ⟨other, hother, rfl⟩
  have hlexes := lexes_lex grammar.openers source
  obtain ⟨hkinds, hclosers, hreplaced⟩ := hlexes.replace haccepted hseparated hkind hsplit hsource
    hother (by rw [show other.kind = lexeme.kind from hsame]; exact hkind) hopener
  have htext : text = other.text := by
    rw [← List.append_nil other.text]
    exact hother.texts_eq
  have hshift : (((Position.first.advance (textOf front)).advance other.text).offset : Int) =
      ((Position.first.advance (textOf front)).advance lexeme.text).offset +
        (text.length - (lexeme.spanAt (Position.first.advance (textOf front))).length) := by
    simp only [Position.offset_advance, Span.length, Lexeme.spanAt, htext]
    omega
  refine ⟨other.spanAt (Position.first.advance (textOf front)),
    placeSpans ((Position.first.advance (textOf front)).advance other.text) back,
    (lex grammar.openers source).unclosed.map (·.unclosedAt
      (((Position.first.advance (textOf front)).advance other.text).advance (textOf back))),
    ?_, ⟨hkinds, hopener, hclosers, rfl, by rw [htext]; rfl⟩, placeSpans_shifted hshift back, ?_⟩
  · rw [hfront, Grammar.scan_eq, ← hreplaced.eq_lex]
    simp only [Lexing.scanFrom, placeSpans_append, placeSpans, placeBehind_eq, textOf_append,
      textOf_cons, Position.advance_append]
  · rw [Grammar.scan_eq, Lexing.scanFrom, placeBehind_eq, hsplit, textOf_append, textOf_cons,
      Position.advance_append, Position.advance_append]
    refine failure_shifted ?_ _
    simp only [Position.offset_advance _ (textOf back)]
    omega

/-- The delimiters of SQL are not mistaken for parts of each other. -/
theorem Grammar.sql_separated : Grammar.sql.Separated where
  unlimited := by decide
  openers := by decide +kernel
  nested := by decide +kernel
  escapes := by decide +kernel

/-- A literal with a doubled quote and the start of a line comment gives way to one with the start
of a block comment.  The comment behind it stays unclosed. -/
theorem scan_replace_doubled_quote :
    Grammar.sql.Accepted ∧ Grammar.sql.Separated ∧
      ∃ middle later failure,
        Grammar.sql.scan (Text.encode "a '/*' b /* c") =
            ⟨⟨.code, 0, 2, 1, 1, "", ""⟩ :: middle :: later, failure⟩ ∧
          (middle.kind = .stringLiteral ∧ middle.start = 2 ∧ middle.stop = 6) ∧
          List.Forall₂ (Span.ShiftedBy (-2)) [⟨.code, 8, 11, 1, 9, "", ""⟩] later ∧
          Option.Rel (Unclosed.ShiftedBy (-2))
            (Grammar.sql.scan (Text.encode "a '--''' b /* c")).failure failure := by
  have haccepted : Grammar.sql.Accepted := by decide +kernel
  obtain ⟨middle, later, failure, hscan, hmiddle, hlater, hfailure⟩ :=
    @scan_replace _ haccepted Grammar.sql_separated (Text.encode "a '--''' b /* c")
      (Text.encode "'/*'") [⟨.code, 0, 2, 1, 1, "", ""⟩] [⟨.code, 8, 11, 1, 9, "", ""⟩]
      ⟨.stringLiteral, 2, 8, 1, 3, "'", "'"⟩ ⟨.stringLiteral, 0, 4, 1, 1, "'", "'"⟩
      (by decide +kernel) (by decide) (by decide +kernel) rfl rfl
  exact ⟨haccepted, Grammar.sql_separated, middle, later, failure, hscan,
    ⟨hmiddle.1, hmiddle.2.2.2.1, hmiddle.2.2.2.2⟩, hlater, hfailure⟩

end CommentMarkers
