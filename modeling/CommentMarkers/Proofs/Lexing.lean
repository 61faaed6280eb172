import CommentMarkers.Proofs.Slices
import CommentMarkers.Scan

/-!
# How a source is cut

The function `lex` searches for a construct, closes it and goes on behind it.  This file states
what one round of that search does as the three rules of the relation `Lexes`, so that later
proofs go by induction on the rounds and never unfold the search.

Main results:

- Theorem `lexes_lex`: every source is cut by the rules of `Lexes`.
- Theorem `Closing.ends_with_terminator`: a closed construct ends with its closing delimiter.
- Theorem `Lexes.texts_eq`: the texts of the lexemes make up the source, up to a construct that
  is not closed.
-/

namespace CommentMarkers

/-! ## Closing delimiters -/

/-- The delimiter that ends a construct: none for a line comment. -/
def Closing.terminator : Closing → Bytes
  | endOfLine => []
  | block stop => stop
  | nestedBlock _ stop => stop
  | quote token _ => token
  | boundedQuote token _ _ => token

/-- A block comment ends with its closing delimiter. -/
theorem closeBlock_ends {stop bytes : Bytes} {length : Nat}
    (hclosed : closeBlock stop bytes = some length) : stop <:+ bytes.take length := by
  induction bytes generalizing length with
  | nil => simp [closeBlock] at hclosed
  | cons byte rest ih =>
      simp only [closeBlock] at hclosed
      split at hclosed
      · rename_i hstop
        cases hclosed
        exact ends_of_isPrefixOf hstop
      · rcases Option.map_eq_some_iff.1 hclosed with ⟨inner, hinner, rfl⟩
        exact ends_of_drop_ends (byte :: rest) 1 (ih hinner)

/-- A nested comment ends with its closing delimiter. -/
theorem closeNested_ends {start stop bytes : Bytes} {depth length : Nat}
    (hclosed : closeNested start stop depth bytes = some length) : stop <:+ bytes.take length := by
  fun_induction closeNested start stop depth bytes generalizing length with
  | case1 => simp at hclosed
  | case2 byte rest hstop =>
      cases hclosed
      exact ends_of_isPrefixOf hstop
  | case3 byte rest hstop depth ih =>
      rcases Option.map_eq_some_iff.1 hclosed with ⟨inner, hinner, rfl⟩
      apply ends_of_drop_ends
      rw [drop_max_one]
      exact ih hinner
  | case4 depth byte rest hstop hstart ih =>
      rcases Option.map_eq_some_iff.1 hclosed with ⟨inner, hinner, rfl⟩
      apply ends_of_drop_ends
      rw [drop_max_one]
      exact ih hinner
  | case5 depth byte rest hstop hstart ih =>
      rcases Option.map_eq_some_iff.1 hclosed with ⟨inner, hinner, rfl⟩
      exact ends_of_drop_ends (byte :: rest) 1 (ih hinner)

/-- A literal ends with its token. -/
theorem closeQuote_ends {token : Bytes} {escape : Option Bytes} {bytes : Bytes}
    {length : Nat} (hclosed : closeQuote token escape bytes = some length) :
    token <:+ bytes.take length := by
  fun_induction closeQuote token escape bytes generalizing length with
  | case1 => simp at hclosed
  | case2 byte rest escaped hescape ih =>
      rcases Option.map_eq_some_iff.1 hclosed with ⟨inner, hinner, rfl⟩
      apply ends_of_drop_ends
      rw [drop_max_one]
      exact ih hinner
  | case3 byte rest hescape htoken =>
      cases hclosed
      exact ends_of_isPrefixOf htoken
  | case4 byte rest hescape htoken ih =>
      rcases Option.map_eq_some_iff.1 hclosed with ⟨inner, hinner, rfl⟩
      exact ends_of_drop_ends (byte :: rest) 1 (ih hinner)

/-- A bounded literal is closed as an unbounded one inside its window. -/
theorem closeQuote_of_closeBounded {token : Bytes} {escape : Option Bytes} {limit : Nat}
    {bytes : Bytes} {length : Nat}
    (hclosed : closeBounded token escape limit bytes = some length) :
    closeQuote token escape (bytes.take (limit + token.length)) = some length :=
  (Option.filter_eq_some_iff.1 hclosed).1

/-- A bounded literal ends with its token. -/
theorem closeBounded_ends {token : Bytes} {escape : Option Bytes} {limit : Nat}
    {bytes : Bytes} {length : Nat}
    (hclosed : closeBounded token escape limit bytes = some length) :
    token <:+ bytes.take length := by
  have hquote := closeQuote_of_closeBounded hclosed
  have hlength := closeQuote_le hquote
  have hends := closeQuote_ends hquote
  rw [List.take_take, Nat.min_eq_left (Nat.le_trans hlength (List.length_take_le _ _))] at hends
  exact hends

/-- A closed construct ends with its closing delimiter, which lies behind the opening one. -/
theorem Closing.ends_with_terminator {closing : Closing} {bytes : Bytes} {length : Nat}
    (hclosed : closing.length? bytes = some length) :
    closing.terminator <:+ bytes.take length := by
  cases closing with
  | endOfLine => exact List.nil_suffix
  | block stop => exact closeBlock_ends hclosed
  | nestedBlock start stop => exact closeNested_ends hclosed
  | quote token escape => exact closeQuote_ends hclosed
  | boundedQuote token escape limit => exact closeBounded_ends hclosed

/-! ## Openers of a grammar -/

/-- The tokens of an opener are the encodings of its texts. -/
theorem Grammar.delimiters_of_mem_openers {grammar : Grammar} {opener : Opener}
    (hopener : opener ∈ grammar.openers) :
    opener.token = Text.encode opener.text ∧
      opener.closing.terminator = Text.encode opener.closer := by
  simp only [Grammar.openers, List.mem_append, List.mem_map] at hopener
  rcases hopener with ((⟨block, -, rfl⟩ | ⟨token, -, rfl⟩) | ⟨quote, -, rfl⟩) | ⟨quote, -, rfl⟩
  · refine ⟨rfl, ?_⟩
    cases hnested : block.nested <;> simp [Opener.ofBlock, hnested, Closing.terminator]
  · exact ⟨rfl, rfl⟩
  all_goals
    refine ⟨rfl, ?_⟩
    cases hlimit : quote.maxLength <;>
      simp [Opener.ofQuote, Opener.closingOfQuote, hlimit, Closing.terminator]

/-- An opener of a grammar is one of a block comment, of a line comment or of a literal. -/
theorem Grammar.opener_cases {grammar : Grammar} {opener : Opener}
    (hopener : opener ∈ grammar.openers) :
    (∃ block ∈ grammar.blockComments, opener = .ofBlock block) ∨
      (∃ token ∈ grammar.lineComments, opener = .ofLine token) ∨
        ∃ quote ∈ grammar.strings ++ grammar.chars,
          ∃ kind ∈ [SpanKind.stringLiteral, .charLiteral], opener = .ofQuote kind quote := by
  simp only [openers, List.mem_append, List.mem_map] at hopener
  rcases hopener with ((⟨block, hblock, rfl⟩ | ⟨token, htoken, rfl⟩) | ⟨quote, hquote, rfl⟩) |
    ⟨quote, hquote, rfl⟩
  · exact Or.inl ⟨block, hblock, rfl⟩
  · exact Or.inr (Or.inl ⟨token, htoken, rfl⟩)
  · exact Or.inr (Or.inr ⟨quote, List.mem_append_left _ hquote, _, by decide, rfl⟩)
  · exact Or.inr (Or.inr ⟨quote, List.mem_append_right _ hquote, _, by decide, rfl⟩)

/-- What opens a line comment is one of the line comment delimiters. -/
theorem Grammar.exists_ofLine {grammar : Grammar} {opener : Opener}
    (hopener : opener ∈ grammar.openers) (hkind : opener.kind = .lineComment) :
    ∃ token ∈ grammar.lineComments, opener = .ofLine token := by
  rcases opener_cases hopener with
    ⟨block, -, rfl⟩ | ⟨token, htoken, rfl⟩ | ⟨quote, -, kind, hliteral, rfl⟩
  · cases hkind
  · exact ⟨token, htoken, rfl⟩
  · rw [show kind = .lineComment from hkind] at hliteral
    simp at hliteral

/-- No opener of a grammar classifies its construct as code. -/
theorem Grammar.kind_ne_code_of_mem_openers {grammar : Grammar} {opener : Opener}
    (hopener : opener ∈ grammar.openers) : opener.kind ≠ .code := by
  simp only [Grammar.openers, List.mem_append, List.mem_map] at hopener
  rcases hopener with ((⟨block, -, rfl⟩ | ⟨token, -, rfl⟩) | ⟨quote, -, rfl⟩) | ⟨quote, -, rfl⟩ <;>
    simp [Opener.ofBlock, Opener.ofLine, Opener.ofQuote]

/-! ## One round of the search -/

/-- What occurs is a token with at least one byte. -/
theorem Opener.occursAt_iff {opener : Opener} {bytes : Bytes} :
    opener.occursAt bytes = true ↔ opener.token ≠ [] ∧ opener.token <+: bytes := by
  rw [occursAt, Bool.and_eq_true, Bool.not_eq_true', List.isEmpty_eq_false_iff,
    List.isPrefixOf_iff_prefix]

/-- A byte at which nothing opens is code. -/
theorem nextConstruct_of_none {openers : List Opener} {byte : UInt8} {rest : Bytes}
    (hopening : opening openers (byte :: rest) = none) :
    nextConstruct openers (byte :: rest) =
      (nextConstruct openers rest).map fun (length, opener) => (length + 1, opener) := by
  rw [nextConstruct, hopening]

/-- Where a token opens, it is code as a whole if it stays code, and opens its construct if it does
not. -/
theorem nextConstruct_of_some {openers : List Opener} {bytes : Bytes} {found : Opener}
    (hopening : opening openers bytes = some found) :
    nextConstruct openers bytes =
      if found.staysCode bytes then
        (nextConstruct openers (bytes.drop found.token.length)).map
          fun (length, opener) => (length + found.token.length, opener)
      else some (0, found) := by
  rcases token_prefix_of_opening hopening with ⟨htoken, hpos⟩
  cases bytes with
  | nil =>
      rw [List.prefix_nil.1 htoken] at hpos
      exact absurd hpos (Nat.lt_irrefl 0)
  | cons byte rest =>
      have hdrop : (byte :: rest).drop found.token.length =
          rest.drop (found.token.length - 1) := by
        rw [← drop_max_one byte rest, Nat.max_eq_right hpos]
      rw [nextConstruct, hopening, hdrop]

/-- The construct that is found stands behind the code in front of it: its opener is taken there
and does not stay code. -/
theorem nextConstruct_split {openers : List Opener} {bytes : Bytes} {before : Nat}
    {opener : Opener} (hnext : nextConstruct openers bytes = some (before, opener)) :
    opening openers (bytes.drop before) = some opener ∧
      opener.staysCode (bytes.drop before) = false := by
  fun_induction nextConstruct openers bytes generalizing before opener with
  | case1 => simp at hnext
  | case2 byte rest hopening ih =>
      rcases Option.map_eq_some_iff.1 hnext with ⟨⟨inner, found⟩, hinner, hsame⟩
      rcases Prod.mk.inj hsame with ⟨rfl, rfl⟩
      exact ih hinner
  | case3 byte rest rejected hopening hstays ih =>
      rcases Option.map_eq_some_iff.1 hnext with ⟨⟨inner, found⟩, hinner, hsame⟩
      rcases Prod.mk.inj hsame with ⟨rfl, rfl⟩
      have htoken := (token_prefix_of_opening hopening).2
      have hdrop : (byte :: rest).drop (inner + rejected.token.length) =
          (rest.drop (rejected.token.length - 1)).drop inner := by
        rw [← drop_max_one byte rest, List.drop_drop, Nat.max_eq_right htoken, Nat.add_comm]
      rw [hdrop]
      exact ih hinner
  | case4 byte rest found hopening hstays =>
      rcases Prod.mk.inj (Option.some.inj hnext) with ⟨rfl, rfl⟩
      exact ⟨hopening, by simpa using hstays⟩

/-- The source is the code in front of a construct, its token and what follows. -/
theorem nextConstruct_eq_append {openers : List Opener} {bytes : Bytes} {before : Nat}
    {opener : Opener} (hnext : nextConstruct openers bytes = some (before, opener)) :
    bytes = bytes.take before ++
        (opener.token ++ (bytes.drop before).drop opener.token.length) ∧
      (bytes.take before).length = before := by
  rcases (token_prefix_of_opening (nextConstruct_split hnext).1).1 with ⟨tail, htail⟩
  have hfits := (nextConstruct_lt hnext).1
  constructor
  · rw [← htail, List.drop_left, htail, List.take_append_drop]
  · rw [List.length_take]
    omega

/-- How a source is cut: it is all code, or its next construct is not closed, or the construct is
closed and the rest of the source is cut in the same way. -/
inductive Lexes (openers : List Opener) : Bytes → Lexing → Prop where
  | code (bytes : Bytes) (hnext : nextConstruct openers bytes = none) :
      Lexes openers bytes ⟨Lexeme.code bytes, none⟩
  | unclosed (code tail : Bytes) (opener : Opener)
      (hnext : nextConstruct openers (code ++ (opener.token ++ tail)) = some (code.length, opener))
      (hopen : opener.closing.length? tail = none) :
      Lexes openers (code ++ (opener.token ++ tail)) ⟨Lexeme.code code, some opener⟩
  | closed (code inner rest : Bytes) (opener : Opener) (lexing : Lexing)
      (hnext : nextConstruct openers (code ++ (opener.token ++ (inner ++ rest))) =
        some (code.length, opener))
      (hclosed : opener.closing.length? (inner ++ rest) = some inner.length)
      (hrest : Lexes openers rest lexing) :
      Lexes openers (code ++ (opener.token ++ (inner ++ rest)))
        (lexing.prepend (Lexeme.code code ++ [Lexeme.ofConstruct opener (opener.token ++ inner)]))

/-- Every source is cut by these rules. -/
theorem lexes_lex (openers : List Opener) (bytes : Bytes) :
    Lexes openers bytes (lex openers bytes) := by
  fun_induction lex openers bytes with
  | case1 bytes hnext => exact .code bytes hnext
  | case2 bytes before opener hnext code construct behind hopen =>
      rcases nextConstruct_eq_append hnext with ⟨hbytes, hlength⟩
      have hround := Lexes.unclosed (bytes.take before) behind opener
        (by rw [← hbytes, hlength]; exact hnext) hopen
      rw [← hbytes] at hround
      exact hround
  | case3 bytes before opener hnext code construct behind length hclosed text ih =>
      rcases nextConstruct_eq_append hnext with ⟨hbytes, hlength⟩
      have hinner : (behind.take length).length = length := by
        rw [List.length_take]
        exact Nat.min_eq_left (Closing.length_le hclosed)
      have htext : text = opener.token ++ behind.take length := by
        have htoken := (token_prefix_of_opening (nextConstruct_split hnext).1).1
        rw [List.prefix_iff_eq_take] at htoken
        rw [htoken]
        simp only [text, construct, behind]
        rw [List.take_add]
      have hround := Lexes.closed (bytes.take before) (behind.take length)
        (behind.drop length) opener (lex openers (behind.drop length))
        (by rw [List.take_append_drop, ← hbytes, hlength]; exact hnext)
        (by rw [List.take_append_drop, hinner]; exact hclosed) ih
      rw [List.take_append_drop, ← hbytes, ← htext] at hround
      exact hround

/-- A cut by these rules is the one that `lex` makes. -/
theorem Lexes.eq_lex {openers : List Opener} {bytes : Bytes} {lexing : Lexing}
    (hlexes : Lexes openers bytes lexing) : lexing = lex openers bytes := by
  induction hlexes with
  | code bytes hnext =>
      rw [lex]
      split
      · rfl
      · rename_i hother
        rw [hnext] at hother
        cases hother
  | unclosed code tail opener hnext hopen =>
      rw [lex]
      split
      · rename_i hother
        rw [hnext] at hother
        cases hother
      · rename_i before found hother
        rw [hnext] at hother
        rcases Prod.mk.inj (Option.some.inj hother) with ⟨rfl, rfl⟩
        simp only [List.drop_left, List.take_left, hopen]
  | closed code inner rest opener lexing hnext hclosed hrest ih =>
      rw [lex]
      split
      · rename_i hother
        rw [hnext] at hother
        cases hother
      · rename_i before found hother
        rw [hnext] at hother
        rcases Prod.mk.inj (Option.some.inj hother) with ⟨rfl, rfl⟩
        have htext : (opener.token ++ (inner ++ rest)).take (opener.token.length + inner.length) =
            opener.token ++ inner := by
          rw [← List.append_assoc, ← List.length_append, List.take_left]
        simp only [List.drop_left, List.take_left, hclosed, ih, htext]

/-- The construct behind some code is opened by the first opener that occurs there, and that opener
does not stay code. -/
theorem opening_of_nextConstruct {openers : List Opener} {code bytes : Bytes} {opener : Opener}
    (hnext : nextConstruct openers (code ++ bytes) = some (code.length, opener)) :
    opening openers bytes = some opener ∧ opener.staysCode bytes = false := by
  have hsplit := nextConstruct_split hnext
  rwa [List.drop_left] at hsplit

/-- What opens a construct is one of the openers. -/
theorem mem_of_nextConstruct {openers : List Opener} {bytes : Bytes} {before : Nat}
    {opener : Opener} (hnext : nextConstruct openers bytes = some (before, opener)) :
    opener ∈ openers :=
  List.mem_of_find?_eq_some (nextConstruct_split hnext).1

/-! ## The texts of lexemes -/

/-- The bytes that lexemes stand for. -/
def textOf (lexemes : List Lexeme) : Bytes :=
  lexemes.flatMap (·.text)

@[simp]
theorem textOf_nil : textOf [] = [] :=
  rfl

@[simp]
theorem textOf_cons (lexeme : Lexeme) (rest : List Lexeme) :
    textOf (lexeme :: rest) = lexeme.text ++ textOf rest :=
  rfl

@[simp]
theorem textOf_append (front back : List Lexeme) :
    textOf (front ++ back) = textOf front ++ textOf back :=
  List.flatMap_append

@[simp]
theorem Lexeme.text_ofConstruct (opener : Opener) (text : Bytes) :
    (ofConstruct opener text).text = text :=
  rfl

/-- The same construct with another text. -/
def Lexeme.withText (lexeme : Lexeme) (text : Bytes) : Lexeme :=
  { lexeme with text := text }

@[simp]
theorem textOf_code (code : Bytes) : textOf (Lexeme.code code) = code := by
  cases code with
  | nil => rfl
  | cons byte rest => simp [Lexeme.code, Lexeme.ofCode, textOf]

/-- The lexemes make up the source, up to the token of a construct that is not closed. -/
theorem Lexes.texts_eq {openers : List Opener} {bytes : Bytes} {lexing : Lexing}
    (hlexes : Lexes openers bytes lexing) :
    match lexing.unclosed with
    | none => bytes = textOf lexing.lexemes
    | some opener =>
      opener ∈ openers ∧ opener.token ≠ [] ∧
        ∃ tail, bytes = textOf lexing.lexemes ++ (opener.token ++ tail) := by
  induction hlexes with
  | code bytes hnext => simp
  | unclosed code tail opener hnext hopen =>
      have htoken := (token_prefix_of_opening (opening_of_nextConstruct hnext).1).2
      exact ⟨mem_of_nextConstruct hnext, List.length_pos_iff.1 htoken, tail, by simp⟩
  | closed code inner rest opener lexing hnext hclosed hrest ih =>
      have hfront : ∀ more, textOf (lexing.prepend
          (Lexeme.code code ++
            [Lexeme.ofConstruct opener (opener.token ++ inner)])).lexemes ++ more =
            code ++ (opener.token ++ (inner ++ (textOf lexing.lexemes ++ more))) := by
        intro more
        simp [Lexing.prepend]
      have hsame : (lexing.prepend (Lexeme.code code ++
          [Lexeme.ofConstruct opener (opener.token ++ inner)])).unclosed = lexing.unclosed := rfl
      rw [hsame]
      cases hunclosed : lexing.unclosed with
      | none =>
          rw [hunclosed] at ih
          simp only at ih ⊢
          have hwhole := hfront []
          rw [List.append_nil, List.append_nil] at hwhole
          rw [hwhole, ← ih]
      | some left =>
          rw [hunclosed] at ih
          rcases ih with ⟨hmem, htoken, tail, htail⟩
          exact ⟨hmem, htoken, tail, by rw [hfront, htail]⟩

/-! ## Well-formed lexemes -/

/-- A lexeme with at least one byte, which begins and ends with its delimiters unless it is code. -/
structure Lexeme.WellFormed (lexeme : Lexeme) : Prop where
  nonempty : lexeme.text ≠ []
  delimited : lexeme.kind ≠ .code →
    ∃ body, lexeme.text = Text.encode lexeme.opener ++ (body ++ Text.encode lexeme.closer)

/-- The construct of one round is well formed. -/
theorem wellFormed_ofConstruct {grammar : Grammar} {opener : Opener}
    (hopener : opener ∈ grammar.openers) (htoken : opener.token ≠ []) {inner rest : Bytes}
    (hclosed : opener.closing.length? (inner ++ rest) = some inner.length) :
    (Lexeme.ofConstruct opener (opener.token ++ inner)).WellFormed := by
  rcases Grammar.delimiters_of_mem_openers hopener with ⟨hopens, hcloses⟩
  constructor
  · simp [htoken]
  · intro _
    have hends := Closing.ends_with_terminator hclosed
    rw [List.take_left, hcloses] at hends
    rcases hends with ⟨body, hbody⟩
    refine ⟨body, ?_⟩
    rw [Lexeme.text_ofConstruct, ← hbody, hopens]
    rfl

/-- A stretch of code is the text of its lexeme. -/
theorem text_of_mem_code {code : Bytes} {lexeme : Lexeme} (hlexeme : lexeme ∈ Lexeme.code code) :
    lexeme.text = code := by
  cases code with
  | nil => cases hlexeme
  | cons byte code =>
      rw [List.mem_singleton.1 hlexeme]
      rfl

/-- A stretch of code is well formed where it is a lexeme at all. -/
theorem wellFormed_of_mem_code {code : Bytes} {lexeme : Lexeme}
    (hlexeme : lexeme ∈ Lexeme.code code) : lexeme.WellFormed ∧ lexeme.kind = .code := by
  cases code with
  | nil => simp [Lexeme.code] at hlexeme
  | cons byte code =>
      simp only [Lexeme.code, List.isEmpty_cons, Bool.false_eq_true, if_false,
        List.mem_singleton] at hlexeme
      subst hlexeme
      exact ⟨⟨List.cons_ne_nil _ _, fun hkind => absurd rfl hkind⟩, rfl⟩

/-- The lexemes of a source are well formed. -/
theorem Lexes.wellFormed {grammar : Grammar} {bytes : Bytes} {lexing : Lexing}
    (hlexes : Lexes grammar.openers bytes lexing) :
    ∀ lexeme ∈ lexing.lexemes, lexeme.WellFormed := by
  induction hlexes with
  | code bytes hnext => exact fun lexeme hlexeme => (wellFormed_of_mem_code hlexeme).1
  | unclosed code tail opener hnext hopen =>
      exact fun lexeme hlexeme => (wellFormed_of_mem_code hlexeme).1
  | closed code inner rest opener lexing hnext hclosed hrest ih =>
      intro lexeme hlexeme
      simp only [Lexing.prepend, List.mem_append, List.mem_singleton] at hlexeme
      rcases hlexeme with (hcode | rfl) | hmore
      · exact (wellFormed_of_mem_code hcode).1
      · have htoken := (token_prefix_of_opening (opening_of_nextConstruct hnext).1).2
        exact wellFormed_ofConstruct (mem_of_nextConstruct hnext) (List.length_pos_iff.1 htoken)
          hclosed
      · exact ih lexeme hmore

/-! ## Constructs among lexemes -/

/-- A comment is not code. -/
theorem SpanKind.ne_code_of_isComment {kind : SpanKind} (hkind : kind.isComment = true) :
    kind ≠ .code := by
  rintro rfl
  cases hkind

/-- Code has no constructs in it. -/
theorem code_ne_append_construct {construct : Lexeme} (hkind : construct.kind ≠ .code)
    (code : Bytes) (before after : List Lexeme) :
    Lexeme.code code ≠ before ++ construct :: after := by
  intro hcode
  have hmem : construct ∈ Lexeme.code code := by
    rw [hcode]
    exact List.mem_append_right _ List.mem_cons_self
  exact hkind (wellFormed_of_mem_code hmem).2

/-- A construct among the lexemes of one round is the one of the round or comes behind it. -/
theorem construct_cases {code : Bytes} {own construct : Lexeme} {more before after : List Lexeme}
    (hkind : construct.kind ≠ .code)
    (hsplit : Lexeme.code code ++ [own] ++ more = before ++ construct :: after) :
    before = Lexeme.code code ∧ own = construct ∧ more = after ∨
      ∃ inner, before = Lexeme.code code ++ [own] ++ inner ∧
        more = inner ++ construct :: after := by
  rcases List.append_eq_append_iff.1 hsplit with ⟨inner, hbefore, hmore⟩ | ⟨inner, hfront, hback⟩
  · exact Or.inr ⟨inner, hbefore, hmore⟩
  · cases inner with
    | nil =>
        refine Or.inr ⟨[], ?_, hback.symm⟩
        rw [hfront, List.append_nil, List.append_nil]
    | cons first inner =>
        rcases List.cons.inj hback with ⟨rfl, rfl⟩
        rcases List.eq_nil_or_concat inner with rfl | ⟨inside, last, rfl⟩
        · rcases List.append_inj' hfront rfl with ⟨hbefore, hlast⟩
          exact Or.inl ⟨hbefore.symm, List.singleton_inj.1 hlast, rfl⟩
        · rw [List.concat_eq_append, ← List.cons_append, ← List.append_assoc] at hfront
          have hfirst := (List.append_inj' hfront rfl).1
          exact absurd hfirst (code_ne_append_construct hkind code before inside)

/-- A construct of a source was opened by the opener that is taken where it begins, and closes in
front of what is behind it. -/
theorem Lexes.exists_opener {openers : List Opener} {bytes behind : Bytes} {lexing : Lexing}
    (hlexes : Lexes openers bytes lexing) {before after : List Lexeme} {construct : Lexeme}
    (hkind : construct.kind ≠ .code) (hsplit : lexing.lexemes = before ++ construct :: after)
    (hbytes : bytes = textOf before ++ (construct.text ++ behind)) :
    ∃ opener ∈ openers, ∃ inner, construct = Lexeme.ofConstruct opener (opener.token ++ inner) ∧
      opener.closing.length? (inner ++ behind) = some inner.length ∧
        opening openers (opener.token ++ (inner ++ behind)) = some opener := by
  induction hlexes generalizing before with
  | code bytes hnext => exact absurd hsplit (code_ne_append_construct hkind bytes before after)
  | unclosed code tail opener hnext hopen =>
      exact absurd hsplit (code_ne_append_construct hkind code before after)
  | closed code inner rest opener lexing hnext hclosed hrest ih =>
      rcases construct_cases hkind hsplit with ⟨rfl, rfl, -⟩ | ⟨inside, rfl, hmore⟩
      · rw [textOf_code, List.append_cancel_left_eq, Lexeme.text_ofConstruct, List.append_assoc,
          List.append_cancel_left_eq, List.append_cancel_left_eq] at hbytes
        rw [hbytes] at hclosed hnext
        exact ⟨opener, mem_of_nextConstruct hnext, inner, rfl, hclosed,
          (opening_of_nextConstruct hnext).1⟩
      · apply ih hmore
        simpa using hbytes

/-! ## Placing lexemes -/

/-- Placing a list of lexemes and then another one behind it. -/
theorem placeSpans_append (place : Position) (front back : List Lexeme) :
    placeSpans place (front ++ back) =
      placeSpans place front ++ placeSpans (place.advance (textOf front)) back := by
  induction front generalizing place with
  | nil => rfl
  | cons lexeme rest ih =>
      rw [List.cons_append, placeSpans, placeSpans, ih, textOf_cons, Position.advance_append,
        List.cons_append]

/-- A span among placed lexemes is that of one of them. -/
theorem exists_of_placeSpans_eq {place : Position} {lexemes : List Lexeme}
    {before after : List Span} {span : Span}
    (hspans : placeSpans place lexemes = before ++ span :: after) :
    ∃ front lexeme back, lexemes = front ++ lexeme :: back ∧ before = placeSpans place front ∧
      span = lexeme.spanAt (place.advance (textOf front)) ∧
      after = placeSpans ((place.advance (textOf front)).advance lexeme.text) back := by
  induction before generalizing place lexemes with
  | nil =>
      cases lexemes with
      | nil => cases hspans
      | cons lexeme rest =>
          rcases List.cons.inj hspans with ⟨rfl, rfl⟩
          exact ⟨[], lexeme, rest, rfl, rfl, rfl, rfl⟩
  | cons first before ih =>
      cases lexemes with
      | nil => cases hspans
      | cons lexeme rest =>
          rcases List.cons.inj hspans with ⟨rfl, hrest⟩
          rcases ih hrest with ⟨front, own, back, rfl, rfl, rfl, rfl⟩
          refine ⟨lexeme :: front, own, back, rfl, rfl, ?_, ?_⟩
          all_goals rw [textOf_cons, Position.advance_append]

/-- The place behind lexemes is the place behind their text. -/
theorem placeBehind_eq (place : Position) (lexemes : List Lexeme) :
    placeBehind place lexemes = place.advance (textOf lexemes) := by
  induction lexemes generalizing place with
  | nil => rfl
  | cons lexeme rest ih =>
      rw [textOf_cons, Position.advance_append, ← ih]
      rfl

/-- The outcome of a cut whose first lexeme stands at a place. -/
def Lexing.scanFrom (lexing : Lexing) (place : Position) : Scan where
  spans := placeSpans place lexing.lexemes
  failure := lexing.unclosed.map fun opener =>
    opener.unclosedAt (placeBehind place lexing.lexemes)

/-- Scanning places the cut at the first byte. -/
theorem Grammar.scan_eq (grammar : Grammar) (source : Bytes) :
    grammar.scan source = (lex grammar.openers source).scanFrom .first :=
  rfl

/-- A source is the text in front of a span, the span, and the rest. -/
theorem exists_split_of_scan {grammar : Grammar} {source : Bytes} {before after : List Span}
    {span : Span}
    (hspans : (grammar.scan source).spans = before ++ span :: after) :
    ∃ front lexeme back,
      (lex grammar.openers source).lexemes = front ++ lexeme :: back ∧
        before = placeSpans .first front ∧
        span = lexeme.spanAt (Position.first.advance (textOf front)) ∧
        after = placeSpans ((Position.first.advance (textOf front)).advance lexeme.text) back ∧
        source.take span.start = textOf front ∧
        source = textOf front ++ (lexeme.text ++ source.drop span.stop) := by
  rw [Grammar.scan_eq] at hspans
  rcases exists_of_placeSpans_eq hspans with ⟨front, lexeme, back, hsplit, rfl, rfl, rfl⟩
  obtain ⟨rest, hsource⟩ :
      ∃ rest, source = textOf front ++ (lexeme.text ++ rest) := by
    have htexts := (lexes_lex grammar.openers source).texts_eq
    rw [hsplit, textOf_append, textOf_cons] at htexts
    split at htexts
    · exact ⟨textOf back, htexts⟩
    · rename_i opener hunclosed
      rcases htexts with ⟨-, -, tail, htail⟩
      exact ⟨textOf back ++ (opener.token ++ tail), by rw [htail]; simp⟩
  refine ⟨front, lexeme, back, hsplit, rfl, rfl, rfl, ?_, ?_⟩
  all_goals
    simp only [Lexeme.spanAt, Position.offset_advance, show Position.first.offset = 0 from rfl,
      Nat.zero_add]
  · rw [hsource, List.take_left]
  · have hdrop : source.drop ((textOf front).length + lexeme.text.length) = rest := by
      rw [hsource, ← List.append_assoc, ← List.length_append, List.drop_left]
    rw [hdrop]
    exact hsource

/-- A lexeme of a source has its span behind the text in front of it. -/
theorem spanAt_mem_scan {grammar : Grammar} {source : Bytes} {before after : List Lexeme}
    {lexeme : Lexeme} (hsplit : (lex grammar.openers source).lexemes = before ++ lexeme :: after) :
    lexeme.spanAt (Position.first.advance (textOf before)) ∈ (grammar.scan source).spans ∧
      (Position.first.advance (textOf before)).offset = (textOf before).length := by
  constructor
  · rw [Grammar.scan_eq, Lexing.scanFrom, hsplit, placeSpans_append]
    exact List.mem_append_right _ List.mem_cons_self
  · rw [Position.offset_advance]
    exact Nat.zero_add _

/-- Spans in front of an outcome. -/
def Scan.prepend (scan : Scan) (front : List Span) : Scan :=
  { scan with spans := front ++ scan.spans }

/-- Outcomes with the same spans in front are the same if the whole outcomes are. -/
theorem Scan.prepend_inj {first second : Scan} {front : List Span}
    (hsame : first.prepend front = second.prepend front) : first = second := by
  cases first
  cases second
  simp only [prepend, Scan.mk.injEq, List.append_cancel_left_eq] at hsame
  rw [hsame.1, hsame.2]

/-- Lexemes in front of a cut become spans in front of its outcome. -/
theorem Lexing.scanFrom_prepend (lexing : Lexing) (front : List Lexeme) (place : Position) :
    (lexing.prepend front).scanFrom place =
      (lexing.scanFrom (place.advance (textOf front))).prepend (placeSpans place front) := by
  simp only [scanFrom, prepend, Scan.prepend, placeSpans_append, placeBehind_eq, textOf_append,
    Position.advance_append]

end CommentMarkers
