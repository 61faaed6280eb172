import CommentMarkers.Proofs.ByteMachine
import CommentMarkers.Proofs.Decoding
import CommentMarkers.Proofs.SpanBoundaries

/-!
# Literals with a limit

The limit of a literal shows the search for its end a window of the bytes only.  Where the window
ends between escapes this does not matter: the literal closes where it closes without the limit, if
it closes inside the window.  An escape that reaches past the window is not read, though.  Its first
bytes are then bytes like any other, and a token among them closes the literal.

Main results:

- Theorem `closeQuote_take_iff`: how a literal closes in a window.
- Theorem `CutsEscape.token_infix`: only escapes that hold the token close a literal too early.
- Theorem `isCharacterBody_iff`: which bodies are taken for a character.
- Theorem `limited_quote_closes`: where the literals of an accepted grammar with a limit close.
-/

namespace CommentMarkers

variable {token : Bytes} {escape : Option Bytes} {bytes : Bytes}

/-! ## Searches that reach an escape -/

/-- Holds of the offsets at which the search for the end of a literal looks for an escape and a
token if nothing limits it. -/
inductive Reaches (token : Bytes) (escape : Option Bytes) : Bytes → Nat → Prop where
  | here (bytes : Bytes) : Reaches token escape bytes 0
  | escape {bytes : Bytes} {length offset : Nat} :
      escapeLength token escape bytes = some length →
      Reaches token escape (bytes.drop length) offset →
      Reaches token escape bytes (length + offset)
  | byte {byte : UInt8} {rest : Bytes} {offset : Nat} :
      escapeLength token escape (byte :: rest) = none →
      token.isPrefixOf (byte :: rest) = false →
      Reaches token escape rest offset →
      Reaches token escape (byte :: rest) (offset + 1)

/-- Holds if the search for the end of a literal reaches an escape that goes on behind the window,
and the first token of what the window shows of it ends after `length` bytes. -/
def CutsEscape (token : Bytes) (escape : Option Bytes) (window : Nat) (bytes : Bytes)
    (length : Nat) : Prop :=
  ∃ start inner escaped, Reaches token escape bytes start ∧
    escapeLength token escape (bytes.drop start) = some escaped ∧ window < start + escaped ∧
      closeBlock token ((bytes.take window).drop start) = some inner ∧ length = start + inner

/-! ## Escapes -/

/-- All escapes of a literal have the same length. -/
theorem escapeLength_unique {other : Bytes} {length inner : Nat}
    (hfirst : escapeLength token escape bytes = some length)
    (hsecond : escapeLength token escape other = some inner) : inner = length := by
  rw [escapeLength_eq_some_iff] at hfirst hsecond
  rcases hfirst with ⟨rfl, -, rfl⟩ | ⟨mark, rfl, hne, -, -, rfl⟩
  · rcases hsecond with ⟨-, -, rfl⟩ | ⟨mark, hmark, hne, -⟩
    · rfl
    · exact absurd (Option.some.inj hmark).symm hne
  · rcases hsecond with ⟨hmark, -⟩ | ⟨other, hother, -, -, -, rfl⟩
    · exact absurd (Option.some.inj hmark) hne
    · rw [Option.some.inj hother]

/-- A window that is smaller than an escape shows no escape. -/
theorem escapeLength_eq_none_of_lt {other : Bytes} {length : Nat}
    (hescape : escapeLength token escape bytes = some length) (hshort : other.length < length) :
    escapeLength token escape other = none := by
  rw [Option.eq_none_iff_forall_ne_some]
  intro inner hinner
  have hle := escapeLength_le hinner
  rw [escapeLength_unique hescape hinner] at hle
  omega

/-- Without room for an escape a literal closes with the first token. -/
theorem closeQuote_eq_closeBlock {front : Bytes} {length : Nat}
    (hescape : escapeLength token escape bytes = some length) (hshort : front.length < length) :
    closeQuote token escape front = closeBlock token front := by
  induction front with
  | nil => rw [closeQuote, closeBlock]
  | cons byte rest ih =>
      have hrest : rest.length < length := Nat.lt_of_succ_lt hshort
      rw [closeQuote, escapeLength_eq_none_of_lt hescape hshort, closeBlock, ih hrest]

/-! ## Windows -/

section Windows

variable {window length : Nat}

/-- A literal is as long as its token at least. -/
theorem length_token_le_of_closeQuote (hclosed : closeQuote token escape bytes = some length) :
    token.length ≤ length :=
  Nat.le_trans (closeQuote_ends hclosed).length_le (List.length_take_le _ _)

/-- So is a block comment whose end it is. -/
theorem length_token_le_of_closeBlock (hclosed : closeBlock token bytes = some length) :
    token.length ≤ length :=
  Nat.le_trans (closeBlock_ends hclosed).length_le (List.length_take_le _ _)

/-- An escape at the beginning of a window that shows it is passed over. -/
theorem closeQuote_take_escape (htoken : token ≠ []) {escaped : Nat}
    (hescape : escapeLength token escape bytes = some escaped) (hfits : escaped ≤ window) :
    closeQuote token escape (bytes.take window) =
      (closeQuote token escape ((bytes.drop escaped).take (window - escaped))).map
        (· + escaped) := by
  rw [closeQuote_escape htoken (escapeLength_take_iff.2 ⟨hescape, hfits⟩), List.drop_take]

/-- A byte at the beginning of a window that is neither an escape nor a token is passed over. -/
theorem closeQuote_take_byte {byte : UInt8} {rest : Bytes}
    (hescape : escapeLength token escape (byte :: rest) = none)
    (hstarts : token.isPrefixOf (byte :: rest) = false) :
    closeQuote token escape ((byte :: rest).take (window + 1)) =
      (closeQuote token escape (rest.take window)).map (· + 1) := by
  have hnone := escapeLength_take_eq_none hescape (window + 1)
  have hfront : ¬ token.isPrefixOf ((byte :: rest).take (window + 1)) = true := by
    intro hfront
    rw [(isPrefixOf_take_iff.1 hfront).1] at hstarts
    cases hstarts
  rw [List.take_succ_cons] at hnone hfront ⊢
  rw [closeQuote, hnone]
  simp only
  rw [if_neg hfront]

/-- A search that reaches an escape behind the end of its window ends with the first token in front
of that end. -/
theorem Reaches.closeQuote_take (htoken : token ≠ []) {start inner escaped : Nat}
    (hreaches : Reaches token escape bytes start)
    (hescape : escapeLength token escape (bytes.drop start) = some escaped)
    (hcut : window < start + escaped)
    (hinner : closeBlock token ((bytes.take window).drop start) = some inner) :
    closeQuote token escape (bytes.take window) = some (start + inner) := by
  induction hreaches generalizing window with
  | here bytes =>
      rw [List.drop_zero] at hescape hinner
      have hshort : (bytes.take window).length < escaped := by
        rw [List.length_take]
        omega
      rw [closeQuote_eq_closeBlock hescape hshort, hinner, Nat.zero_add]
  | @escape bytes length offset hfirst hrest ih =>
      rw [List.drop_drop] at ih
      -- The token is behind the escape, so the window shows the escape.
      have hfits : length ≤ window := by
        have hle := closeBlock_le hinner
        have hpos := length_token_le_of_closeBlock hinner
        have htokens := List.length_pos_iff.2 htoken
        rw [List.length_drop, List.length_take] at hle
        omega
      rw [closeQuote_take_escape htoken hfirst hfits, ih hescape (by omega)]
      · rw [Option.map_some, Nat.add_right_comm, Nat.add_comm offset]
      · rwa [← List.drop_take, List.drop_drop]
  | @byte byte rest offset hnone hstarts hrest ih =>
      cases window with
      | zero =>
          rw [List.take_zero, List.drop_nil, closeBlock] at hinner
          cases hinner
      | succ window =>
          rw [closeQuote_take_byte hnone hstarts, ih hescape (by omega) hinner]
          rw [Option.map_some, Nat.add_right_comm]

/-- An escape that is cut behind another escape is cut. -/
theorem CutsEscape.behind_escape {escaped inner : Nat}
    (hescape : escapeLength token escape bytes = some escaped) (hfits : escaped ≤ window)
    (hcuts : CutsEscape token escape (window - escaped) (bytes.drop escaped) inner) :
    CutsEscape token escape window bytes (inner + escaped) := by
  obtain ⟨start, own, cut, hreaches, hcut, hwindow, hinner, rfl⟩ := hcuts
  refine ⟨escaped + start, own, cut, .escape hescape hreaches, ?_, by omega, ?_, by omega⟩
  · rwa [← List.drop_drop]
  · rwa [← List.drop_take, List.drop_drop] at hinner

/-- An escape that is cut behind a byte is cut. -/
theorem CutsEscape.behind_byte {byte : UInt8} {rest : Bytes} {inner : Nat}
    (hescape : escapeLength token escape (byte :: rest) = none)
    (hstarts : token.isPrefixOf (byte :: rest) = false)
    (hcuts : CutsEscape token escape window rest inner) :
    CutsEscape token escape (window + 1) (byte :: rest) (inner + 1) := by
  obtain ⟨start, own, cut, hreaches, hcut, hwindow, hinner, rfl⟩ := hcuts
  exact ⟨start + 1, own, cut, .byte hescape hstarts hreaches, hcut, by omega, hinner, by omega⟩

/-- Where a search closes a literal in its window, the literal closes there without it as well,
unless the window cuts an escape. -/
theorem closes_or_cuts (htoken : token ≠ [])
    (hclosed : closeQuote token escape (bytes.take window) = some length) :
    closeQuote token escape bytes = some length ∨ CutsEscape token escape window bytes length := by
  induction bytes using closeQuote.induct token escape generalizing window length with
  | case1 =>
      rw [List.take_nil, closeQuote] at hclosed
      cases hclosed
  | case2 byte rest escaped hescape ih =>
      by_cases hfits : escaped ≤ window
      · have hpos := escapeLength_pos htoken hescape
        have hdrop : rest.drop (escaped - 1) = (byte :: rest).drop escaped := by
          rw [List.drop_cons hpos]
        rw [closeQuote_take_escape htoken hescape hfits] at hclosed
        obtain ⟨inner, hinner, rfl⟩ := Option.map_eq_some_iff.1 hclosed
        rw [hdrop] at ih
        rw [closeQuote_escape htoken hescape]
        refine (ih hinner).imp (fun hcloses => ?_) (.behind_escape hescape hfits)
        rw [hcloses, Option.map_some]
      · have hshort : ((byte :: rest).take window).length < escaped := by
          rw [List.length_take]
          omega
        rw [closeQuote_eq_closeBlock hescape hshort] at hclosed
        exact Or.inr ⟨0, length, escaped, .here _, hescape, by omega, hclosed, by omega⟩
  | case3 byte rest hescape hstarts =>
      -- The token is at the beginning, and the window shows a token at least.
      have hfits : token.length ≤ window :=
        Nat.le_trans (length_token_le_of_closeQuote hclosed)
          (Nat.le_trans (closeQuote_le hclosed) (List.length_take_le _ _))
      have hcloses : closeQuote token escape (byte :: rest) = some token.length := by
        rw [closeQuote, hescape]
        exact if_pos hstarts
      rw [closeQuote_take htoken hcloses hfits] at hclosed
      exact Or.inl (hcloses.trans hclosed)
  | case4 byte rest hescape hstarts ih =>
      rw [Bool.not_eq_true] at hstarts
      cases window with
      | zero =>
          rw [List.take_zero, closeQuote] at hclosed
          cases hclosed
      | succ window =>
          rw [closeQuote_take_byte hescape hstarts] at hclosed
          obtain ⟨inner, hinner, rfl⟩ := Option.map_eq_some_iff.1 hclosed
          refine (ih hinner).imp (fun hcloses => ?_) (.behind_byte hescape hstarts)
          rw [closeQuote, hescape, hstarts, hcloses]
          rfl

/-- In a window a literal closes where it closes without it, if the window shows that place, and
where the window cuts an escape. -/
theorem closeQuote_take_iff (htoken : token ≠ []) :
    closeQuote token escape (bytes.take window) = some length ↔
      (closeQuote token escape bytes = some length ∧ length ≤ window) ∨
        CutsEscape token escape window bytes length := by
  constructor
  · intro hclosed
    have hfits := Nat.le_trans (closeQuote_le hclosed) (List.length_take_le _ _)
    exact (closes_or_cuts htoken hclosed).imp_left fun hcloses => ⟨hcloses, hfits⟩
  · rintro (⟨hcloses, hfits⟩ | ⟨start, inner, escaped, hreaches, hescape, hcut, hinner, rfl⟩)
    · exact closeQuote_take htoken hcloses hfits
    · exact hreaches.closeQuote_take htoken hescape hcut hinner

/-- A literal does not close in front of the end of an escape that its search reaches. -/
theorem Reaches.le_of_closeQuote (htoken : token ≠ []) {start escaped : Nat}
    (hreaches : Reaches token escape bytes start)
    (hescape : escapeLength token escape (bytes.drop start) = some escaped)
    (hcloses : closeQuote token escape bytes = some length) : start + escaped ≤ length := by
  induction hreaches generalizing length with
  | here bytes =>
      rw [List.drop_zero] at hescape
      rw [closeQuote_escape htoken hescape] at hcloses
      obtain ⟨inner, -, rfl⟩ := Option.map_eq_some_iff.1 hcloses
      omega
  | escape hfirst _ ih =>
      rw [List.drop_drop] at ih
      rw [closeQuote_escape htoken hfirst] at hcloses
      obtain ⟨inner, hinner, rfl⟩ := Option.map_eq_some_iff.1 hcloses
      have hle := ih hescape hinner
      omega
  | byte hnone hstarts _ ih =>
      rw [closeQuote, hnone, hstarts] at hcloses
      obtain ⟨inner, hinner, rfl⟩ := Option.map_eq_some_iff.1 hcloses
      have hle := ih hescape hinner
      omega

/-- Where the window cuts an escape the literal does not close without the window. -/
theorem CutsEscape.not_closes (htoken : token ≠ [])
    (hcuts : CutsEscape token escape window bytes length) :
    closeQuote token escape bytes ≠ some length := by
  obtain ⟨start, inner, escaped, hreaches, hescape, hcut, hinner, rfl⟩ := hcuts
  intro hcloses
  have hlong := hreaches.le_of_closeQuote htoken hescape hcloses
  have hshort := closeBlock_le hinner
  have hinside := length_token_le_of_closeBlock hinner
  have hpos := List.length_pos_iff.2 htoken
  rw [List.length_drop, List.length_take] at hshort
  omega

/-- Only an escape that holds the token can be cut in such a way. -/
theorem CutsEscape.token_infix (hcuts : CutsEscape token escape window bytes length) :
    ∃ mark ∈ escape, token <:+: mark := by
  obtain ⟨start, inner, escaped, -, hescape, hcut, hinner, -⟩ := hcuts
  rcases escapeLength_eq_some_iff.1 hescape with ⟨rfl, -, -⟩ | ⟨mark, rfl, -, hmark, -, rfl⟩
  · exact ⟨token, rfl, List.infix_rfl⟩
  · refine ⟨mark, rfl, ?_⟩
    -- What the window shows of the escape is the front of its mark.
    have hshown : (bytes.take window).drop start <+: mark := by
      rw [List.drop_take]
      refine List.prefix_of_prefix_length_le (List.take_prefix _ _) hmark ?_
      rw [List.length_take]
      omega
    exact (closeBlock_ends hinner).isInfix.trans
      ((List.take_prefix _ _).isInfix.trans hshown.isInfix)

end Windows

/-! ## Bodies -/

/-- Holds of the bytes of one character, and of an escape with bytes behind it that holds no
blanks. -/
def IsCharacterText (escape : Option Bytes) (body : Bytes) : Prop :=
  (∃ char, body = String.utf8EncodeChar char) ∨
    ∃ mark ∈ escape, mark <+: body ∧ mark.length < body.length ∧
      ∀ byte ∈ body, Bytes.isBlank byte = false

/-- A text that begins a single character is that character. -/
theorem Text.eq_of_prefix_char {mark : Bytes} {char : Char} (hvalid : Text.IsValid mark)
    (hne : mark ≠ []) (hbegins : mark <+: String.utf8EncodeChar char) :
    mark = String.utf8EncodeChar char := by
  obtain ⟨rest, hrest⟩ := hbegins
  have hwhole : Text.IsValid (mark ++ rest) := by
    have hchar := Text.isValid_flatMap [char]
    rwa [List.flatMap_cons, List.flatMap_nil, List.append_nil, ← hrest] at hchar
  obtain ⟨chars, hrests⟩ := (hwhole.of_append_right hvalid).exists_chars
  obtain ⟨own, rfl⟩ := hvalid.exists_chars
  -- Decoding finds one character, and so there is none behind the text.
  have hdecoded : own ++ chars = [char] := by
    rw [← Text.decodeChars_flatMap (own ++ chars), List.flatMap_append, ← hrests, hrest,
      ← Text.decodeChars_flatMap [char], List.flatMap_cons, List.flatMap_nil, List.append_nil]
  cases own with
  | nil => exact absurd rfl hne
  | cons first own =>
      obtain ⟨-, hnone⟩ := List.cons.inj hdecoded
      rw [(List.append_eq_nil_iff.1 hnone).2, List.flatMap_nil] at hrests
      rw [← hrest, hrests, List.append_nil]

/-- A body that is not an escape without anything behind it is taken for a character exactly if it
is the text of one. -/
theorem isCharacterBody_iff {body : Bytes}
    (hescape : ∀ mark ∈ escape, Text.IsValid mark ∧ mark ≠ [] ∧ mark ≠ body) :
    isCharacterBody escape body = true ↔ IsCharacterText escape body := by
  cases escape with
  | none =>
      rw [isCharacterBody, Text.isSingleChar_iff, IsCharacterText]
      simp
  | some mark =>
      obtain ⟨hvalid, hne, hdiffers⟩ := hescape mark rfl
      by_cases hbegins : mark <+: body
      · have hchar : ¬ ∃ char, body = String.utf8EncodeChar char := by
          rintro ⟨char, rfl⟩
          exact hdiffers (Text.eq_of_prefix_char hvalid hne hbegins)
        rw [isCharacterBody, if_pos (List.isPrefixOf_iff_prefix.2 hbegins), IsCharacterText]
        simp [hchar, hbegins]
      · have hnot : mark.isPrefixOf body = false := by
          rwa [← Bool.not_eq_true, List.isPrefixOf_iff_prefix]
        rw [isCharacterBody, hnot, IsCharacterText, ← Text.isSingleChar_iff]
        simp [hbegins]

/-- In front of the token the mark of an escape begins an escape. -/
theorem exists_escapeLength_of_mark (htoken : token ≠ []) {mark front : Bytes}
    (hfront : mark ++ token <+: front) :
    ∃ escaped, escapeLength token (some mark) front = some escaped ∧ mark.length < escaped := by
  have hpos := List.length_pos_iff.2 htoken
  have hlong := hfront.length_le
  rw [List.length_append] at hlong
  by_cases hsame : mark = token
  · subst hsame
    exact ⟨_, escapeLength_eq_some_iff.2 (Or.inl ⟨rfl, hfront, rfl⟩), by omega⟩
  · have hmark := (List.prefix_append mark token).trans hfront
    exact ⟨_, escapeLength_eq_some_iff.2 (Or.inr ⟨mark, rfl, hsame, hmark, by omega, rfl⟩),
      by omega⟩

/-- What is in front of the token that closes a literal is no escape without anything behind it. -/
theorem ne_mark_of_closeQuote (htoken : token ≠ []) {front : Bytes} {length : Nat}
    (hclosed : closeQuote token escape front = some length) :
    ∀ mark ∈ escape, mark ≠ front.take (length - token.length) := by
  rintro mark rfl hmark
  obtain ⟨body, hbody⟩ := closeQuote_ends hclosed
  have hlength : body.length + token.length = length := by
    rw [← List.length_append, hbody, List.length_take, Nat.min_eq_left (closeQuote_le hclosed)]
  have hsame : mark = body :=
    calc mark = front.take body.length := by rw [hmark, ← hlength, Nat.add_sub_cancel]
      _ = (front.take length).take body.length := by
        rw [List.take_take, Nat.min_eq_left (by omega)]
      _ = body := by rw [← hbody, List.take_left]
  subst hsame
  obtain ⟨escaped, hescape, hlong⟩ := exists_escapeLength_of_mark htoken
    (hbody ▸ List.take_prefix length front)
  rw [closeQuote_escape htoken hescape] at hclosed
  obtain ⟨inner, hinner, rfl⟩ := Option.map_eq_some_iff.1 hclosed
  have hshort := length_token_le_of_closeQuote hinner
  omega

/-! ## Literals with a limit -/

/-- The escapes of the quotes of an accepted grammar are not empty, and their limits leave room for
a character. -/
theorem Grammar.Accepted.quote_checks {grammar : Grammar} (haccepted : grammar.Accepted)
    {quote : Quote} (hquote : quote ∈ grammar.strings ++ grammar.chars) :
    quote.escape ≠ some "" ∧ ∀ limit ∈ quote.maxLength, 1 ≤ limit := by
  obtain ⟨_, -, hquotes⟩ := bind_eq_ok_iff.1 haccepted
  obtain ⟨_, hescape, hlimit⟩ := bind_eq_ok_iff.1 (forM_eq_ok_iff.1 hquotes quote hquote)
  constructor
  · intro hempty
    rw [checkEscape, if_pos hempty] at hescape
    cases hescape
  · intro limit hsome
    refine Int.not_lt.1 fun hsmall => ?_
    have hany : quote.maxLength.any (· < 1) = true := by
      rw [Option.mem_def.1 hsome]
      simpa using hsmall
    rw [checkLimit, if_pos hany] at hlimit
    cases hlimit

namespace Quote

/-- The bytes of the token. -/
def delimiter (quote : Quote) : Bytes :=
  Text.encode quote.token

/-- The bytes that begin an escape. -/
def mark (quote : Quote) : Option Bytes :=
  quote.escape.map Text.encode

/-- The quote without its limit. -/
def unlimited (quote : Quote) : Quote :=
  { quote with maxLength := none }

/-- Holds if the literal closes after `length` bytes where nothing limits it, and its body keeps the
limit and is the text of a character. -/
structure ClosesWithin (quote : Quote) (limit : Int) (behind : Bytes) (length : Nat) : Prop where
  closes : (Opener.closingOfQuote quote.unlimited).length? behind = some length
  fits : ((length - quote.delimiter.length : Nat) : Int) ≤ limit
  character : IsCharacterText quote.mark (behind.take (length - quote.delimiter.length))

/-- Holds if the limit cuts an escape of the literal, so that a token in the escape closes it after
`length` bytes, and its body is the text of a character. -/
structure ClosesInEscape (quote : Quote) (limit : Int) (behind : Bytes) (length : Nat) : Prop where
  cuts : CutsEscape quote.delimiter quote.mark (limit.toNat + quote.delimiter.length) behind length
  character : IsCharacterText quote.mark (behind.take (length - quote.delimiter.length))

end Quote

/-- The quotes of an accepted grammar have tokens. -/
theorem Grammar.Accepted.delimiter_ne_nil {grammar : Grammar} (haccepted : grammar.Accepted)
    {quote : Quote} (hquote : quote ∈ grammar.strings ++ grammar.chars) : quote.delimiter ≠ [] := by
  obtain ⟨-, -, hstring, hchar, -⟩ := haccepted.checks
  rcases List.mem_append.1 hquote with hmem | hmem
  · exact Text.encode_ne_nil
      ((checkDelimiters_eq_ok_iff.1 hstring).1 _ (List.mem_map_of_mem hmem))
  · exact Text.encode_ne_nil
      ((checkDelimiters_eq_ok_iff.1 hchar).1 _ (List.mem_map_of_mem hmem))

/-- A literal with a limit closes where it does without the limit and keeps it, and where the limit
cuts an escape. -/
theorem Grammar.Accepted.length?_limited_iff {grammar : Grammar} (haccepted : grammar.Accepted)
    {quote : Quote} (hquote : quote ∈ grammar.strings ++ grammar.chars) {limit : Int}
    (hlimit : quote.maxLength = some limit) (behind : Bytes) (length : Nat) :
    (Opener.closingOfQuote quote).length? behind = some length ↔
      quote.ClosesWithin limit behind length ∨ quote.ClosesInEscape limit behind length := by
  have htoken := haccepted.delimiter_ne_nil hquote
  obtain ⟨hescape, hpositive⟩ := haccepted.quote_checks hquote
  have hroom := hpositive limit hlimit
  -- Where the search closes the literal in the window, its body is judged in the same way.
  have hbody : closeQuote quote.delimiter quote.mark
      (behind.take (limit.toNat + quote.delimiter.length)) = some length →
      (isCharacterBody quote.mark (behind.take (length - quote.delimiter.length)) = true ↔
        IsCharacterText quote.mark (behind.take (length - quote.delimiter.length))) := by
    intro hclosed
    have hle := Nat.le_trans (closeQuote_le hclosed) (List.length_take_le _ _)
    refine isCharacterBody_iff fun mark hmark => ?_
    have hdiffers := ne_mark_of_closeQuote htoken hclosed mark hmark
    rw [List.take_take, Nat.min_eq_left (by omega)] at hdiffers
    obtain ⟨text, htext, rfl⟩ := Option.map_eq_some_iff.1 hmark
    exact ⟨Text.isValid_encode text,
      Text.encode_ne_nil fun hempty => hescape (hempty ▸ htext), hdiffers⟩
  have hclosing : Opener.closingOfQuote quote =
      .boundedQuote quote.delimiter quote.mark limit.toNat := by
    rw [Opener.closingOfQuote, hlimit]
    rfl
  rw [hclosing, Closing.length?, closeBounded, Option.filter_eq_some_iff]
  constructor
  · rintro ⟨hclosed, hcharacter⟩
    rw [hbody hclosed] at hcharacter
    refine ((closeQuote_take_iff htoken).1 hclosed).imp ?_ fun hcuts => ⟨hcuts, hcharacter⟩
    rintro ⟨hcloses, hfits⟩
    exact ⟨hcloses, by omega, hcharacter⟩
  · intro hends
    have hclosed : closeQuote quote.delimiter quote.mark
        (behind.take (limit.toNat + quote.delimiter.length)) = some length := by
      refine (closeQuote_take_iff htoken).2 (hends.imp ?_ (·.cuts))
      rintro ⟨hcloses, hfits, -⟩
      exact ⟨hcloses, by omega⟩
    exact ⟨hclosed, (hbody hclosed).2 (hends.elim (·.character) (·.character))⟩

/-- Where an accepted grammar opens a literal with a limit, the literal closes where it does without
the limit and keeps the limit, and only a body of one character or of one escape counts.  The one
exception is a literal whose limit cuts an escape that holds the token: it closes in the escape,
where the literal without the limit does not close.  If the literal does not close, its token is
passed over as code. -/
theorem limited_quote_closes {grammar : Grammar} (haccepted : grammar.Accepted) {quote : Quote}
    (hquote : quote ∈ grammar.strings ++ grammar.chars) {limit : Int}
    (hlimit : quote.maxLength = some limit) (behind : Bytes) :
    (∀ length, (Opener.closingOfQuote quote).length? behind = some length ↔
      quote.ClosesWithin limit behind length ∨ quote.ClosesInEscape limit behind length) ∧
    (∀ length, quote.ClosesInEscape limit behind length →
      ¬ quote.ClosesWithin limit behind length ∧
        ∃ mark ∈ quote.mark, quote.delimiter <:+: mark) ∧
    ∀ kind, opening grammar.openers (quote.delimiter ++ behind) = some (.ofQuote kind quote) →
      nextConstruct grammar.openers (quote.delimiter ++ behind) =
        match (Opener.closingOfQuote quote).length? behind with
        | some _ => some (0, .ofQuote kind quote)
        | none => (nextConstruct grammar.openers behind).map fun (length, opener) =>
          (length + quote.delimiter.length, opener) := by
  refine ⟨haccepted.length?_limited_iff hquote hlimit behind, ?_, ?_⟩
  · intro length hends
    exact ⟨fun hcloses => hends.cuts.not_closes (haccepted.delimiter_ne_nil hquote) hcloses.closes,
      hends.cuts.token_infix⟩
  · intro kind hopening
    have htoken : (Opener.ofQuote kind quote).token = quote.delimiter := rfl
    have hclosing : (Opener.ofQuote kind quote).closing = Opener.closingOfQuote quote := rfl
    have hbounded : (Opener.closingOfQuote quote).isBounded = true := by
      rw [Opener.closingOfQuote, hlimit]
      rfl
    rw [nextConstruct_of_some hopening, Opener.staysCode, htoken, hclosing, hbounded,
      Bool.true_and, List.drop_left]
    cases (Opener.closingOfQuote quote).length? behind with
    | some length => rfl
    | none => rfl

/-- In Rust an escape is a character, and a lifetime is code. -/
theorem limited_quote_closes_lifetime :
    Grammar.rust.Accepted ∧
      (Opener.closingOfQuote ⟨"'", some "\\", some 10⟩).length? (Text.encode "\\n' 'b") =
        some 3 ∧
      nextConstruct Grammar.rust.openers (Text.encode "'b x") = none := by
  have haccepted : Grammar.rust.Accepted := Grammar.builtin_accepted _ (by decide)
  have hquote : (⟨"'", some "\\", some 10⟩ : Quote) ∈
      Grammar.rust.strings ++ Grammar.rust.chars := by
    decide
  refine ⟨haccepted, ?_, ?_⟩
  · refine ((limited_quote_closes haccepted hquote rfl (Text.encode "\\n' 'b")).1 3).2
      (Or.inl ⟨by decide +kernel, by decide, Or.inr ⟨[92], rfl, ?_⟩⟩)
    decide +kernel
  · refine ((limited_quote_closes haccepted hquote rfl (Text.encode "b x")).2.2 .charLiteral
      (by decide +kernel)).trans ?_
    decide +kernel

/-- A character that doubles its token, and may have one byte. -/
def Quote.doubled : Quote :=
  ⟨"'", some "'", some 1⟩

/-- The limit of such a character shows the first half of a doubled token only, which closes it.
Without the limit the literal does not close. -/
theorem limit_shows_half_escape :
    Grammar.doubledCharacter.Accepted ∧ Quote.doubled ∈ Grammar.doubledCharacter.chars ∧
      (Opener.closingOfQuote Quote.doubled).length? (Text.encode "a''") = some 2 ∧
      (∀ length, ¬ Quote.doubled.ClosesWithin 1 (Text.encode "a''") length) ∧
      Grammar.doubledCharacter.scan (Text.encode "'a''") =
        ⟨[⟨.charLiteral, 0, 3, 1, 1, "'", "'"⟩, ⟨.code, 3, 4, 1, 4, "", ""⟩], none⟩ := by
  have hopen : (Opener.closingOfQuote Quote.doubled.unlimited).length? (Text.encode "a''") =
      none := by
    decide +kernel
  refine ⟨by decide +kernel, by decide, by decide +kernel, fun length hcloses => ?_,
    by decide +kernel⟩
  rw [hcloses.closes] at hopen
  cases hopen

end CommentMarkers
