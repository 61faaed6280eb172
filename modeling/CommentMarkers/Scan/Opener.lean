import CommentMarkers.Grammar.Table
import CommentMarkers.Scan.Closing
import CommentMarkers.Span

/-!
# Openers

A grammar opens constructs with its delimiters. In code the block comments are tried first, then
the line comments, the strings and the characters, each list in its declared order; the first
delimiter that occurs opens its construct.

Main results:

- Theorem `opening_eq_find?`: where no token is empty, the first one that occurs opens.
- Theorem `token_prefix_of_opening`: what opens occurs, and its token is not empty.
-/

namespace CommentMarkers

/-- A delimiter that opens a construct, with the rule that closes it. -/
structure Opener where
  kind : SpanKind
  text : String
  closer : String
  token : Bytes
  closing : Closing
  deriving DecidableEq, Repr

namespace Opener

/-- A block comment opens with its start token. -/
def ofBlock (block : BlockComment) : Opener where
  kind := .blockComment
  text := block.start
  closer := block.stop
  token := Text.encode block.start
  closing :=
    if block.nested then .nestedBlock (Text.encode block.start) (Text.encode block.stop)
    else .block (Text.encode block.stop)

/-- A line comment opens with its token and has no closing delimiter. -/
def ofLine (token : String) : Opener where
  kind := .lineComment
  text := token
  closer := ""
  token := Text.encode token
  closing := .endOfLine

/-- The rule that closes a literal. -/
def closingOfQuote (quote : Quote) : Closing :=
  let token := Text.encode quote.token
  let escape := quote.escape.map Text.encode
  match quote.maxLength with
  | none => .quote token escape
  | some limit => .boundedQuote token escape limit.toNat

/-- A literal opens and closes with its token. -/
def ofQuote (kind : SpanKind) (quote : Quote) : Opener where
  kind := kind
  text := quote.token
  closer := quote.token
  token := Text.encode quote.token
  closing := closingOfQuote quote

/-- Holds if the delimiter stands at the beginning of the bytes. An empty one stands nowhere, so
that scanning always moves on. No grammar that passes the checks has an empty delimiter, and then
this is the test for the token alone. -/
def occursAt (opener : Opener) (bytes : Bytes) : Bool :=
  !opener.token.isEmpty && opener.token.isPrefixOf bytes

/-- A delimiter that is not empty stands wherever its token is. -/
theorem occursAt_eq {opener : Opener} (htoken : opener.token ≠ []) (bytes : Bytes) :
    opener.occursAt bytes = opener.token.isPrefixOf bytes := by
  rw [occursAt, List.isEmpty_eq_false_iff.2 htoken, Bool.not_false, Bool.true_and]

end Opener

/-- The openers of a grammar in the order in which they are tried. -/
def Grammar.openers (grammar : Grammar) : List Opener :=
  grammar.blockComments.map Opener.ofBlock
    ++ grammar.lineComments.map Opener.ofLine
    ++ grammar.strings.map (Opener.ofQuote .stringLiteral)
    ++ grammar.chars.map (Opener.ofQuote .charLiteral)

/-- The opener that is taken at the beginning of the bytes. -/
def opening (openers : List Opener) (bytes : Bytes) : Option Opener :=
  openers.find? (·.occursAt bytes)

/-- Where no token is empty, the first opener is taken whose token begins the bytes. -/
theorem opening_eq_find? {openers : List Opener}
    (htokens : ∀ opener ∈ openers, opener.token ≠ []) (bytes : Bytes) :
    opening openers bytes = openers.find? (·.token.isPrefixOf bytes) := by
  unfold opening
  induction openers with
  | nil => rfl
  | cons opener rest ih =>
    rw [List.forall_mem_cons] at htokens
    rw [List.find?_cons, List.find?_cons, Opener.occursAt_eq htokens.1, ih htokens.2]

/-- What opens occurs, and its token is not empty. -/
theorem token_prefix_of_opening {openers : List Opener} {bytes : Bytes} {opener : Opener}
    (hopening : opening openers bytes = some opener) :
    opener.token <+: bytes ∧ 0 < opener.token.length := by
  have hoccurs := List.find?_some hopening
  simp only [Opener.occursAt, Bool.and_eq_true, Bool.not_eq_eq_eq_not, Bool.not_true,
    List.isEmpty_eq_false_iff, List.isPrefixOf_iff_prefix] at hoccurs
  exact ⟨hoccurs.2, List.length_pos_iff.2 hoccurs.1⟩

end CommentMarkers
