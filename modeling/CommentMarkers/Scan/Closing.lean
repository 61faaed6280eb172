import CommentMarkers.Bytes
import CommentMarkers.Text.Encoding

/-!
# How constructs close

Once a comment or literal is open, only its own closing rule counts. A closing rule looks at the
bytes behind the opening delimiter and answers how many of them belong to the construct, the
closing delimiter included, or that the construct is not closed.

Main results:

- Theorem `Closing.length_le`: a construct never reaches past the end of the source.
- Theorem `closeQuote_le`, `closeBlock_le`, `closeNested_le`: the same for each kind of construct.
-/

namespace CommentMarkers

/-- The rule that closes a construct. -/
inductive Closing where
  /-- A line comment ends before the newline or at the end of the source. -/
  | endOfLine
  /-- A block comment ends behind the first `stop`. -/
  | block (stop : Bytes)
  /-- A nested block comment ends behind the `stop` that closes its own start. -/
  | nestedBlock (start stop : Bytes)
  /-- A literal ends behind the first `token` that is not escaped. -/
  | quote (token : Bytes) (escape : Option Bytes)
  /-- A bounded literal encloses a single character in at most `limit` bytes. -/
  | boundedQuote (token : Bytes) (escape : Option Bytes) (limit : Nat)
  deriving DecidableEq, Repr

/-! ## Block comments -/

/-- The length up to and with the first `stop`. -/
def closeBlock (stop : Bytes) : Bytes → Option Nat
  | [] => none
  | byte :: rest =>
    if stop.isPrefixOf (byte :: rest) then some stop.length
    else (closeBlock stop rest).map (· + 1)

/-- The length up to and with the `stop` that closes the comment, with `depth` inner comments
still open. At each byte `stop` is tried before `start`. -/
def closeNested (start stop : Bytes) (depth : Nat) : Bytes → Option Nat
  | [] => none
  | byte :: rest =>
    if stop.isPrefixOf (byte :: rest) then
      match depth with
      | 0 => some stop.length
      | depth + 1 =>
        (closeNested start stop depth (rest.drop (stop.length - 1))).map (· + max 1 stop.length)
    else if start.isPrefixOf (byte :: rest) then
      (closeNested start stop (depth + 1) (rest.drop (start.length - 1))).map
        (· + max 1 start.length)
    else (closeNested start stop depth rest).map (· + 1)
termination_by bytes => bytes.length
decreasing_by all_goals simp only [List.length_drop, List.length_cons]; omega

/-! ## Literals -/

/-- The length of the escape that begins the bytes, if one does: a doubled token where the escape
is the token itself, and otherwise the escape with one byte behind it. -/
def escapeLength (token : Bytes) (escape : Option Bytes) (bytes : Bytes) : Option Nat :=
  match escape with
  | none => none
  | some escape =>
    if escape = token then
      if (token ++ token).isPrefixOf bytes then some (token.length + token.length) else none
    else if escape.isPrefixOf bytes && !(bytes.drop escape.length).isEmpty then
      some (escape.length + 1)
    else none

/-- The length up to and with the first token that is not escaped. -/
def closeQuote (token : Bytes) (escape : Option Bytes) : Bytes → Option Nat
  | [] => none
  | byte :: rest =>
    match escapeLength token escape (byte :: rest) with
    | some length => (closeQuote token escape (rest.drop (length - 1))).map (· + max 1 length)
    | none =>
      if token.isPrefixOf (byte :: rest) then some token.length
      else (closeQuote token escape rest).map (· + 1)
termination_by bytes => bytes.length
decreasing_by all_goals simp only [List.length_drop, List.length_cons]; omega

/-- Holds of one escape sequence without blanks, and of the bytes of exactly one character. -/
def isCharacterBody (escape : Option Bytes) (body : Bytes) : Bool :=
  match escape with
  | some escape =>
    if escape.isPrefixOf body then escape.length < body.length && !body.any Bytes.isBlank
    else Text.isSingleChar body
  | none => Text.isSingleChar body

/-- The length of a literal that closes within `limit` bytes and encloses a single character. -/
def closeBounded (token : Bytes) (escape : Option Bytes) (limit : Nat) (bytes : Bytes) :
    Option Nat :=
  (closeQuote token escape (bytes.take (limit + token.length))).filter fun length =>
    isCharacterBody escape (bytes.take (length - token.length))

/-! ## Lengths -/

private theorem length_le_of_isPrefixOf {token bytes : Bytes}
    (hbegins : token.isPrefixOf bytes = true) :
    token.length ≤ bytes.length :=
  (List.isPrefixOf_iff_prefix.1 hbegins).length_le

/-- A block comment never reaches past the end of the source. -/
theorem closeBlock_le {stop bytes : Bytes} {length : Nat}
    (hclosed : closeBlock stop bytes = some length) :
    length ≤ bytes.length := by
  induction bytes generalizing length with
  | nil => simp [closeBlock] at hclosed
  | cons byte rest ih =>
    simp only [closeBlock] at hclosed
    split at hclosed
    · next hfound =>
      cases hclosed
      exact length_le_of_isPrefixOf hfound
    · obtain ⟨inner, hinner, rfl⟩ := Option.map_eq_some_iff.1 hclosed
      have hbound := ih hinner
      simp only [List.length_cons]
      omega

/-- A nested block comment never reaches past the end of the source. -/
theorem closeNested_le {start stop bytes : Bytes} {depth length : Nat}
    (hclosed : closeNested start stop depth bytes = some length) : length ≤ bytes.length := by
  fun_induction closeNested start stop depth bytes generalizing length with
  | case1 => simp at hclosed
  | case2 byte rest hfound =>
    cases hclosed
    exact length_le_of_isPrefixOf hfound
  | case3 byte rest hfound depth ih =>
    obtain ⟨inner, hinner, rfl⟩ := Option.map_eq_some_iff.1 hclosed
    have hbound := ih hinner
    have hfits := length_le_of_isPrefixOf hfound
    simp only [List.length_drop, List.length_cons] at hbound hfits ⊢
    omega
  | case4 depth byte rest _ hfound ih =>
    obtain ⟨inner, hinner, rfl⟩ := Option.map_eq_some_iff.1 hclosed
    have hbound := ih hinner
    have hfits := length_le_of_isPrefixOf hfound
    simp only [List.length_drop, List.length_cons] at hbound hfits ⊢
    omega
  | case5 depth byte rest _ _ ih =>
    obtain ⟨inner, hinner, rfl⟩ := Option.map_eq_some_iff.1 hclosed
    have hbound := ih hinner
    simp only [List.length_cons]
    omega

/-- An escape never reaches past the end of the bytes. -/
theorem escapeLength_le {token : Bytes} {escape : Option Bytes} {bytes : Bytes} {length : Nat}
    (hlength : escapeLength token escape bytes = some length) : length ≤ bytes.length := by
  unfold escapeLength at hlength
  split at hlength
  · simp at hlength
  · split at hlength
    · split at hlength
      · next hfound =>
        cases hlength
        simpa using length_le_of_isPrefixOf hfound
      · simp at hlength
    · split at hlength
      · next hfound =>
        cases hlength
        simp only [Bool.and_eq_true, Bool.not_eq_true', List.isEmpty_eq_false_iff] at hfound
        have hinside := List.length_pos_iff.2 hfound.2
        rw [List.length_drop] at hinside
        omega
      · simp at hlength

/-- A literal never reaches past the end of the source. -/
theorem closeQuote_le {token : Bytes} {escape : Option Bytes} {bytes : Bytes} {length : Nat}
    (hclosed : closeQuote token escape bytes = some length) : length ≤ bytes.length := by
  fun_induction closeQuote token escape bytes generalizing length with
  | case1 => simp at hclosed
  | case2 byte rest escaped hfound ih =>
    obtain ⟨inner, hinner, rfl⟩ := Option.map_eq_some_iff.1 hclosed
    have hbound := ih hinner
    have hfits := escapeLength_le hfound
    simp only [List.length_drop, List.length_cons] at hbound hfits ⊢
    omega
  | case3 byte rest _ hfound =>
    cases hclosed
    exact length_le_of_isPrefixOf hfound
  | case4 byte rest _ _ ih =>
    obtain ⟨inner, hinner, rfl⟩ := Option.map_eq_some_iff.1 hclosed
    have hbound := ih hinner
    simp only [List.length_cons]
    omega

/-- A bounded literal never reaches past the end of the source. -/
theorem closeBounded_le {token : Bytes} {escape : Option Bytes} {limit : Nat} {bytes : Bytes}
    {length : Nat} (hclosed : closeBounded token escape limit bytes = some length) :
    length ≤ bytes.length := by
  have hquote := (Option.filter_eq_some_iff.1 hclosed).1
  have hbound := closeQuote_le hquote
  simp only [List.length_take] at hbound
  omega

namespace Closing

/-- The length of the part of the bytes that belongs to the construct. -/
def length? : Closing → Bytes → Option Nat
  | endOfLine, bytes => some (Bytes.firstLineLength bytes)
  | block stop, bytes => closeBlock stop bytes
  | nestedBlock start stop, bytes => closeNested start stop 0 bytes
  | quote token escape, bytes => closeQuote token escape bytes
  | boundedQuote token escape limit, bytes => closeBounded token escape limit bytes

/-- Holds if a construct that is not closed does not open at all. -/
def isBounded : Closing → Bool
  | boundedQuote _ _ _ => true
  | endOfLine | block _ | nestedBlock _ _ | quote _ _ => false

/-- A construct never reaches past the end of the source. -/
theorem length_le {closing : Closing} {bytes : Bytes} {length : Nat}
    (hlength : closing.length? bytes = some length) : length ≤ bytes.length := by
  cases closing with
  | endOfLine =>
    cases hlength
    exact Bytes.firstLineLength_le bytes
  | block stop => exact closeBlock_le hlength
  | nestedBlock start stop => exact closeNested_le hlength
  | quote token escape => exact closeQuote_le hlength
  | boundedQuote token escape limit => exact closeBounded_le hlength

end Closing

end CommentMarkers
