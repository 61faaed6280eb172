import CommentMarkers.Proofs.Lexing

/-!
# Modes

Inside a construct it is known what to look for: the end of the line, a closing token, or one of
two tokens that nest.  A mode says what that is, and a move says what begins at a place: some bytes
to step over, the end of the construct, or nothing.  The closing rules follow the moves of their
modes, so a fact about a single move becomes a fact about where a construct closes.

Main results:

- Theorem `Mode.Proper.move_agrees`: the moves of a mode follow the closing rule it stands for.
-/

namespace CommentMarkers

/-! ## Modes and moves -/

/-- What the machine looks for inside a construct. -/
inductive Mode where
  /-- The end of the line. -/
  | line
  /-- The first `stop`. -/
  | block (stop : Bytes)
  /-- The `stop` that closes the comment, with `depth` inner comments still open. -/
  | nestedBlock (start stop : Bytes) (depth : Nat)
  /-- The first `token` that is not escaped, among the next `window` bytes if there is a window. -/
  | literal (token : Bytes) (escape : Option Bytes) (window : Option Nat)
  deriving DecidableEq, Repr

/-- The mode of a construct whose limit, if it has one, also bounds the search for its end. -/
def Closing.windowedMode : Closing → Mode
  | endOfLine => .line
  | block stop => .block stop
  | nestedBlock start stop => .nestedBlock start stop 0
  | quote token escape => .literal token escape none
  | boundedQuote token escape limit => .literal token escape (some (limit + token.length))

/-- The mode of a construct whose limit only decides whether it opens. -/
def Closing.plainMode : Closing → Mode
  | boundedQuote token escape _ => .literal token escape none
  | other => other.windowedMode

/-- What begins at the place of a machine inside a construct. -/
inductive Move where
  /-- Some bytes of the construct, behind which the mode is another one. -/
  | stay (count : Nat) (mode : Mode)
  /-- The last bytes of the construct. -/
  | close (count : Nat)
  /-- The end of what may be read. -/
  | stuck
  deriving DecidableEq, Repr

/-- The bytes that a window shows. -/
def view (window : Option Nat) (bytes : Bytes) : Bytes :=
  match window with
  | none => bytes
  | some width => bytes.take width

/-- The move at the beginning of the bytes: a closing token is tried before a nested start, and an
escape before a closing token. -/
def Mode.move : Mode → Bytes → Move
  | line, bytes =>
    match bytes with
    | [] => .close 0
    | byte :: _ => if byte = Bytes.newline then .close 0 else .stay 1 .line
  | block stop, bytes =>
    if bytes.isEmpty then .stuck
    else if stop.isPrefixOf bytes then .close stop.length
    else .stay 1 (.block stop)
  | nestedBlock start stop depth, bytes =>
    if bytes.isEmpty then .stuck
    else if stop.isPrefixOf bytes then
      match depth with
      | 0 => .close stop.length
      | depth + 1 => .stay stop.length (.nestedBlock start stop depth)
    else if start.isPrefixOf bytes then .stay start.length (.nestedBlock start stop (depth + 1))
    else .stay 1 (.nestedBlock start stop depth)
  | literal token escape window, bytes =>
    let seen := view window bytes
    if seen.isEmpty then .stuck
    else
      match escapeLength token escape seen with
      | some length => .stay length (.literal token escape (window.map (· - length)))
      | none =>
        if token.isPrefixOf seen then .close token.length
        else .stay 1 (.literal token escape (window.map (· - 1)))

/-! ## Moves and closing rules -/

/-- The length of what is left of a construct, by the closing rule that a mode stands for. -/
def Mode.length? : Mode → Bytes → Option Nat
  | line, bytes => some (Bytes.firstLineLength bytes)
  | block stop, bytes => closeBlock stop bytes
  | nestedBlock start stop depth, bytes => closeNested start stop depth bytes
  | literal token escape window, bytes => closeQuote token escape (view window bytes)

/-- A mode never reaches past the end of the bytes. -/
theorem Mode.length?_le {mode : Mode} {bytes : Bytes} {length : Nat}
    (hlength : mode.length? bytes = some length) : length ≤ bytes.length := by
  cases mode with
  | line =>
      cases hlength
      exact Bytes.firstLineLength_le bytes
  | block stop => exact closeBlock_le hlength
  | nestedBlock start stop depth => exact closeNested_le hlength
  | literal token escape window =>
      have hbound := closeQuote_le hlength
      cases window with
      | none => exact hbound
      | some width => exact Nat.le_trans hbound (List.length_take_le' ..)

/-- Holds of modes whose tokens are not empty, so that every step reads something. -/
def Mode.Proper : Mode → Prop
  | line | block _ => True
  | nestedBlock start stop _ => start ≠ [] ∧ stop ≠ []
  | literal token _ _ => token ≠ []

/-- A smaller window shows the same bytes behind the ones that were stepped over. -/
theorem view_map_sub (window : Option Nat) (bytes : Bytes) (count : Nat) :
    view (window.map (· - count)) (bytes.drop count) = (view window bytes).drop count := by
  cases window with
  | none => rfl
  | some width => exact (List.drop_take ..).symm

/-- An escape is not empty if its token is not. -/
theorem escapeLength_pos {token : Bytes} {escape : Option Bytes} {bytes : Bytes} {length : Nat}
    (htoken : token ≠ []) (hescape : escapeLength token escape bytes = some length) :
    0 < length := by
  have hpos := List.length_pos_iff.2 htoken
  unfold escapeLength at hescape
  split at hescape
  · cases hescape
  · split at hescape
    · split at hescape
      · cases hescape
        omega
      · cases hescape
    · split at hescape
      · cases hescape
        omega
      · cases hescape

/-- What a move says about the rest of a construct: a move that stays inside steps over some of it
into a mode that stands for what is left, a move that closes steps over all of it, and there is no
move where it is not closed. -/
def Move.Agrees (mode : Mode) (bytes : Bytes) : Move → Prop
  | stay count behind =>
    0 < count ∧ count ≤ bytes.length ∧ behind.Proper ∧
      mode.length? bytes = (behind.length? (bytes.drop count)).map (· + count)
  | close count => mode.length? bytes = some count
  | stuck => mode.length? bytes = none

private theorem move_agrees_line (bytes : Bytes) : (Mode.line.move bytes).Agrees .line bytes := by
  cases bytes with
  | nil => rfl
  | cons byte rest =>
      by_cases hnewline : byte = Bytes.newline
      · simp [Mode.move, Move.Agrees, Mode.length?, Bytes.firstLineLength, hnewline]
      · simp [Mode.move, Move.Agrees, Mode.length?, Mode.Proper, Bytes.firstLineLength, hnewline]

private theorem move_agrees_block (stop bytes : Bytes) :
    ((Mode.block stop).move bytes).Agrees (.block stop) bytes := by
  cases bytes with
  | nil => simp [Mode.move, Move.Agrees, Mode.length?, closeBlock]
  | cons byte rest =>
      by_cases hstop : stop.isPrefixOf (byte :: rest) = true
      · simp [Mode.move, Move.Agrees, Mode.length?, closeBlock, hstop]
      · simp [Mode.move, Move.Agrees, Mode.length?, Mode.Proper, closeBlock, hstop]

private theorem move_agrees_nestedBlock {start stop : Bytes} (hstart : start ≠ [])
    (hstop : stop ≠ []) (depth : Nat) (bytes : Bytes) :
    ((Mode.nestedBlock start stop depth).move bytes).Agrees (.nestedBlock start stop depth)
      bytes := by
  have hstartPos := List.length_pos_iff.2 hstart
  have hstopPos := List.length_pos_iff.2 hstop
  cases bytes with
  | nil => simp [Mode.move, Move.Agrees, Mode.length?, closeNested]
  | cons byte rest =>
      by_cases hstops : stop.isPrefixOf (byte :: rest) = true
      · have hfits := (List.isPrefixOf_iff_prefix.1 hstops).length_le
        cases depth with
        | zero => simp [Mode.move, Move.Agrees, Mode.length?, closeNested, hstops]
        | succ depth =>
            simp only [Mode.move, List.isEmpty_cons, Bool.false_eq_true, if_false, hstops, if_true]
            refine ⟨hstopPos, hfits, ⟨hstart, hstop⟩, ?_⟩
            simp only [Mode.length?]
            rw [closeNested, if_pos hstops, ← drop_max_one byte rest, Nat.max_eq_right hstopPos]
      · by_cases hstarts : start.isPrefixOf (byte :: rest) = true
        · have hfits := (List.isPrefixOf_iff_prefix.1 hstarts).length_le
          simp only [Mode.move, List.isEmpty_cons, Bool.false_eq_true, if_false, hstops, hstarts,
            if_true]
          refine ⟨hstartPos, hfits, ⟨hstart, hstop⟩, ?_⟩
          simp only [Mode.length?]
          rw [closeNested.eq_def]
          simp only [if_neg hstops, if_pos hstarts]
          rw [← drop_max_one byte rest, Nat.max_eq_right hstartPos]
        · simp only [Mode.move, List.isEmpty_cons, Bool.false_eq_true, if_false, hstops, hstarts]
          refine ⟨Nat.one_pos, by simp, ⟨hstart, hstop⟩, ?_⟩
          simp only [Mode.length?]
          rw [closeNested.eq_def]
          simp only [if_neg hstops, if_neg hstarts]
          rfl

private theorem move_agrees_literal {token : Bytes} (htoken : token ≠ [])
    (escape : Option Bytes) (window : Option Nat) (bytes : Bytes) :
    ((Mode.literal token escape window).move bytes).Agrees (.literal token escape window)
      bytes := by
  have hviewLe : (view window bytes).length ≤ bytes.length := by
    cases window with
    | none => exact Nat.le_refl _
    | some width => exact List.length_take_le' ..
  cases hseen : view window bytes with
  | nil => simp [Mode.move, Move.Agrees, Mode.length?, hseen, closeQuote]
  | cons byte rest =>
      rw [hseen] at hviewLe
      simp only [Mode.move, hseen, List.isEmpty_cons, Bool.false_eq_true, if_false]
      cases hescape : escapeLength token escape (byte :: rest) with
      | some length =>
          have hpos := escapeLength_pos htoken hescape
          refine ⟨hpos, Nat.le_trans (escapeLength_le hescape) hviewLe, htoken, ?_⟩
          simp only [Mode.length?, view_map_sub, hseen]
          rw [closeQuote]
          simp only [hescape]
          rw [← drop_max_one byte rest, Nat.max_eq_right hpos]
      | none =>
          by_cases hcloses : token.isPrefixOf (byte :: rest) = true
          · simp only [hcloses, if_true, Move.Agrees, Mode.length?, hseen]
            rw [closeQuote, hescape]
            simp only [hcloses, if_true]
          · simp only [hcloses, Bool.false_eq_true, if_false]
            simp only [List.length_cons] at hviewLe
            refine ⟨Nat.one_pos, by omega, htoken, ?_⟩
            simp only [Mode.length?, view_map_sub, hseen]
            rw [closeQuote, hescape]
            simp only [hcloses, Bool.false_eq_true, if_false]
            rfl

/-- The moves of a mode follow the closing rule that it stands for. -/
theorem Mode.Proper.move_agrees {mode : Mode} (hproper : mode.Proper) (bytes : Bytes) :
    (mode.move bytes).Agrees mode bytes := by
  cases mode with
  | line => exact move_agrees_line bytes
  | block stop => exact move_agrees_block stop bytes
  | nestedBlock start stop depth => exact move_agrees_nestedBlock hproper.1 hproper.2 depth bytes
  | literal token escape window => exact move_agrees_literal hproper escape window bytes

end CommentMarkers
