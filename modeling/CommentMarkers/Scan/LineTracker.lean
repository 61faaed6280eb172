import CommentMarkers.Scan

/-!
# Line tracking

A fold over bytes tells the place behind a text, but reads every byte of it. Scanning meets the
offsets of its spans in rising order, and a tracker keeps what it knows about the last of them: the
line, and where that line starts. To move on it counts the newlines that it passes and looks for
the last one. The place of a marker inside a comment is found in the same way from the place of the
comment.

Main results:

- Theorem `lastNewline?_eq_none_iff`: a text has a last newline unless it has none at all.
- Theorem `lastNewline?_lt`: the last newline of a text is inside it.
- Theorem `Position.advance_eq`: the place behind a text, by its newlines and the last of them.
-/

namespace CommentMarkers

/-! ## The last newline -/

namespace Bytes

/-- The offset of the last newline in a text. -/
def lastNewline? : Bytes → Option Nat
  | [] => none
  | byte :: rest =>
    match lastNewline? rest with
    | some offset => some (offset + 1)
    | none => if byte = newline then some 0 else none

/-- The offset in the source of the last newline at the offsets from `start` up to `stop`. -/
def lastNewlineIn? (source : Bytes) (start stop : Nat) : Option Nat :=
  (lastNewline? (slice source start stop)).map (start + ·)

/-- A text has a last newline unless it has none at all. -/
theorem lastNewline?_eq_none_iff (text : Bytes) :
    lastNewline? text = none ↔ newlineCount text = 0 := by
  fun_induction lastNewline? text with
  | case1 => exact ⟨fun _ => rfl, fun _ => rfl⟩
  | case2 byte rest offset hrest ih =>
    have hmore : newlineCount rest ≤ newlineCount (byte :: rest) := List.count_le_count_cons
    have hsome : newlineCount rest ≠ 0 := by simpa [hrest] using ih
    simp only [reduceCtorEq, false_iff]
    omega
  | case3 rest hrest ih => simp [newlineCount]
  | case4 byte rest hrest hbyte ih =>
    rw [newlineCount, List.count_cons_of_ne hbyte]
    exact ⟨fun _ => ih.1 hrest, fun _ => rfl⟩

/-- The last newline of a text is inside it. -/
theorem lastNewline?_lt {text : Bytes} {offset : Nat} (hlast : lastNewline? text = some offset) :
    offset < text.length := by
  fun_induction lastNewline? text generalizing offset with
  | case1 => simp at hlast
  | case2 byte rest inner hrest ih =>
    have hinner := ih hrest
    simp only [Option.some.injEq, List.length_cons] at hlast ⊢
    omega
  | case3 rest hrest ih =>
    simp only [Option.some.injEq, List.length_cons] at hlast ⊢
    omega
  | case4 => simp at hlast

end Bytes

/-! ## The place behind a text -/

/-- Behind a text the line has gone up by the newlines of the text. The column counts from the last
of them, or goes on in the line if there is none. -/
theorem Position.advance_eq (place : Position) (text : Bytes) :
    place.advance text =
      ⟨place.offset + text.length, place.line + Bytes.newlineCount text,
        match Bytes.lastNewline? text with
        | none => place.column + text.length
        | some newline => text.length - newline⟩ := by
  fun_induction Bytes.lastNewline? text generalizing place with
  | case1 => rfl
  | case2 byte rest newline hrest ih =>
    rw [advance_cons, ih, hrest, Position.next]
    by_cases hbyte : byte = Bytes.newline <;>
      simp [hbyte, Bytes.newlineCount, Nat.add_comm, Nat.add_left_comm]
  | case3 rest hrest ih =>
    have hcount := (Bytes.lastNewline?_eq_none_iff rest).1 hrest
    rw [advance_cons, ih, hrest, Position.next, if_pos rfl, hcount]
    simp only [Bytes.newlineCount, List.count_cons_self, List.length_cons] at hcount ⊢
    simp only [hcount, Nat.sub_zero, Position.mk.injEq, true_and]
    omega
  | case4 byte rest hrest hbyte ih =>
    rw [advance_cons, ih, hrest, Position.next, if_neg hbyte]
    simp only [Bytes.newlineCount, List.count_cons_of_ne hbyte, List.length_cons,
      Position.mk.injEq, true_and]
    omega

/-! ## Trackers -/

/-- What is known about the last offset that was asked for: its line, and where that line starts. -/
structure LineTracker where
  line : Nat
  lineStart : Nat
  offset : Nat
  deriving DecidableEq, Repr

namespace LineTracker

/-- A tracker begins at the first byte of a source. -/
def start : LineTracker := ⟨1, 0, 0⟩

/-- Moves on to an offset. A tracker that passes no newline stays in its line. -/
def moveTo (source : Bytes) (tracker : LineTracker) (offset : Nat) : LineTracker :=
  let newlines := Bytes.newlineCount (Bytes.slice source tracker.offset offset)
  if newlines = 0 then { tracker with offset := offset }
  else
    { line := tracker.line + newlines
      lineStart := ((Bytes.lastNewlineIn? source tracker.offset offset).map (· + 1)).getD 0
      offset := offset }

/-- A tracker is at the offset that it moved to. -/
@[simp]
theorem offset_moveTo (source : Bytes) (tracker : LineTracker) (offset : Nat) :
    (tracker.moveTo source offset).offset = offset := by
  rw [moveTo]
  split <;> rfl

/-- The place of the offset that a tracker is at. -/
def place (tracker : LineTracker) : Position :=
  ⟨tracker.offset, tracker.line, tracker.offset - tracker.lineStart + 1⟩

/-- The spans of lexemes that follow each other from an offset on. The tracker moves to the start
of each of them. -/
def spans (source : Bytes) (tracker : LineTracker) (offset : Nat) : List Lexeme → List Span
  | [] => []
  | lexeme :: rest =>
    let moved := tracker.moveTo source offset
    lexeme.spanAt moved.place :: moved.spans source (offset + lexeme.text.length) rest

/-- The place behind lexemes that follow each other from an offset on. -/
def placeBehind (source : Bytes) (tracker : LineTracker) (offset : Nat) : List Lexeme → Position
  | [] => (tracker.moveTo source offset).place
  | lexeme :: rest =>
    (tracker.moveTo source offset).placeBehind source (offset + lexeme.text.length) rest

end LineTracker

/-- Classifies every byte of a source and finds the places with a tracker. -/
def Grammar.trackedScan (grammar : Grammar) (source : Bytes) : Scan :=
  let lexing := lex grammar.openers source
  { spans := LineTracker.start.spans source 0 lexing.lexemes
    failure := lexing.unclosed.map fun opener =>
      opener.unclosedAt (LineTracker.start.placeBehind source 0 lexing.lexemes) }

/-! ## Places inside a span -/

/-- The place of an offset inside a span. Behind a newline of the span the column counts from that
newline, and in its first line from the start of the span. -/
def Span.positionOf (span : Span) (source : Bytes) (offset : Nat) : Position :=
  match Bytes.lastNewlineIn? source span.start offset with
  | none => ⟨offset, span.line, span.column + (offset - span.start)⟩
  | some newline =>
    ⟨offset, span.line + Bytes.newlineCount (Bytes.slice source span.start offset),
      offset - newline⟩

end CommentMarkers
