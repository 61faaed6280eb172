import CommentMarkers.Annotation.Decoration
import CommentMarkers.Annotation.Marker

/-!
# Occurrences of markers

A marker counts where it stands alone: a blank or the end of the line is on either side. An issue
reference such as `(#12)` may follow it directly and then belongs to it.

Main results:

- Theorem `IssueReference.length_le`: a reference lies inside the text.
-/

namespace CommentMarkers

/-! ## Issue references -/

/-- An issue number written with more digits than are read. -/
structure IssueTooLong where
  digits : Nat
  deriving DecidableEq, Repr

namespace IssueTooLong

/-- The most digits that an issue number may have. -/
def limit : Nat := 4300

/-- The message for an issue number that is too long. -/
def message (failure : IssueTooLong) : String :=
  "Exceeds the limit (" ++ toString limit ++ " digits) for integer string conversion: value has "
    ++ toString failure.digits
    ++ " digits; use sys.set_int_max_str_digits() to increase the limit"

end IssueTooLong

/-- An issue number and the length of the reference that names it. -/
structure IssueReference where
  number : Nat
  length : Nat
  deriving DecidableEq, Repr

namespace IssueReference

/-- The bytes in front of the digits of a reference. -/
def opening : Bytes := [40, 35]

/-- The byte behind the digits of a reference. -/
def closing : UInt8 := 41

/-- The digits of the reference that begins the text, if one does. -/
def digits? (text : Bytes) : Option Bytes :=
  if opening.isPrefixOf text then
    let inner := text.drop opening.length
    let digits := inner.takeWhile Bytes.isDigit
    if !digits.isEmpty && inner[digits.length]? = some closing then some digits else none
  else none

/-- The reference that begins the text, if one does. -/
def read (text : Bytes) : Except IssueTooLong (Option IssueReference) :=
  match digits? text with
  | none => .ok none
  | some digits =>
    if IssueTooLong.limit < digits.length then .error ⟨digits.length⟩
    else .ok (some ⟨Bytes.digitsValue digits, digits.length + 3⟩)

/-- A reference lies inside the text. -/
theorem length_le {text : Bytes} {reference : IssueReference}
    (hread : read text = .ok (some reference)) : reference.length ≤ text.length := by
  unfold read at hread
  split at hread
  · simp at hread
  · next digits hfound =>
    split at hread
    · simp at hread
    · have hsame := Option.some.inj (Except.ok.inj hread)
      subst hsame
      unfold digits? at hfound
      split at hfound
      · next hstarts =>
        have hfront := (List.isPrefixOf_iff_prefix.1 hstarts).length_le
        dsimp only at hfound
        split at hfound
        · next hcloses =>
          cases hfound
          simp only [Bool.and_eq_true, decide_eq_true_eq] at hcloses
          have hinside := (List.getElem?_eq_some_iff.1 hcloses.2).1
          simp only [List.length_drop, opening, List.length_cons, List.length_nil] at hinside hfront
          simp only [opening, List.length_cons, List.length_nil]
          omega
        · simp at hfound
      · simp at hfound

end IssueReference

/-! ## Hits in a line -/

/-- A marker that stands alone in a line: where it starts, where it ends together with its issue
reference, and the issue. -/
structure LineHit where
  start : Nat
  stop : Nat
  issue : Option Nat
  deriving DecidableEq, Repr

/-- Holds if a neighbour leaves a marker alone: it is a blank, or there is none. -/
def isBoundary (neighbour : Option UInt8) : Bool :=
  neighbour.all Bytes.isBlank

/-- The hits of a marker in the rest of a line that begins at the index `index`, behind the byte
`before`. Behind a hit the search goes on at its end, and everywhere else at the next byte. -/
def lineHits (marker : Bytes) (before : Option UInt8) (index : Nat) :
    Bytes → Except IssueTooLong (List LineHit)
  | [] => .ok []
  | byte :: rest =>
    if marker.isPrefixOf (byte :: rest) then do
      let reference ← IssueReference.read ((byte :: rest).drop marker.length)
      let length := marker.length + (reference.map (·.length)).getD 0
      let behind := rest.drop (length - 1)
      if isBoundary before && isBoundary behind.head? then
        let last := ((byte :: rest).take length).getLast?
        let hits ← lineHits marker last (index + length) behind
        return ⟨index, index + length, reference.map (·.number)⟩ :: hits
      else lineHits marker (some byte) (index + 1) rest
    else lineHits marker (some byte) (index + 1) rest
termination_by bytes => bytes.length
decreasing_by all_goals simp only [List.length_drop, List.length_cons]; omega

/-! ## Hits in a comment -/

/-- A hit in one of the lines of a comment. -/
structure Hit extends LineHit where
  line : Nat
  deriving DecidableEq, Repr

/-- The hits of a marker in lines whose first one has the number `number`. -/
def hitsFrom (marker : Bytes) (number : Nat) :
    List CommentLine → Except IssueTooLong (List Hit)
  | [] => .ok []
  | line :: rest => do
    let here ← lineHits marker none 0 line.text
    let more ← hitsFrom marker (number + 1) rest
    return here.map (fun hit => { hit with line := number }) ++ more

/-- The hits of a marker in the lines of a comment. -/
def hits (marker : Bytes) (lines : List CommentLine) : Except IssueTooLong (List Hit) :=
  hitsFrom marker 0 lines

end CommentMarkers
