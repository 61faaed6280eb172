import CommentMarkers.Annotation.Extraction

/-!
# Reporting annotations

Once an annotation is filed as an issue, its marker gets a reference such as `(#12)`. The
references are written from the end of the source to its beginning, so that the offsets of the
annotations further up stay true.

Main results:

- Theorem `Assignment.write_eq_ok_iff`: when a reference is written, and where.
- Theorem `length_writeReferences`: a source grows by the references that are written into it.
-/

namespace CommentMarkers

/-- An annotation and the number of the issue that it is filed as. -/
structure Assignment where
  note : Annotation
  issue : Int
  deriving DecidableEq, Repr

/-- Why references cannot be written. -/
inductive ReportFault where
  | alreadyReported (line column issue : Nat)
  | numberTooLong
  deriving DecidableEq, Repr

/-- The message for a fault. -/
def ReportFault.message : ReportFault → String
  | alreadyReported line column issue =>
    "annotation at " ++ toString line ++ ":" ++ toString column ++ " already references issue #"
      ++ toString issue
  | numberTooLong =>
    "Exceeds the limit (" ++ toString IssueTooLong.limit
      ++ " digits) for integer string conversion; use sys.set_int_max_str_digits() to increase the "
      ++ "limit"

/-- Inserts bytes at an offset, or at the end of a shorter source. -/
def Bytes.insert (source : Bytes) (offset : Nat) (inserted : Bytes) : Bytes :=
  source.take offset ++ inserted ++ source.drop offset

/-- A source grows by the bytes that are inserted into it. -/
theorem Bytes.length_insert (source : Bytes) (offset : Nat) (inserted : Bytes) :
    (Bytes.insert source offset inserted).length = source.length + inserted.length := by
  simp only [Bytes.insert, List.length_append, List.length_take, List.length_drop]
  omega

/-- The reference to an issue. -/
def referenceText (issue : Int) : Bytes :=
  Text.encode ("(#" ++ toString issue ++ ")")

/-- Holds if a number has more digits than are written. -/
def isTooLong (issue : Int) : Bool :=
  IssueTooLong.limit < (toString issue.natAbs).length

namespace Assignment

/-- Writes the reference of one assignment behind its marker. -/
def write (source : Bytes) (assignment : Assignment) : Except ReportFault Bytes :=
  match assignment.note.issue with
  | some issue =>
    let place := assignment.note.place
    .error (.alreadyReported place.line place.column issue)
  | none =>
    if isTooLong assignment.issue then .error .numberTooLong
    else
      .ok (Bytes.insert source assignment.note.markerStop (referenceText assignment.issue))

/-- A reference is written exactly for a short number and an annotation without an issue. It stands
behind the marker. -/
theorem write_eq_ok_iff {source written : Bytes} {assignment : Assignment} :
    assignment.write source = .ok written ↔
      assignment.note.issue = none ∧ isTooLong assignment.issue = false ∧
        Bytes.insert source assignment.note.markerStop (referenceText assignment.issue)
          = written := by
  unfold write
  cases assignment.note.issue with
  | some issue => simp
  | none =>
    cases isTooLong assignment.issue with
    | true => simp
    | false => simp

/-- Holds if the first annotation does not start in front of the second one. -/
def notBefore (first second : Assignment) : Bool :=
  second.note.place.offset ≤ first.note.place.offset

end Assignment

/-- Writes the references of all assignments, the last annotation of the source first. -/
def writeReferences (source : Bytes) (assignments : List Assignment) : Except ReportFault Bytes :=
  (assignments.mergeSort Assignment.notBefore).foldlM Assignment.write source

private theorem length_of_foldlM_write {source written : Bytes} {assignments : List Assignment}
    (hwritten : assignments.foldlM Assignment.write source = .ok written) :
    written.length
      = source.length + (assignments.flatMap (referenceText ·.issue)).length := by
  induction assignments generalizing source with
  | nil =>
    cases hwritten
    rfl
  | cons first rest ih =>
    rw [List.foldlM_cons] at hwritten
    cases hmarked : first.write source with
    | error fault =>
      rw [hmarked] at hwritten
      cases hwritten
    | ok edited =>
      rw [hmarked] at hwritten
      obtain ⟨_, _, rfl⟩ := Assignment.write_eq_ok_iff.1 hmarked
      rw [ih hwritten, Bytes.length_insert, List.flatMap_cons, List.length_append, Nat.add_assoc]

/-- A source grows by the references that are written into it, wherever the annotations stand and in
whatever order they are given. -/
theorem length_writeReferences {source written : Bytes} {assignments : List Assignment}
    (hwritten : writeReferences source assignments = .ok written) :
    written.length
      = source.length + (assignments.flatMap (referenceText ·.issue)).length := by
  have hsorted := List.mergeSort_perm assignments Assignment.notBefore
  rw [length_of_foldlM_write hwritten, (hsorted.flatMap_right _).length_eq]

end CommentMarkers
