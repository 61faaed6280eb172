import CommentMarkers.Edit.Purge
import CommentMarkers.Edit.Report

/-!
# Sessions

A session edits one source step by step. It remembers the annotations that were extracted last.
Edits change the source and leave these annotations as they are, so their offsets may be stale;
edits clamp them to the source. A step that fails changes nothing.
-/

namespace CommentMarkers

/-- A source and the annotations that were extracted last. -/
structure Session where
  source : Bytes
  annotations : List Annotation
  deriving DecidableEq, Repr

namespace Session

/-- A session that has extracted nothing yet. -/
def start (source : Bytes) : Session := ⟨source, []⟩

/-- Extracts the annotations of the source and remembers them. -/
def annotate (session : Session) (grammar : Grammar) (query : Query) :
    Except SourceFault Session :=
  (grammar.annotations query session.source).map fun found =>
    { session with annotations := found }

/-- The remembered annotations with some numbers; none if one of them is missing. -/
def pick? (session : Session) (numbers : List Nat) : Option (List Annotation) :=
  numbers.mapM fun number => session.annotations[number]?

/-- Assignments of issues to remembered annotations; none if one of them is missing. -/
def assignments? (session : Session) (issues : List (Nat × Int)) : Option (List Assignment) :=
  issues.mapM fun (number, issue) =>
    (session.annotations[number]?).map fun note => ⟨note, issue⟩

/-- Writes references into the source. -/
def report (session : Session) (assignments : List Assignment) : Except ReportFault Session :=
  (writeReferences session.source assignments).map fun source => { session with source }

/-- Removes the comments of annotations from the source. -/
def purge (session : Session) (annotations : List Annotation) (issues : Option (List Int)) :
    Session :=
  { session with source := CommentMarkers.purge session.source annotations issues }

/-- Puts another source in place of the source. -/
def replace (session : Session) (source : Bytes) : Session :=
  { session with source }

/-- Adds bytes at the end of the source. -/
def append (session : Session) (more : Bytes) : Session :=
  { session with source := session.source ++ more }

end Session

end CommentMarkers
