import CommentMarkers.Span
import CommentMarkers.Text.Quoted

/-!
# Unclosed constructs

A source may end inside a block comment or a literal. The failure names the delimiter that was
left open and its place, and, once it is known, the file.
-/

namespace CommentMarkers

/-- What was left open at the end of a source. -/
inductive UnclosedConstruct where
  | comment
  | literal
  deriving DecidableEq, Repr

namespace UnclosedConstruct

/-- What messages call the construct. -/
def label : UnclosedConstruct → String
  | comment => "comment"
  | literal => "literal"

/-- Constructs of the comment kinds are comments, and all others are literals. -/
def ofKind (kind : SpanKind) : UnclosedConstruct :=
  if kind.isComment then comment else literal

end UnclosedConstruct

/-- A construct that is open at the end of a source: its opening delimiter, the place of that
delimiter, and the file that it is in. -/
structure Unclosed where
  construct : UnclosedConstruct
  delimiter : String
  place : Position
  path : Option String
  deriving DecidableEq, Repr

namespace Unclosed

/-- The same failure in a file. -/
def inFile (failure : Unclosed) (path : String) : Unclosed :=
  { failure with path := some path }

/-- The message for the failure. A path that is empty is not shown. -/
def message (failure : Unclosed) : String :=
  let file :=
    match failure.path with
    | some path => if path = "" then "" else path ++ ":"
    | none => ""
  file ++ toString failure.place.line ++ ":" ++ toString failure.place.column ++ ": unterminated "
    ++ failure.construct.label ++ " opened by " ++ Text.quoted failure.delimiter

end Unclosed

end CommentMarkers
