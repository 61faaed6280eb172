import CommentMarkers.Data.Data
import CommentMarkers.Text.Blank
import CommentMarkers.Text.Encoding

/-!
# Markers

A marker is the word that makes a comment an annotation. It has at least one character and no
blanks, so it can stand between blanks.

Main results:

- Theorem `Marker.ofText_eq_ok_iff`: exactly the texts of markers are accepted.
-/

namespace CommentMarkers

/-! ## Markers -/

/-- A word without blanks. -/
structure Marker where
  text : String
  nonempty : text ≠ ""
  solid : text.toList.any Text.isBlank = false
  deriving DecidableEq, Repr

/-- A text that is no marker. -/
structure InvalidMarker where
  given : String
  deriving DecidableEq, Repr

/-- The message for a text that is no marker. -/
def InvalidMarker.message (failure : InvalidMarker) : String :=
  "marker must be a non-empty token without whitespace, got " ++ Text.quoted failure.given

namespace Marker

/-- The marker with a text. -/
def ofText (text : String) : Except InvalidMarker Marker :=
  if hvalid : text ≠ "" ∧ text.toList.any Text.isBlank = false then
    .ok ⟨text, hvalid.1, hvalid.2⟩
  else .error ⟨text⟩

/-- Exactly the texts of markers are accepted. -/
theorem ofText_eq_ok_iff (text : String) (marker : Marker) :
    ofText text = .ok marker ↔ marker.text = text := by
  unfold ofText
  split
  · constructor
    · rintro hok
      cases hok
      rfl
    · rintro rfl
      rfl
  · next hinvalid =>
    constructor
    · intro himpossible
      cases himpossible
    · rintro rfl
      exact absurd ⟨marker.nonempty, marker.solid⟩ hinvalid

/-- The bytes to look for. -/
def bytes (marker : Marker) : Bytes :=
  Text.encode marker.text

/-- The marker that is used when none is given. -/
def todo : Marker :=
  ⟨"@TODO", by decide, by decide⟩

end Marker

/-! ## Policies -/

/-- How many annotations one comment may yield. -/
inductive MarkerPolicy where
  /-- Only the first marker of a comment counts; its text runs to the end of the comment. -/
  | first
  /-- Every marker counts; the text of each runs to the next one. -/
  | all
  deriving DecidableEq, Repr

/-- A value that names no policy. -/
structure UnknownPolicy where
  given : Data

/-- The message for a value that names no policy. -/
def UnknownPolicy.message (failure : UnknownPolicy) : String :=
  failure.given.literal ++ " is not a valid MarkerPolicy"

/-- The policy that a value names. -/
def MarkerPolicy.ofData : Data → Except UnknownPolicy MarkerPolicy
  | .text "first" => .ok .first
  | .text "all" => .ok .all
  | other => .error ⟨other⟩

end CommentMarkers
