import CommentMarkers.Text.CaseTable

/-!
# Small letters

Full lower-casing of a text. Each character has a small form of its own, with two exceptions: the
capital I with a dot becomes two characters, and a capital sigma at the end of a word becomes the
final small sigma. Characters without case stay.
-/

namespace CommentMarkers.Text

/-- The small form of a character that becomes one character. -/
def lowerChar (char : Char) : Char :=
  let code := char.toNat
  match lowerCaseRuns.find? fun (first, last, step, _) =>
      first ≤ code && code ≤ last && (code - first) % step == 0 with
  | some (_, _, _, distance) => Char.ofNat (code + distance).toNat
  | none => char

/-- Holds if the nearest character that is not ignored by case has case. -/
def meetsCased (chars : List Char) : Bool :=
  ((chars.dropWhile (inRanges caseIgnorableRanges)).head?).any (inRanges casedRanges)

/-- The capital sigma. -/
def capitalSigma : Char := Char.ofNat 0x3A3

/-- The small sigma. -/
def smallSigma : Char := Char.ofNat 0x3C3

/-- The small sigma at the end of a word. -/
def finalSigma : Char := Char.ofNat 0x3C2

/-- The capital I with a dot above. -/
def dottedCapitalI : Char := Char.ofNat 0x130

/-- The dot above that stays when the capital I with a dot becomes a small i. -/
def dotAbove : Char := Char.ofNat 0x307

/-- The small form of each character; `before` holds the characters in front, nearest first. -/
def lowerChars (before : List Char) : List Char → List Char
  | [] => []
  | char :: rest =>
    let small :=
      if char = capitalSigma then
        if meetsCased before && !meetsCased rest then [finalSigma] else [smallSigma]
      else if char = dottedCapitalI then ['i', dotAbove]
      else if char.toNat < 128 then [char.toLower]
      else [lowerChar char]
    small ++ lowerChars (char :: before) rest

/-- The text in small letters. -/
def lower (text : String) : String :=
  String.ofList (lowerChars [] text.toList)

end CommentMarkers.Text
