import CommentMarkers.Bytes

/-!
# UTF-8

Text becomes bytes by `encode`. Bytes become text in two ways: `decode?` accepts
well-formed input only, and `decode` puts one replacement character for each
longest part that begins a character and does not complete it.

Main results:

- Theorem `encode_append`: encoding works character by character.
-/

namespace CommentMarkers.Text

/-! ## Encoding -/

/-- The UTF-8 bytes of a text. -/
def encode (text : String) : Bytes :=
  text.toList.flatMap String.utf8EncodeChar

/-- Encoding works character by character. -/
theorem encode_append (first second : String) :
    encode (first ++ second) = encode first ++ encode second := by
  simp [encode, List.flatMap_append]

/-! ## Decoding -/

/-- The number of bytes that must follow a lead byte, and the range of the first of them. -/
def followers (lead : UInt8) : Option (Nat × UInt8 × UInt8) :=
  if 0xC2 ≤ lead && lead ≤ 0xDF then some (1, 0x80, 0xBF)
  else if lead == 0xE0 then some (2, 0xA0, 0xBF)
  else if lead == 0xED then some (2, 0x80, 0x9F)
  else if 0xE1 ≤ lead && lead ≤ 0xEF then some (2, 0x80, 0xBF)
  else if lead == 0xF0 then some (3, 0x90, 0xBF)
  else if 0xF1 ≤ lead && lead ≤ 0xF3 then some (3, 0x80, 0xBF)
  else if lead == 0xF4 then some (3, 0x80, 0x8F)
  else none

/-- Reads `count` following bytes, the first of them from `low` to `high`, onto the bits
`code`. The answer has the character's number if all are there, and how many bytes were read. -/
def readFollowers (low high : UInt8) : Nat → Nat → Bytes → Option Nat × Nat
  | 0, code, _ => (some code, 0)
  | _ + 1, _, [] => (none, 0)
  | count + 1, code, byte :: rest =>
    if low ≤ byte && byte ≤ high then
      let (result, read) := readFollowers 0x80 0xBF count (code * 64 + byte.toNat % 64) rest
      (result, read + 1)
    else (none, 0)

/-- The payload bits of a lead byte that has `count` followers. -/
def leadBits (lead : UInt8) (count : Nat) : Nat :=
  lead.toNat % Nat.pow 2 (6 - count)

/-- The character that begins with `lead`, if it is complete, and how many bytes of `rest`
belong to it or to its longest incomplete beginning. -/
def readChar (lead : UInt8) (rest : Bytes) : Option Char × Nat :=
  if lead < 0x80 then (some (Char.ofNat lead.toNat), 0)
  else
    match followers lead with
    | none => (none, 0)
    | some (count, low, high) =>
      let (code, read) := readFollowers low high count (leadBits lead count) rest
      (code.map Char.ofNat, read)

/-- The character that stands for bytes that are no text. -/
def replacement : Char := Char.ofNat 0xFFFD

/-- The characters of a byte string, with a replacement character for each longest part that
begins a character and does not complete it. -/
def decodeChars : Bytes → List Char
  | [] => []
  | lead :: rest =>
    let (char, read) := readChar lead rest
    char.getD replacement :: decodeChars (rest.drop read)
termination_by bytes => bytes.length
decreasing_by simp only [List.length_drop, List.length_cons]; omega

/-- The text of a byte string, with replacement characters for what is no text. -/
def decode (bytes : Bytes) : String :=
  String.ofList (decodeChars bytes)

/-- The characters of a well-formed byte string. -/
def decodeChars? : Bytes → Option (List Char)
  | [] => some []
  | lead :: rest =>
    match readChar lead rest with
    | (some char, read) => (decodeChars? (rest.drop read)).map (char :: ·)
    | (none, _) => none
termination_by bytes => bytes.length
decreasing_by simp only [List.length_drop, List.length_cons]; omega

/-- The text of a well-formed byte string. -/
def decode? (bytes : Bytes) : Option String :=
  (decodeChars? bytes).map String.ofList

/-- Holds of the bytes of exactly one character. -/
def isSingleChar (bytes : Bytes) : Bool :=
  (decodeChars? bytes).any fun chars => chars.length == 1

end CommentMarkers.Text
