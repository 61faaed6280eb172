import CommentMarkers.Proofs.AnnotationHits
import CommentMarkers.Proofs.Decoding
import CommentMarkers.Proofs.Payloads
import Mathlib.Data.List.DropRight

/-!
# Payloads that go on

Joining lets the last payload of a line comment go on in the comments that it absorbs.  Their lines
stand behind the line of the comment, so all payloads that end at a hit stay what they are, and the
last one is continued by the trimmed lines of the absorbed comments.

Main results:

- Theorem `Text.decode_joinLines`: lines of bytes become lines of a text.
- Theorem `payloadBytes_append`: a payload that ends at a hit does not reach other comments.
- Theorems `payloadBytes_last`, `payloadBytes_here` and `payloadBytes_further`: the parts of a
  payload up to the last line, and up to a hit on the same or on a later line.
- Theorem `decode_payloadBytes_linesWith`: the last payload goes on in other comments.
-/

namespace CommentMarkers

/-! ## Texts of lines -/

namespace Text

/-- Drops the blanks of ASCII at both ends of a text. -/
def trim (text : String) : String :=
  String.ofList (trimChars text.toList)

/-- Trimming commutes with decoding. -/
theorem decode_trim (bytes : Bytes) : decode (Bytes.trim bytes) = trim (decode bytes) := by
  rw [decode, decodeChars_trim, trim, decode, String.toList_ofList]

/-- Lines of bytes are decoded one by one. -/
theorem decodeChars_joinLines (lines : List Bytes) :
    decodeChars (Bytes.joinLines lines) = ['\n'].intercalate (lines.map decodeChars) := by
  induction lines with
  | nil => simp [Bytes.joinLines]
  | cons line rest ih =>
      cases rest with
      | nil => simp [Bytes.joinLines]
      | cons next more =>
          have hnewline : Bytes.newline.toNat < 128 := by decide
          have hjoin : Bytes.joinLines (line :: next :: more) =
              line ++ Bytes.newline :: Bytes.joinLines (next :: more) := rfl
          rw [hjoin, decodeChars_ascii hnewline, ih, List.map_cons, List.map_cons, List.map_cons,
            List.intercalate_cons_cons, List.append_assoc]
          rfl

/-- Lines of bytes become lines of a text. -/
theorem decode_joinLines (lines : List Bytes) :
    decode (Bytes.joinLines lines) = "\n".intercalate (lines.map decode) := by
  rw [← String.toList_inj, String.toList_intercalate, decode, String.toList_ofList,
    decodeChars_joinLines, List.map_map]
  congr 1
  apply List.map_congr_left
  intro line _
  exact String.toList_ofList.symm

end Text

/-- Nothing is left to trim of a trimmed text. -/
theorem trim_trim (text : Bytes) : Bytes.trim (Bytes.trim text) = Bytes.trim text := by
  have hkept : Bytes.trim text <+: text.dropWhile Bytes.isBlank := List.rdropWhile_prefix _ _
  have hfront : (Bytes.trim text).dropWhile Bytes.isBlank = Bytes.trim text := by
    apply List.dropWhile_eq_self_iff.2
    intro hpos
    rw [hkept.getElem hpos]
    exact List.dropWhile_get_zero_not _ _ (Nat.lt_of_lt_of_le hpos hkept.length_le)
  rw [Bytes.trim, hfront]
  exact List.rdropWhile_idempotent _ _

/-! ## Payloads of lines -/

/-- A payload that ends at a hit does not reach the lines behind the one of that hit. -/
theorem payloadBytes_append (hit : Hit) {next : Hit} {own : List CommentLine}
    (hnext : next.line < own.length) (more : List CommentLine) :
    payloadBytes (own ++ more) hit (some next) = payloadBytes own hit (some next) := by
  have hreached : ((own ++ more).drop hit.line).take (next.line + 1 - hit.line) =
      (own.drop hit.line).take (next.line + 1 - hit.line) := by
    rw [← List.drop_take, ← List.drop_take, List.take_append_of_le_length (by omega)]
  rw [payloadBytes, payloadBytes]
  simp only [hreached]

/-- A line without hits gives all of its text to a payload. -/
theorem payloadPart_whole {hit : Hit} {next : Option Hit} {number : Nat}
    (hne : number ≠ hit.line) (hnext : ∀ follower ∈ next, number ≠ follower.line)
    (line : CommentLine) : payloadPart hit next line number = Bytes.trim line.text := by
  cases next with
  | none =>
      rw [payloadPart, if_neg hne, Bytes.slice, List.drop_zero, Nat.sub_zero, List.take_length]
  | some follower =>
      simp only [payloadPart, if_neg hne, if_neg (hnext follower rfl), Bytes.slice, List.drop_zero,
        Nat.sub_zero, List.take_length]

/-- The lines between two hits, or behind the last one, give all of their texts to a payload. -/
theorem map_payloadPart_between {hit : Hit} {next : Option Hit} {first : Nat}
    {lines : List CommentLine} (hstart : hit.line < first)
    (hend : ∀ follower ∈ next, first + lines.length ≤ follower.line) :
    (lines.zipIdx first).map (fun numbered => payloadPart hit next numbered.1 numbered.2) =
      lines.map fun line => Bytes.trim line.text := by
  have hparts : ∀ numbered ∈ lines.zipIdx first,
      payloadPart hit next numbered.1 numbered.2 = Bytes.trim numbered.1.text := by
    intro numbered hmem
    obtain ⟨hbehind, hbefore, -⟩ := List.mem_zipIdx hmem
    refine payloadPart_whole (by omega) (fun follower hfollower => ?_) numbered.1
    have hfollower := hend follower hfollower
    omega
  calc
    _ = (lines.zipIdx first).map fun numbered => Bytes.trim numbered.1.text :=
      List.map_congr_left hparts
    _ = ((lines.zipIdx first).map Prod.fst).map fun line => Bytes.trim line.text := by
      rw [List.map_map]
      rfl
    _ = _ := by rw [List.zipIdx_map_fst]

section Lines

variable {before after middle : List CommentLine} {hit next : Hit}

/-- The last payload is the rest of the line of its hit and all lines behind it. -/
theorem payloadBytes_last (hline : hit.line = before.length) (line : CommentLine)
    (after : List CommentLine) :
    payloadBytes (before ++ line :: after) hit none = Bytes.trim (Bytes.joinLines
      (Bytes.trim (line.text.drop hit.stop) :: after.map fun other => Bytes.trim other.text)) := by
  have hmore : (after.zipIdx (before.length + 1)).map
      (fun numbered => payloadPart hit none numbered.1 numbered.2) =
        after.map fun other => Bytes.trim other.text :=
    map_payloadPart_between (by omega) nofun
  have hcount : (before ++ line :: after).length - 1 + 1 - before.length =
      (line :: after).length := by
    simp only [List.length_append, List.length_cons]
    omega
  have hpart : payloadPart hit none line before.length = Bytes.trim (line.text.drop hit.stop) := by
    simp only [payloadPart, hline, if_true, Bytes.slice]
    rw [List.take_of_length_le (by rw [List.length_drop])]
  rw [payloadBytes, hline]
  simp only
  rw [List.drop_left, hcount, List.take_length, List.zipIdx_cons, List.map_cons, hmore, hpart]

/-- A payload up to a hit on the same line is the text between the two. -/
theorem payloadBytes_here (hline : hit.line = before.length) (hnext : next.line = before.length)
    (line : CommentLine) (after : List CommentLine) :
    payloadBytes (before ++ line :: after) hit (some next) = Bytes.trim (Bytes.joinLines
      [Bytes.trim (Bytes.slice line.text hit.stop next.start)]) := by
  have hpart : payloadPart hit (some next) line before.length =
      Bytes.trim (Bytes.slice line.text hit.stop next.start) := by
    simp only [payloadPart, hline, hnext, if_true]
  rw [payloadBytes, hline]
  simp only [hnext]
  rw [List.drop_left, Nat.add_sub_cancel_left, List.take_succ_cons, List.take_zero,
    List.zipIdx_cons, List.zipIdx_nil, List.map_cons, List.map_nil, hpart]

/-- A payload up to a hit on a later line is the rest of its line, the lines between, and the front
of the other line. -/
theorem payloadBytes_further (hline : hit.line = before.length)
    (hnext : next.line = before.length + 1 + middle.length) (line other : CommentLine)
    (after : List CommentLine) :
    payloadBytes (before ++ line :: (middle ++ other :: after)) hit (some next) =
      Bytes.trim (Bytes.joinLines (Bytes.trim (line.text.drop hit.stop) ::
        (middle.map (fun between => Bytes.trim between.text) ++
          [Bytes.trim (other.text.take next.start)]))) := by
  have hmiddle : (middle.zipIdx (before.length + 1)).map
      (fun numbered => payloadPart hit (some next) numbered.1 numbered.2) =
        middle.map fun between => Bytes.trim between.text := by
    refine map_payloadPart_between (by omega) ?_
    rintro follower ⟨⟩
    omega
  have hcount : next.line + 1 - before.length = (line :: (middle ++ [other])).length := by
    simp only [List.length_append, List.length_cons, List.length_nil]
    omega
  have hreached : line :: (middle ++ other :: after) = line :: (middle ++ [other]) ++ after := by
    simp
  have hfirst : payloadPart hit (some next) line before.length =
      Bytes.trim (line.text.drop hit.stop) := by
    simp only [payloadPart, hline, if_true, Bytes.slice,
      if_neg (show before.length ≠ next.line by omega)]
    rw [List.take_of_length_le (by rw [List.length_drop])]
  have hlast : payloadPart hit (some next) other (before.length + 1 + middle.length) =
      Bytes.trim (other.text.take next.start) := by
    simp only [payloadPart, hnext, if_true, Bytes.slice, hline,
      if_neg (show before.length + 1 + middle.length ≠ before.length by omega)]
    rw [List.drop_zero, Nat.sub_zero]
  rw [payloadBytes, hline]
  simp only
  rw [List.drop_left, hcount, hreached, List.take_left, List.zipIdx_cons, List.zipIdx_append,
    List.zipIdx_cons, List.zipIdx_nil, List.map_cons, List.map_append, List.map_cons,
    List.map_nil, hmiddle, hfirst, hlast]

end Lines

/-! ## Payloads of comments -/

/-- The texts of the lines of a comment, trimmed. -/
def Span.strippedTexts (span : Span) (source : Bytes) : List String :=
  (span.commentLines source).map fun line => Text.decode (Bytes.trim line.text)

/-- A payload with more lines behind it, trimmed. -/
def continuedPayload (payload : String) (more : List String) : String :=
  Text.trim ("\n".intercalate (payload :: more))

/-- Continuing a payload commutes with decoding. -/
theorem continuedPayload_decode (payload : Bytes) (more : List Bytes) :
    continuedPayload (Text.decode payload) (more.map Text.decode) =
      Text.decode (Bytes.trim (Bytes.joinLines (payload :: more))) := by
  rw [Text.decode_trim, Text.decode_joinLines, List.map_cons, continuedPayload]

/-- The last payload of a comment goes on in the comments that go on with its text. -/
theorem decode_payloadBytes_linesWith {span : Span} {source : Bytes} {continuing : List Span}
    {hit : Hit} (hhit : hit.line < (span.commentLines source).length)
    (hline : continuing ≠ [] → span.kind = .lineComment) :
    Text.decode (payloadBytes (span.linesWith source continuing) hit none) =
      continuedPayload (Text.decode (payloadBytes (span.linesWith source []) hit none))
        (continuing.flatMap (·.strippedTexts source)) := by
  by_cases hnone : continuing = []
  · rw [hnone, List.flatMap_nil, ← List.map_nil (f := Text.decode), continuedPayload_decode,
      Bytes.joinLines, payloadBytes, trim_trim]
  · have hlines : span.commentLines source = [span.lineCommentLine source] := if_pos (hline hnone)
    rw [hlines] at hhit
    have hfirst : hit.line = 0 := Nat.lt_one_iff.1 hhit
    have hown : ∀ continuing, span.linesWith source continuing =
        span.lineCommentLine source :: continuing.flatMap (·.commentLines source) := by
      intro continuing
      rw [Span.linesWith, hlines]
      rfl
    have hzero : hit.line = ([] : List CommentLine).length := hfirst
    have hlast : ∀ more, payloadBytes (span.lineCommentLine source :: more) hit none = _ :=
      payloadBytes_last hzero (span.lineCommentLine source)
    have hmore : continuing.flatMap (·.strippedTexts source) =
        ((continuing.flatMap (·.commentLines source)).map fun line => Bytes.trim line.text).map
          Text.decode := by
      rw [List.map_map, List.map_flatMap]
      rfl
    rw [hown, hown, hlast, hlast, List.flatMap_nil, List.map_nil, Bytes.joinLines, trim_trim, hmore,
      continuedPayload_decode]

end CommentMarkers
