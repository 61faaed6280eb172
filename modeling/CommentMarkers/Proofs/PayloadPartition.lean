import CommentMarkers.Proofs.ContinuedPayloads
import CommentMarkers.Proofs.TextIntegrity

/-!
# How payloads share a comment

The payload of a marker runs up to the next marker, and the last one to the end of the comment.
But for blanks, which are trimmed and joined anew, the payloads of all markers have the whole text
behind the first one, with the other markers and their references between them.  Markers stand
between blanks, so no character is cut when the text is shared and decoded part by part.

Main results:

- Theorem `Text.solidChars_decode_append`: bytes with a blank between them are decoded alone.
- Theorem `solidChars_payloadBytes_next`: a payload to the end is the payload up to the next marker,
  this marker with its reference, and the payload of this marker to the end.
- Theorem `solidChars_textBehind`: a payload to the end is all of the text behind its marker.
-/

namespace CommentMarkers

/-! ## Texts without blanks -/

namespace Text

/-- The characters of a text but for the blanks of ASCII. -/
def solidChars (text : String) : List Char :=
  text.toList.filter fun char => !isAsciiBlank char

/-- A text of two parts has the characters of both. -/
theorem solidChars_append (first second : String) :
    solidChars (first ++ second) = solidChars first ++ solidChars second := by
  rw [solidChars, String.toList_append, List.filter_append, solidChars, solidChars]

/-- The characters of bytes but for the blanks. -/
theorem solidChars_decode (bytes : Bytes) :
    solidChars (decode bytes) = (decodeChars bytes).filter fun char => !isAsciiBlank char := by
  rw [solidChars, decode, String.toList_ofList]

/-- No bytes have no characters. -/
@[simp]
theorem solidChars_decode_nil : solidChars (decode []) = [] := by
  rw [solidChars_decode, decodeChars_nil, List.filter_nil]

/-- A blank separates the bytes in front of it from those behind it. -/
theorem solidChars_decode_blank {blank : UInt8} (hblank : Bytes.isBlank blank = true)
    (front back : Bytes) :
    solidChars (decode (front ++ blank :: back)) =
      solidChars (decode front) ++ solidChars (decode back) := by
  rw [solidChars_decode, decodeChars_ascii (toNat_lt_of_isBlank hblank), List.filter_append,
    List.filter_cons_of_neg (by simp [isAsciiBlank_ofNat hblank]), solidChars_decode,
    solidChars_decode]

/-- Bytes that end with a blank are decoded apart from what is behind them. -/
theorem solidChars_decode_append {front : Bytes} (hfront : isBoundary front.getLast? = true)
    (back : Bytes) :
    solidChars (decode (front ++ back)) =
      solidChars (decode front) ++ solidChars (decode back) := by
  rcases List.eq_nil_or_concat front with rfl | ⟨rest, blank, rfl⟩
  · rw [List.nil_append, solidChars_decode_nil, List.nil_append]
  · rw [List.concat_eq_append, List.getLast?_concat, isBoundary, Option.all_some] at hfront
    rw [List.concat_eq_append, solidChars_decode_blank hfront, solidChars_decode_nil,
      List.append_nil, List.append_assoc, List.singleton_append, solidChars_decode_blank hfront]

/-- Whole characters are decoded apart from what is behind them. -/
theorem IsValid.solidChars_append {front : Bytes} (hvalid : IsValid front) (back : Bytes) :
    solidChars (Text.decode (front ++ back)) =
      solidChars (Text.decode front) ++ solidChars (Text.decode back) := by
  obtain ⟨chars, rfl⟩ := hvalid.exists_chars
  rw [solidChars_decode, solidChars_decode, solidChars_decode, decodeChars_flatMap_append,
    decodeChars_flatMap, List.filter_append]

/-- Dropping blanks at the front leaves the other characters. -/
theorem filter_dropWhile_isAsciiBlank (chars : List Char) :
    (chars.dropWhile isAsciiBlank).filter (fun char => !isAsciiBlank char) =
      chars.filter fun char => !isAsciiBlank char := by
  have hblanks : (chars.takeWhile isAsciiBlank).filter (fun char => !isAsciiBlank char) = [] := by
    rw [List.filter_eq_nil_iff]
    intro char hchar
    simp [List.mem_takeWhile_imp hchar]
  conv_rhs => rw [← List.takeWhile_append_dropWhile (p := isAsciiBlank) (l := chars)]
  rw [List.filter_append, hblanks, List.nil_append]

/-- Trimming takes blanks only. -/
theorem solidChars_decode_trim (bytes : Bytes) :
    solidChars (decode (Bytes.trim bytes)) = solidChars (decode bytes) := by
  rw [solidChars_decode, solidChars_decode, decodeChars_trim, trimChars, List.filter_reverse,
    filter_dropWhile_isAsciiBlank, List.filter_reverse, List.reverse_reverse,
    filter_dropWhile_isAsciiBlank]

/-- Joining lines adds blanks only. -/
theorem solidChars_decode_joinLines (lines : List Bytes) :
    solidChars (decode (Bytes.joinLines lines)) = lines.flatMap fun line =>
      solidChars (decode line) := by
  induction lines with
  | nil => exact solidChars_decode_nil
  | cons line rest ih =>
      cases rest with
      | nil => rw [Bytes.joinLines, List.flatMap_singleton]
      | cons next more =>
          have hjoin : Bytes.joinLines (line :: next :: more) =
              line ++ Bytes.newline :: Bytes.joinLines (next :: more) := rfl
          rw [hjoin, solidChars_decode_blank (by decide), ih]
          rfl

end Text

/-! ## The text around a hit -/

/-- The text from some place up to the end of a line is the text up to a hit, the marker, the
reference and the text behind the hit. -/
theorem IsHit.solidChars_drop {marker : Marker} {text : Bytes} {hit : LineHit} {start : Nat}
    (hhit : IsHit marker.bytes none 0 text hit) (hstart : start ≤ hit.start) :
    Text.solidChars (Text.decode (text.drop start)) =
      Text.solidChars (Text.decode (Bytes.slice text start hit.start)) ++
        (Text.solidChars marker.text ++
          (Text.solidChars (Text.decode
            (Bytes.slice text (hit.start + marker.bytes.length) hit.stop)) ++
              Text.solidChars (Text.decode (text.drop hit.stop)))) := by
  obtain ⟨before, reference, behind, rfl, hreference, hbefore, hbehind, hbegin, hstop⟩ := hhit
  rw [Nat.zero_add] at hbegin
  rw [Option.or_none] at hbefore
  have hfront : isBoundary (before.drop start).getLast? = true := by
    rw [List.getLast?_drop]
    split
    · rfl
    · exact hbefore
  have hdrop : (before ++ (marker.bytes ++ (reference ++ behind))).drop start =
      before.drop start ++ (marker.bytes ++ (reference ++ behind)) :=
    List.drop_append_of_le_length (by omega)
  have hslice : Bytes.slice (before ++ (marker.bytes ++ (reference ++ behind))) start hit.start =
      before.drop start := by
    rw [hbegin, slice_in_front (Nat.le_refl _), Bytes.slice, ← List.length_drop, List.take_length]
  have hreferenceText : Bytes.slice (before ++ (marker.bytes ++ (reference ++ behind)))
      (hit.start + marker.bytes.length) hit.stop = reference := by
    have hmiddle := slice_middle (before ++ marker.bytes) reference behind
    rwa [List.append_assoc, List.length_append, ← hbegin, Nat.add_assoc, ← hstop] at hmiddle
  have hrest : (before ++ (marker.bytes ++ (reference ++ behind))).drop hit.stop = behind := by
    rw [← List.append_assoc marker.bytes, ← List.append_assoc before]
    exact List.drop_left' (by simp only [List.length_append]; omega)
  have hvalid : Text.IsValid marker.bytes := Text.isValid_encode marker.text
  rw [hdrop, hslice, hreferenceText, hrest, Text.solidChars_decode_append hfront,
    hvalid.solidChars_append, hreference.isValid.solidChars_append, Marker.bytes,
    Text.decode_encode]

/-! ## The payload up to the next hit -/

/-- An item of a list stands between those in front of it and those behind it. -/
theorem exists_eq_append_of_getElem? {α : Type} {items : List α} {number : Nat} {item : α}
    (hitem : items[number]? = some item) :
    ∃ before after, items = before ++ item :: after ∧ number = before.length := by
  obtain ⟨hnumber, rfl⟩ := List.getElem?_eq_some_iff.1 hitem
  refine ⟨items.take number, items.drop (number + 1), ?_, ?_⟩
  · rw [← List.drop_eq_getElem_cons hnumber, List.take_append_drop]
  · rw [List.length_take, Nat.min_eq_left (Nat.le_of_lt hnumber)]

section Lines

variable {before after middle : List CommentLine} {hit next : Hit}

/-- The characters of a payload to the end. -/
theorem solidChars_payloadBytes_last (hline : hit.line = before.length) (line : CommentLine)
    (after : List CommentLine) :
    Text.solidChars (Text.decode (payloadBytes (before ++ line :: after) hit none)) =
      Text.solidChars (Text.decode (line.text.drop hit.stop)) ++
        after.flatMap fun other => Text.solidChars (Text.decode other.text) := by
  rw [payloadBytes_last hline, Text.solidChars_decode_trim, Text.solidChars_decode_joinLines,
    List.flatMap_cons, Text.solidChars_decode_trim, List.flatMap_map]
  simp only [Text.solidChars_decode_trim]

/-- The characters of a payload up to a hit on the same line. -/
theorem solidChars_payloadBytes_here (hline : hit.line = before.length)
    (hnext : next.line = before.length) (line : CommentLine) (after : List CommentLine) :
    Text.solidChars (Text.decode (payloadBytes (before ++ line :: after) hit (some next))) =
      Text.solidChars (Text.decode (Bytes.slice line.text hit.stop next.start)) := by
  rw [payloadBytes_here hline hnext, Text.solidChars_decode_trim, Text.solidChars_decode_joinLines,
    List.flatMap_singleton, Text.solidChars_decode_trim]

/-- The characters of a payload up to a hit on a later line. -/
theorem solidChars_payloadBytes_further (hline : hit.line = before.length)
    (hnext : next.line = before.length + 1 + middle.length) (line other : CommentLine)
    (after : List CommentLine) :
    Text.solidChars (Text.decode
        (payloadBytes (before ++ line :: (middle ++ other :: after)) hit (some next))) =
      Text.solidChars (Text.decode (line.text.drop hit.stop)) ++
        (middle.flatMap (fun between => Text.solidChars (Text.decode between.text)) ++
          Text.solidChars (Text.decode (Bytes.slice other.text 0 next.start))) := by
  rw [payloadBytes_further hline hnext, Text.solidChars_decode_trim,
    Text.solidChars_decode_joinLines, List.flatMap_cons, List.flatMap_append,
    List.flatMap_singleton, List.flatMap_map]
  simp only [Text.solidChars_decode_trim]
  rfl

end Lines

/-- A payload to the end is the payload up to the next hit, the marker of this hit with its
reference, and the payload of this hit to the end. -/
theorem solidChars_payloadBytes_next {marker : Marker} {lines : List CommentLine} {hit next : Hit}
    {line other : CommentLine} (hline : lines[hit.line]? = some line)
    (hother : lines[next.line]? = some other)
    (hnext : IsHit marker.bytes none 0 other.text next.toLineHit)
    (hbehind : hit.line < next.line ∨ hit.line = next.line ∧ hit.stop ≤ next.start) :
    Text.solidChars (Text.decode (payloadBytes lines hit none)) =
      Text.solidChars (Text.decode (payloadBytes lines hit (some next))) ++
        (Text.solidChars marker.text ++
          (Text.solidChars (Text.decode
            (Bytes.slice other.text (next.start + marker.bytes.length) next.stop)) ++
              Text.solidChars (Text.decode (payloadBytes lines next none)))) := by
  obtain ⟨before, after, rfl, hbefore⟩ := exists_eq_append_of_getElem? hline
  rcases hbehind with hlater | ⟨hsame, hstart⟩
  · have hrest : after[next.line - (before.length + 1)]? = some other := by
      rwa [List.getElem?_append_right (by omega), show next.line - before.length =
        next.line - (before.length + 1) + 1 by omega, List.getElem?_cons_succ] at hother
    obtain ⟨middle, after, rfl, hnumber⟩ := exists_eq_append_of_getElem? hrest
    have hmiddle : next.line = before.length + 1 + middle.length := by
      omega
    have hsplit : before ++ line :: (middle ++ other :: after) =
        before ++ line :: middle ++ other :: after := by
      simp
    have hnextLine : next.line = (before ++ line :: middle).length := by
      simp only [List.length_append, List.length_cons]
      omega
    rw [solidChars_payloadBytes_last hbefore, solidChars_payloadBytes_further hbefore hmiddle,
      hsplit, solidChars_payloadBytes_last hnextLine, List.flatMap_append, List.flatMap_cons]
    have hdrop := hnext.solidChars_drop (Nat.zero_le _)
    rw [List.drop_zero] at hdrop
    rw [hdrop]
    simp only [List.append_assoc]
  · have hnextLine : next.line = before.length := hsame.symm.trans hbefore
    rw [← hsame, hline] at hother
    obtain rfl := Option.some.inj hother
    rw [solidChars_payloadBytes_last hbefore, solidChars_payloadBytes_here hbefore hnextLine,
      solidChars_payloadBytes_last hnextLine, hnext.solidChars_drop hstart]
    simp only [List.append_assoc]

/-! ## The text behind an offset -/

/-- The text of lines behind an offset of the source. -/
def textBehind (lines : List CommentLine) (offset : Nat) : Bytes :=
  Bytes.joinLines (lines.map fun line => line.text.drop (offset - line.offset))

/-- The payload of a hit to the end is all of the text behind it. -/
theorem solidChars_textBehind {before after : List CommentLine} {line : CommentLine} {hit : Hit}
    (hline : hit.line = before.length) (hstop : hit.stop ≤ line.text.length)
    (hbefore : ∀ other ∈ before, other.offset + other.text.length ≤ line.offset)
    (hafter : ∀ other ∈ after, line.offset + line.text.length ≤ other.offset) :
    Text.solidChars (Text.decode (textBehind (before ++ line :: after) (line.offset + hit.stop))) =
      Text.solidChars (Text.decode (payloadBytes (before ++ line :: after) hit none)) := by
  have hgone : (before.map fun other =>
      other.text.drop (line.offset + hit.stop - other.offset)).flatMap
        (fun text => Text.solidChars (Text.decode text)) = [] := by
    rw [List.flatMap_eq_nil_iff]
    intro text htext
    obtain ⟨other, hother, rfl⟩ := List.mem_map.1 htext
    have hends := hbefore other hother
    rw [List.drop_eq_nil_of_le (by omega), Text.solidChars_decode_nil]
  have hwhole : (after.map fun other =>
      other.text.drop (line.offset + hit.stop - other.offset)) = after.map (·.text) := by
    apply List.map_congr_left
    intro other hother
    have hbegins := hafter other hother
    rw [Nat.sub_eq_zero_of_le (by omega), List.drop_zero]
  rw [solidChars_payloadBytes_last hline, textBehind, Text.solidChars_decode_joinLines,
    List.map_append, List.map_cons, List.flatMap_append, List.flatMap_cons, hgone, hwhole,
    Nat.add_sub_cancel_left, List.nil_append, List.flatMap_map]

end CommentMarkers
