import CommentMarkers.Span

/-!
# Pieces of byte strings

A source is often seen as a front, a part of interest and a back.  The lemmas of this file say what
taking, dropping and slicing find in a source that is written that way.

Main results:

- Theorem `append_eq_append_cons`: a list that is cut at two places.
- Theorem `slice_middle`: the slice over the part of interest is that part.
- Theorem `Span.body_eq_slice`: the body of a span lies between its delimiters.
-/

namespace CommentMarkers

/-! ## Encoded texts -/

/-- Only the empty text is encoded by no byte. -/
theorem Text.encode_ne_nil {text : String} (htext : text ≠ "") : encode text ≠ [] := by
  intro hnil
  apply htext
  rw [← String.toList_eq_nil_iff]
  unfold encode at hnil
  rw [List.flatMap_eq_nil_iff] at hnil
  apply List.eq_nil_iff_forall_not_mem.2
  intro char hchar
  exact absurd (hnil char hchar) String.utf8EncodeChar_ne_nil

/-! ## Taking and dropping -/

/-- Dropping a nonempty token, or one byte for an empty token, from a nonempty text. -/
theorem drop_max_one (byte : UInt8) (rest : Bytes) (count : Nat) :
    (byte :: rest).drop (max 1 count) = rest.drop (count - 1) := by
  cases count with
  | zero => rfl
  | succ count =>
      rw [Nat.max_eq_right (Nat.succ_le_succ (Nat.zero_le count))]
      rfl

/-- What is taken with the length of a prefix ends with that prefix. -/
theorem ends_of_isPrefixOf {token bytes : Bytes} (htoken : token.isPrefixOf bytes = true) :
    token <:+ bytes.take token.length := by
  have htake := List.prefix_iff_eq_take.1 (List.isPrefixOf_iff_prefix.1 htoken)
  exact ⟨[], htake⟩

/-- If a part behind a few bytes ends with a token, so does the whole. -/
theorem ends_of_drop_ends (bytes : Bytes) (front : Nat) {token : Bytes} {length : Nat}
    (hends : token <:+ (bytes.drop front).take length) :
    token <:+ bytes.take (length + front) := by
  rw [Nat.add_comm, List.take_add]
  exact hends.trans (List.suffix_append _ _)

/-- A text goes on with the byte behind its longest beginning of some kind. -/
theorem eq_takeWhile_append_cons {p : UInt8 → Bool} {text : Bytes} {byte : UInt8}
    (hbyte : text[(text.takeWhile p).length]? = some byte) :
    ∃ more, text = text.takeWhile p ++ byte :: more := by
  have hsplit := List.takeWhile_append_dropWhile (p := p) (l := text)
  have hindex : (text.takeWhile p ++ text.dropWhile p)[(text.takeWhile p).length]? =
      (text.dropWhile p).head? := by
    rw [List.getElem?_append_right (Nat.le_refl _), Nat.sub_self, List.head?_eq_getElem?]
  rw [hsplit, hbyte] at hindex
  rcases List.head?_eq_some_iff.1 hindex.symm with ⟨more, hmore⟩
  refine ⟨more, ?_⟩
  rw [← hmore, hsplit]

/-- An item of two lists that follow each other is one of the first or of the second list. -/
theorem append_eq_append_cons {α : Type} {first second front back : List α} {item : α}
    (hsame : first ++ second = front ++ item :: back) :
    (∃ inner, first = front ++ item :: inner ∧ back = inner ++ second) ∨
      ∃ inner, front = first ++ inner ∧ second = inner ++ item :: back := by
  rcases List.append_eq_append_iff.1 hsame with ⟨inner, hfront, hsecond⟩ | ⟨inner, hfirst, hback⟩
  · exact Or.inr ⟨inner, hfront, hsecond⟩
  · cases inner with
    | nil =>
        rw [List.append_nil] at hfirst
        exact Or.inr ⟨[], by rw [hfirst, List.append_nil], hback.symm⟩
    | cons own inner =>
        rcases List.cons.inj hback with ⟨rfl, hrest⟩
        exact Or.inl ⟨inner, hfirst, hrest⟩

/-- A part that leaves out as much as a front and a back on both sides lies between these. -/
theorem append_eq_append_inside {α : Type} {pre body post front part back : List α}
    (hsame : pre ++ (body ++ post) = front ++ (part ++ back))
    (hpre : pre.length ≤ front.length) (hpost : post.length ≤ back.length) :
    ∃ inner outer, front = pre ++ inner ∧ back = outer ++ post ∧
      body = inner ++ (part ++ outer) := by
  obtain ⟨inner, rfl⟩ : pre <+: front :=
    List.prefix_of_prefix_length_le ⟨_, rfl⟩ ⟨_, hsame.symm⟩ hpre
  rw [List.append_assoc, List.append_cancel_left_eq] at hsame
  have hback : back <:+ body ++ post :=
    ⟨inner ++ part, by rw [List.append_assoc]; exact hsame.symm⟩
  obtain ⟨outer, rfl⟩ : post <:+ back :=
    List.suffix_of_suffix_length_le (List.suffix_append _ _) hback hpost
  refine ⟨inner, outer, rfl, rfl, ?_⟩
  rw [← List.append_assoc, ← List.append_assoc, List.append_cancel_right_eq,
    List.append_assoc] at hsame
  exact hsame

/-! ## First lines -/

/-- The first line of a text, without its newline. -/
def firstLine (text : Bytes) : Bytes :=
  text.takeWhile (· != Bytes.newline)

/-- The first line of a text with a newline is shorter than the text. -/
theorem length_firstLine_lt {front : Bytes} (hline : Bytes.newline ∈ front) :
    (firstLine front).length < front.length := by
  have hprefix : firstLine front <+: front := List.takeWhile_prefix _
  refine Nat.lt_of_le_of_ne hprefix.length_le fun hlength => ?_
  rw [← hprefix.eq_of_length hlength] at hline
  have hne := List.all_eq_true.1 List.all_takeWhile _ hline
  simp at hne

/-- What follows a newline is not on the first line. -/
theorem firstLine_append_of_mem {front : Bytes} (hline : Bytes.newline ∈ front) (back : Bytes) :
    firstLine (front ++ back) = firstLine front := by
  have hshort := length_firstLine_lt hline
  unfold firstLine at hshort ⊢
  rw [List.takeWhile_append, if_neg (Nat.ne_of_lt hshort)]

/-- A text without a newline is the start of the first line. -/
theorem firstLine_append_of_not_mem {front : Bytes} (hline : Bytes.newline ∉ front)
    (back : Bytes) :
    firstLine (front ++ back) = front ++ firstLine back := by
  apply List.takeWhile_append_of_pos
  intro byte hbyte
  simp only [bne_iff_ne, ne_eq]
  rintro rfl
  exact hline hbyte

/-! ## Slices -/

/-- The slice over the part between a front and a back is that part. -/
theorem slice_middle (front text back : Bytes) :
    Bytes.slice (front ++ (text ++ back)) front.length (front.length + text.length) = text := by
  rw [Bytes.slice, List.drop_left, Nat.add_sub_cancel_left, List.take_left]

/-- A source is what stands in front of a slice, the slice, and what stands behind it. -/
theorem eq_take_slice_drop (source : Bytes) {start stop : Nat} (hle : start ≤ stop) :
    source = source.take start ++ (Bytes.slice source start stop ++ source.drop stop) := by
  have hback : source.drop stop = (source.drop start).drop (stop - start) := by
    rw [List.drop_drop, Nat.add_sub_cancel' hle]
  rw [hback, Bytes.slice, List.take_append_drop, List.take_append_drop]

/-- A slice that ends inside the source is as long as its range. -/
theorem length_slice {source : Bytes} {start stop : Nat} (hinside : stop ≤ source.length) :
    (Bytes.slice source start stop).length = stop - start := by
  rw [Bytes.slice, List.length_take, List.length_drop]
  omega

/-- A slice inside the part between a front and a back is a slice of that part. -/
theorem slice_inside (front text back : Bytes) {start stop : Nat} (hstop : stop ≤ text.length) :
    Bytes.slice (front ++ (text ++ back)) (front.length + start) (front.length + stop) =
      Bytes.slice text start stop := by
  have hcount : front.length + stop - (front.length + start) = stop - start := by
    omega
  rw [Bytes.slice, Bytes.slice, ← List.drop_drop, List.drop_left, hcount, List.drop_append,
    List.take_append, List.length_drop]
  by_cases hempty : stop ≤ start
  · simp [Nat.sub_eq_zero_of_le hempty]
  · have hnone : stop - start - (text.length - start) = 0 := by
      omega
    rw [hnone, List.take_zero, List.append_nil]

/-- The offset just in front of the closing delimiter. -/
def Span.bodyStop (span : Span) : Nat :=
  span.stop - (Text.encode span.closer).length

/-- The body of a span whose delimiters do not overlap lies between them. -/
theorem Span.body_eq_slice {span : Span} (source : Bytes)
    (hfits : (Text.encode span.closer).length ≤ span.stop) :
    span.body source = Bytes.slice source span.bodyStart span.bodyStop := by
  have hnonneg : ¬ (span.stop : Int) - (Text.encode span.closer).length < 0 := by
    omega
  rw [Span.body, Bytes.resolveIndex, if_neg hnonneg]
  unfold bodyStop
  congr 1
  omega

end CommentMarkers
