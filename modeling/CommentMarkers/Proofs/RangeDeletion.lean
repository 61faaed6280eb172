import CommentMarkers.Edit.Purge
import CommentMarkers.Proofs.Slices

/-!
# Deleting ranges

Ranges are deleted from the last one to the first one, and each of them is cut short where the one
deleted before it starts.  So what decides about a byte is the last range that starts at it or in
front of it.  If a range has another one inside, the bytes behind the inner one stay.

Main results:

- Theorem `deleteRanges_eq`: a byte is deleted if the range that decides about it reaches it.
- Theorem `purge_eq_without_iff`: purging deletes all bytes of the selected ranges exactly if the
  deciding ranges reach all of them.
-/

namespace CommentMarkers

/-! ## Texts without some of their bytes -/

namespace Bytes

/-- The bytes of a text but those at the offsets that are gone. -/
def without (text : Bytes) (gone : Nat → Bool) : Bytes :=
  (text.zipIdx.filter fun (_, offset) => !gone offset).map (·.1)

variable {gone other : Nat → Bool}

/-- The empty text has nothing to lose. -/
@[simp]
theorem without_nil (gone : Nat → Bool) : without [] gone = [] :=
  rfl

/-- What is gone behind a first text has offsets that count from its start. -/
theorem without_append (front back : Bytes) (gone : Nat → Bool) :
    without (front ++ back) gone =
      without front gone ++ without back fun offset => gone (front.length + offset) := by
  unfold without
  rw [List.zipIdx_append, List.filter_append, List.map_append, Nat.zero_add,
    List.zipIdx_eq_map_add (l := back), List.filter_map, List.map_map]
  rfl

/-- The first byte stays or is gone, and the others have smaller offsets behind it. -/
theorem without_cons (byte : UInt8) (rest : Bytes) (gone : Nat → Bool) :
    without (byte :: rest) gone =
      (if gone 0 then [] else [byte]) ++ without rest fun offset => gone (offset + 1) := by
  have hsplit := without_append [byte] rest gone
  rw [List.singleton_append] at hsplit
  rw [hsplit]
  congr 1
  · cases hgone : gone 0 <;> simp [without, hgone]
  · simp only [List.length_singleton, Nat.add_comm]

/-- Only the offsets inside a text matter. -/
theorem without_congr {text : Bytes} (hsame : ∀ offset < text.length, gone offset = other offset) :
    without text gone = without text other := by
  induction text generalizing gone other with
  | nil => rfl
  | cons byte rest ih =>
      rw [without_cons, without_cons, hsame 0 (Nat.zero_lt_succ _), ih fun offset hoffset =>
        hsame (offset + 1) (Nat.succ_lt_succ hoffset)]

/-- A text that loses nothing stays as it is. -/
theorem without_eq_self {text : Bytes} (hnone : ∀ offset < text.length, gone offset = false) :
    without text gone = text := by
  induction text generalizing gone with
  | nil => rfl
  | cons byte rest ih =>
      rw [without_cons, hnone 0 (Nat.zero_lt_succ _), ih fun offset hoffset =>
        hnone (offset + 1) (Nat.succ_lt_succ hoffset)]
      rfl

/-- A text that loses everything is empty. -/
theorem without_eq_nil {text : Bytes} (hall : ∀ offset < text.length, gone offset = true) :
    without text gone = [] := by
  induction text generalizing gone with
  | nil => rfl
  | cons byte rest ih =>
      rw [without_cons, hall 0 (Nat.zero_lt_succ _), ih fun offset hoffset =>
        hall (offset + 1) (Nat.succ_lt_succ hoffset)]
      rfl

/-- A text that loses its front is the rest of it. -/
theorem without_lt (text : Bytes) (count : Nat) :
    without text (fun offset => offset < count) = text.drop count := by
  have hsplit := without_append (text.take count) (text.drop count) fun offset => offset < count
  rw [List.take_append_drop] at hsplit
  rw [hsplit, without_eq_nil, without_eq_self, List.nil_append]
  · intro offset hoffset
    rw [List.length_drop] at hoffset
    simp only [List.length_take, decide_eq_false_iff_not]
    omega
  · intro offset hoffset
    rw [List.length_take] at hoffset
    simp only [decide_eq_true_eq]
    omega

/-- A text has a front that stays, up to the first byte that is gone. -/
theorem exists_front_of_without (text : Bytes) (gone : Nat → Bool) :
    ∃ front back, text = front ++ back ∧ (∀ offset < front.length, gone offset = false) ∧
      (back ≠ [] → gone front.length = true) ∧
      without text gone = front ++ without back fun offset => gone (front.length + offset) := by
  induction text generalizing gone with
  | nil => exact ⟨[], [], rfl, fun offset hoffset => absurd hoffset (Nat.not_lt_zero _),
      fun hne => absurd rfl hne, rfl⟩
  | cons byte rest ih =>
      cases hgone : gone 0 with
      | true =>
          refine ⟨[], byte :: rest, rfl, fun offset hoffset => absurd hoffset (Nat.not_lt_zero _),
            fun _ => hgone, ?_⟩
          simp only [List.nil_append, List.length_nil, Nat.zero_add]
      | false =>
          rcases ih fun offset => gone (offset + 1) with ⟨front, back, rfl, hstays, hback, hwithout⟩
          refine ⟨byte :: front, back, rfl, ?_, hback, ?_⟩
          · intro offset hoffset
            cases offset with
            | zero => exact hgone
            | succ offset => exact hstays offset (Nat.lt_of_succ_lt_succ hoffset)
          · rw [without_cons, hgone, hwithout]
            simp only [List.length_cons, Nat.add_right_comm]
            rfl

/-- The number of bytes that stay. -/
theorem length_without_cons (byte : UInt8) (rest : Bytes) (gone : Nat → Bool) :
    (without (byte :: rest) gone).length =
      (if gone 0 then 0 else 1) + (without rest fun offset => gone (offset + 1)).length := by
  rw [without_cons, List.length_append]
  split <;> rfl

/-- A text that loses more is not longer. -/
theorem length_without_le (text : Bytes) (hmore : ∀ offset, gone offset → other offset) :
    (without text other).length ≤ (without text gone).length := by
  induction text generalizing gone other with
  | nil => exact Nat.le_refl _
  | cons byte rest ih =>
      have htail := ih fun offset => hmore (offset + 1)
      rw [length_without_cons, length_without_cons]
      by_cases hgone : gone 0 = true
      · rw [if_pos hgone, if_pos (hmore 0 hgone)]
        omega
      · rw [if_neg hgone]
        split <;> omega

/-- A text that loses more is shorter, unless what it loses is outside it. -/
theorem eq_of_without_eq {text : Bytes} (hmore : ∀ offset, gone offset → other offset)
    (hsame : without text gone = without text other) :
    ∀ offset < text.length, gone offset = other offset := by
  have hlength := congrArg List.length hsame
  clear hsame
  induction text generalizing gone other with
  | nil =>
      intro offset hoffset
      cases hoffset
  | cons byte rest ih =>
      have htail := length_without_le rest fun offset => hmore (offset + 1)
      rw [length_without_cons, length_without_cons] at hlength
      have hhead : gone 0 = other 0 := by
        by_cases hgone : gone 0 = true
        · rw [hgone, hmore 0 hgone]
        · by_cases hother : other 0 = true
          · rw [if_neg hgone, if_pos hother] at hlength
            omega
          · rw [Bool.not_eq_true] at hgone hother
            rw [hgone, hother]
      rw [hhead] at hlength
      intro offset hoffset
      cases offset with
      | zero => exact hhead
      | succ offset =>
          exact ih (fun offset => hmore (offset + 1)) (Nat.add_left_cancel hlength) offset
            (Nat.lt_of_succ_lt_succ hoffset)

end Bytes

/-! ## The range that decides -/

namespace ByteRange

/-- Holds of the offsets in a range. -/
def contains (range : ByteRange) (offset : Nat) : Bool :=
  range.start ≤ offset && offset < range.stop

/-- What the offsets of a range are. -/
theorem contains_iff {range : ByteRange} {offset : Nat} :
    range.contains offset = true ↔ range.start ≤ offset ∧ offset < range.stop := by
  rw [contains, Bool.and_eq_true, decide_eq_true_eq, decide_eq_true_eq]

/-- Holds of the offsets in one of the ranges. -/
def covers (ranges : List ByteRange) (offset : Nat) : Bool :=
  ranges.any (·.contains offset)

/-- Holds of the offsets that the first of the ranges that does not start behind them contains. -/
def reaches (ranges : List ByteRange) (offset : Nat) : Bool :=
  (ranges.find? (·.start ≤ offset)).any (offset < ·.stop)

/-- A range that starts behind an offset does not decide about it. -/
theorem reaches_cons_of_lt {range : ByteRange} {offset : Nat} (hbehind : offset < range.start)
    (rest : List ByteRange) : reaches (range :: rest) offset = reaches rest offset := by
  rw [reaches, List.find?_cons_of_neg (by simpa using hbehind)]
  rfl

/-- A first range that does not start behind an offset decides about it. -/
theorem reaches_cons_of_le {range : ByteRange} {offset : Nat} (hstarts : range.start ≤ offset)
    (rest : List ByteRange) : reaches (range :: rest) offset = decide (offset < range.stop) := by
  rw [reaches, List.find?_cons_of_pos (by simpa using hstarts)]
  rfl

/-- The order in which ranges are deleted has no gaps. -/
theorem notBefore_total (first second : ByteRange) :
    (first.notBefore second || second.notBefore first) = true := by
  simp only [notBefore, Bool.or_eq_true, decide_eq_true_eq, Bool.and_eq_true, beq_iff_eq]
  omega

/-- The order in which ranges are deleted is transitive. -/
theorem notBefore_trans (first second third : ByteRange) (hfirst : first.notBefore second = true)
    (hsecond : second.notBefore third = true) : first.notBefore third = true := by
  simp only [notBefore, Bool.or_eq_true, decide_eq_true_eq, Bool.and_eq_true, beq_iff_eq] at *
  omega

/-- Among ranges in the order of their deletion, the deciding one starts last, and the longest one
of those that start there. -/
theorem reaches_iff {ranges : List ByteRange}
    (hsorted : ranges.Pairwise fun first second => first.notBefore second = true) (offset : Nat) :
    reaches ranges offset = true ↔
      ∃ last ∈ ranges, last.contains offset = true ∧
        ∀ range ∈ ranges, range.start ≤ offset → range.start ≤ last.start := by
  induction ranges with
  | nil => simp [reaches]
  | cons range rest ih =>
      rcases List.pairwise_cons.1 hsorted with ⟨hfirst, hrest⟩
      have hstarts : ∀ other ∈ rest, other.start < range.start ∨
          other.start = range.start ∧ other.stop ≤ range.stop := by
        intro other hother
        have hnot := hfirst other hother
        simp only [notBefore, Bool.or_eq_true, decide_eq_true_eq, Bool.and_eq_true, beq_iff_eq]
          at hnot
        omega
      by_cases hbehind : offset < range.start
      · rw [reaches_cons_of_lt hbehind, ih hrest]
        constructor
        · rintro ⟨last, hlast, hcontains, hmost⟩
          refine ⟨last, List.mem_cons_of_mem _ hlast, hcontains, ?_⟩
          rw [List.forall_mem_cons]
          exact ⟨fun hstart => by omega, hmost⟩
        · rintro ⟨last, hlast, hcontains, hmost⟩
          rcases List.mem_cons.1 hlast with rfl | hlast
          · rw [contains_iff] at hcontains
            omega
          · exact ⟨last, hlast, hcontains, (List.forall_mem_cons.1 hmost).2⟩
      · rw [reaches_cons_of_le (Nat.not_lt.1 hbehind), decide_eq_true_eq]
        constructor
        · intro hreached
          refine ⟨range, List.mem_cons_self, contains_iff.2 ⟨Nat.not_lt.1 hbehind, hreached⟩, ?_⟩
          rw [List.forall_mem_cons]
          refine ⟨fun _ => Nat.le_refl _, fun other hother _ => ?_⟩
          rcases hstarts other hother with hless | ⟨hsame, -⟩
          · exact Nat.le_of_lt hless
          · exact Nat.le_of_eq hsame
        · rintro ⟨last, hlast, hcontains, hmost⟩
          have hrange := (List.forall_mem_cons.1 hmost).1 (Nat.not_lt.1 hbehind)
          rw [contains_iff] at hcontains
          rcases List.mem_cons.1 hlast with rfl | hlast
          · exact hcontains.2
          · rcases hstarts last hlast with hless | ⟨-, hlong⟩ <;> omega

/-- If ranges that start later do not stop earlier, each offset in one of them is reached. -/
theorem reaches_of_contains {ranges : List ByteRange}
    (hsorted : ranges.Pairwise fun first second => first.notBefore second = true)
    (hmonotone : ∀ first ∈ ranges, ∀ second ∈ ranges, first.start < second.start →
      first.stop ≤ second.stop)
    {range : ByteRange} (hrange : range ∈ ranges) {offset : Nat}
    (hcontains : range.contains offset = true) : reaches ranges offset = true := by
  induction ranges with
  | nil => cases hrange
  | cons first rest ih =>
      rcases List.pairwise_cons.1 hsorted with ⟨hfirst, hrest⟩
      rcases contains_iff.1 hcontains with ⟨hstart, hstop⟩
      by_cases hbehind : offset < first.start
      · rw [reaches_cons_of_lt hbehind]
        rcases List.mem_cons.1 hrange with rfl | hrange
        · omega
        · exact ih hrest (fun _ hmem _ hother => hmonotone _ (List.mem_cons_of_mem _ hmem) _
            (List.mem_cons_of_mem _ hother)) hrange
      · rw [reaches_cons_of_le (Nat.not_lt.1 hbehind), decide_eq_true_eq]
        rcases List.mem_cons.1 hrange with rfl | hrest
        · exact hstop
        · have horder := hfirst range hrest
          simp only [notBefore, Bool.or_eq_true, decide_eq_true_eq, Bool.and_eq_true, beq_iff_eq]
            at horder
          rcases horder with hless | ⟨-, hlong⟩
          · have hends := hmonotone range hrange first List.mem_cons_self hless
            omega
          · omega

/-- What the deciding range contains is in one of the ranges. -/
theorem covers_of_reaches {ranges : List ByteRange} {offset : Nat}
    (hreached : reaches ranges offset = true) : covers ranges offset = true := by
  rcases (Option.any_eq_true _ _).1 hreached with ⟨range, hrange, hstop⟩
  have hstart := List.find?_some hrange
  refine List.any_eq_true.2 ⟨range, List.mem_of_find?_eq_some hrange, contains_iff.2 ?_⟩
  exact ⟨by simpa using hstart, by simpa using hstop⟩

/-- Ranges in another order, with repetitions, contain the same offsets. -/
theorem covers_congr {ranges others : List ByteRange}
    (hsame : ∀ range, range ∈ ranges ↔ range ∈ others) (offset : Nat) :
    covers ranges offset = covers others offset := by
  rw [Bool.eq_iff_iff, covers, covers, List.any_eq_true, List.any_eq_true]
  simp only [hsame]

end ByteRange

/-! ## Deleting -/

/-- A text without a part at its front, or without a longer front if that part is too long. -/
theorem drop_take_append_drop (text : Bytes) (count width : Nat) :
    (text.take width).drop count ++ text.drop width = text.drop (min count width) := by
  rcases Nat.le_total count width with hle | hle
  · rw [Nat.min_eq_left hle, List.drop_take]
    have hback : text.drop width = (text.drop count).drop (width - count) := by
      rw [List.drop_drop, Nat.add_sub_cancel' hle]
    rw [hback, List.take_append_drop]
  · rw [Nat.min_eq_right hle, List.drop_eq_nil_of_le (Nat.le_trans (List.length_take_le _ _) hle),
      List.nil_append]

/-- What a deletion leaves in front of the place where it starts, and what it leaves behind it. -/
theorem take_drop_deleteFrom (source : Bytes) (range : ByteRange) :
    (range.deleteFrom source).take range.start = source.take range.start ∧
      (range.deleteFrom source).drop range.start = source.drop (max range.start range.stop) := by
  unfold ByteRange.deleteFrom
  rcases Nat.le_total range.start source.length with hinside | houtside
  · have hlength : (source.take range.start).length = range.start := by
      rw [List.length_take, Nat.min_eq_left hinside]
    exact ⟨List.take_left' hlength, List.drop_left' hlength⟩
  · have hnil : source.drop (max range.start range.stop) = [] :=
      List.drop_eq_nil_of_le (Nat.le_trans houtside (Nat.le_max_left _ _))
    rw [hnil, List.append_nil, List.take_of_length_le houtside, List.take_of_length_le houtside]
    exact ⟨rfl, List.drop_eq_nil_of_le houtside⟩

/-- A byte is deleted if the range that decides about it reaches it.  Behind `limit` everything is
done. -/
theorem deleteRanges_eq {ranges : List ByteRange} {limit : Nat} (source : Bytes)
    (hsorted : ranges.Pairwise fun first second => first.notBefore second = true)
    (hlimit : ∀ range ∈ ranges, range.start ≤ limit) :
    deleteRanges source limit ranges =
      Bytes.without (source.take limit) (ByteRange.reaches ranges) ++ source.drop limit := by
  induction ranges generalizing source limit with
  | nil =>
      have hnone : Bytes.without (source.take limit) (ByteRange.reaches []) = source.take limit :=
        Bytes.without_eq_self fun _ _ => rfl
      rw [hnone, List.take_append_drop, deleteRanges]
  | cons range rest ih =>
      rcases List.pairwise_cons.1 hsorted with ⟨hfirst, hrest⟩
      obtain ⟨width, rfl⟩ := Nat.exists_eq_add_of_le (List.forall_mem_cons.1 hlimit).1
      have hbefore : ∀ other ∈ rest, other.start ≤ range.start := by
        intro other hother
        have hnot := hfirst other hother
        simp only [ByteRange.notBefore, Bool.or_eq_true, decide_eq_true_eq, Bool.and_eq_true,
          beq_iff_eq] at hnot
        omega
      have hfront : Bytes.without (source.take range.start) (ByteRange.reaches (range :: rest)) =
          Bytes.without (source.take range.start) (ByteRange.reaches rest) := by
        apply Bytes.without_congr
        intro offset hoffset
        rw [List.length_take] at hoffset
        exact ByteRange.reaches_cons_of_lt (by omega) rest
      have hback : Bytes.without ((source.drop range.start).take width) (fun offset =>
            ByteRange.reaches (range :: rest) ((source.take range.start).length + offset)) =
          ((source.drop range.start).take width).drop (range.stop - range.start) := by
        rw [← Bytes.without_lt ((source.drop range.start).take width)]
        apply Bytes.without_congr
        intro offset hoffset
        rw [List.length_take, List.length_drop] at hoffset
        have hlength : (source.take range.start).length = range.start := by
          rw [List.length_take]
          omega
        rw [hlength, ByteRange.reaches_cons_of_le (Nat.le_add_right _ _), decide_eq_decide]
        omega
      obtain ⟨htake, hdrop⟩ := take_drop_deleteFrom source
        { range with stop := min range.stop (range.start + width) }
      rw [deleteRanges, ih _ hrest hbefore, htake, hdrop, List.take_add, Bytes.without_append,
        hfront, hback, List.append_assoc, ← List.drop_drop, drop_take_append_drop, List.drop_drop]
      congr 2
      dsimp only
      omega

/-! ## Purging -/

/-- The ranges of the annotations that are selected by their issues. -/
def selectedRanges (source : Bytes) (notes : List Annotation) (issues : Option (List Int)) :
    List ByteRange :=
  (notes.filter (·.isWanted issues)).map fun note => removalRange source note.comment

/-- The ranges to delete are the selected ones. -/
theorem mem_removalRanges_iff {source : Bytes} {notes : List Annotation}
    {issues : Option (List Int)} {range : ByteRange} :
    range ∈ removalRanges source (notes.filter (·.isWanted issues)) ↔
      range ∈ selectedRanges source notes issues := by
  rw [removalRanges, List.mem_mergeSort, List.mem_eraseDups, selectedRanges]

/-- The ranges to delete are in the order of their deletion. -/
theorem pairwise_removalRanges (source : Bytes) (notes : List Annotation) :
    (removalRanges source notes).Pairwise fun first second => first.notBefore second = true :=
  List.pairwise_mergeSort ByteRange.notBefore_trans ByteRange.notBefore_total _

/-- Purging deletes a byte if the range that decides about it reaches it. -/
theorem purge_eq {source : Bytes} {notes : List Annotation}
    (hinside : ∀ note ∈ notes, note.spanStart ≤ source.length) (issues : Option (List Int)) :
    purge source notes issues =
      Bytes.without source
        (ByteRange.reaches (removalRanges source (notes.filter (·.isWanted issues)))) := by
  have hlimit : ∀ range ∈ removalRanges source (notes.filter (·.isWanted issues)),
      range.start ≤ source.length + 1 := by
    intro range hrange
    rw [mem_removalRanges_iff] at hrange
    rcases List.mem_map.1 hrange with ⟨note, hnote, rfl⟩
    have hstart := hinside note ((List.mem_filter.1 hnote).1)
    have hwidened := removalRange_start_le source note.comment
    exact Nat.le_succ_of_le (Nat.le_trans hwidened hstart)
  rw [purge, deleteRanges_eq source (pairwise_removalRanges _ _) hlimit,
    List.take_of_length_le (Nat.le_succ _), List.drop_eq_nil_of_le (Nat.le_succ _), List.append_nil]

/-- The ranges that decide contain no byte outside the selected ranges. -/
theorem covers_selectedRanges {source : Bytes} {notes : List Annotation}
    {issues : Option (List Int)} {offset : Nat}
    (hreached : ByteRange.reaches
      (removalRanges source (notes.filter (·.isWanted issues))) offset = true) :
    ByteRange.covers (selectedRanges source notes issues) offset = true := by
  rw [← ByteRange.covers_congr fun _ => mem_removalRanges_iff]
  exact ByteRange.covers_of_reaches hreached

/-- Purging deletes the bytes in the selected ranges, all of them and no others, if ranges that
start later do not stop earlier. -/
theorem purge_eq_without {source : Bytes} {notes : List Annotation}
    (hinside : ∀ note ∈ notes, note.spanStart ≤ source.length) (issues : Option (List Int))
    (hmonotone : ∀ first ∈ selectedRanges source notes issues,
      ∀ second ∈ selectedRanges source notes issues, first.start < second.start →
        first.stop ≤ second.stop) :
    purge source notes issues =
      Bytes.without source (ByteRange.covers (selectedRanges source notes issues)) := by
  rw [purge_eq hinside]
  apply Bytes.without_congr
  intro offset hoffset
  rw [Bool.eq_iff_iff]
  refine ⟨covers_selectedRanges, fun hcovered => ?_⟩
  rcases List.any_eq_true.1 hcovered with ⟨range, hrange, hcontains⟩
  refine ByteRange.reaches_of_contains (pairwise_removalRanges _ _) ?_
    (mem_removalRanges_iff.2 hrange) hcontains
  simpa only [mem_removalRanges_iff] using hmonotone

/-- Purging deletes the bytes in the selected ranges, all of them and no others, exactly if each of
them also lies in a selected range that starts last at it or in front of it. -/
theorem purge_eq_without_iff {source : Bytes} {notes : List Annotation}
    (hinside : ∀ note ∈ notes, note.spanStart ≤ source.length) (issues : Option (List Int)) :
    purge source notes issues =
        Bytes.without source (ByteRange.covers (selectedRanges source notes issues)) ↔
      ∀ offset < source.length, ∀ range ∈ selectedRanges source notes issues,
        range.contains offset = true →
          ∃ last ∈ selectedRanges source notes issues, last.contains offset = true ∧
            ∀ other ∈ selectedRanges source notes issues,
              other.start ≤ offset → other.start ≤ last.start := by
  have hreaches :=
    ByteRange.reaches_iff (pairwise_removalRanges source (notes.filter (·.isWanted issues)))
  simp only [mem_removalRanges_iff] at hreaches
  rw [purge_eq hinside]
  constructor
  · intro hsame offset hoffset range hrange hcontains
    rw [← hreaches, Bytes.eq_of_without_eq (fun _ => covers_selectedRanges) hsame offset hoffset]
    exact List.any_eq_true.2 ⟨range, hrange, hcontains⟩
  · intro hlast
    apply Bytes.without_congr
    intro offset hoffset
    rw [Bool.eq_iff_iff]
    refine ⟨covers_selectedRanges, fun hcovered => ?_⟩
    rcases List.any_eq_true.1 hcovered with ⟨range, hrange, hcontains⟩
    exact (hreaches offset).2 (hlast offset hoffset range hrange hcontains)

end CommentMarkers
