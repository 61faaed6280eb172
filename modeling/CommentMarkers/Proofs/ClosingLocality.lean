import CommentMarkers.Proofs.Modes

/-!
# Closing a construct is local

Where a construct closes is found out from left to right.  So a change of the text further on has
no effect on what is found before it, as long as no move looks or reaches across the place of the
change.  This file states that for a single move as `Mode.Alike`, carries it over to all moves in
front of the change, and applies it to what stands behind a construct.

Main results:

- Theorem `Mode.passes`: modes pass over the same front in the same way.
- Theorem `Closing.Stable.length_eq`: a construct closes in the same way in front of everything that
  does not go on with it.
- Theorem `Closing.length_local`: so it does whatever is behind it, up to the first byte.
-/

namespace CommentMarkers

/-! ## Prefixes -/

/-- A token that is no longer than the front of a text begins the text if it begins the front. -/
theorem isPrefixOf_append {token front : Bytes} (hlength : token.length ≤ front.length)
    (rest : Bytes) : token.isPrefixOf (front ++ rest) = token.isPrefixOf front := by
  rw [Bool.eq_iff_iff, List.isPrefixOf_iff_prefix, List.isPrefixOf_iff_prefix]
  constructor
  · intro hstarts
    exact List.prefix_of_prefix_length_le hstarts (List.prefix_append front rest) hlength
  · intro hstarts
    exact hstarts.trans (List.prefix_append front rest)

/-- A token does not notice a change behind another one that is no part of it. -/
theorem prefix_of_prefix_change {token stop : Bytes} (front : Bytes)
    (hpart : stop <:+: token → token = stop) {rest other : Bytes}
    (hstarts : token <+: front ++ (stop ++ other)) : token <+: front ++ (stop ++ rest) := by
  rw [← List.append_assoc] at hstarts ⊢
  have hinside : token <+: front ++ stop := by
    rcases Nat.le_total token.length (front ++ stop).length with hshort | hlong
    · exact List.prefix_of_prefix_length_le hstarts (List.prefix_append _ other) hshort
    · have hwhole := List.prefix_of_prefix_length_le (List.prefix_append _ other) hstarts hlong
      have hsame := hpart ((List.suffix_append front stop).isInfix.trans hwhole.isInfix)
      rw [hsame, List.length_append] at hlong
      have hnil : front = [] := List.length_eq_zero_iff.1 (by omega)
      rw [hnil, hsame]
      exact List.prefix_rfl
  exact hinside.trans (List.prefix_append _ rest)

/-! ## Passing over a front -/

/-- Holds if the move at the beginning of `front` is the same with `old` and with `new` behind it,
and stays in front of them.  A move that closes the construct would have to close it with no more
than `left` bytes. -/
def Mode.Alike (mode : Mode) (front old new : Bytes) (left : Nat) : Prop :=
  match mode.move (front ++ old) with
  | .stay count behind =>
    count ≤ front.length ∧ mode.move (front ++ new) = .stay count behind
  | .close count => count ≤ left
  | .stuck => True

/-- A mode passes over a front in the same way whatever is behind it: if with `old` behind the
front the construct closes `left` bytes behind it, the mode reaches the end of the front, and goes
on from there with `new` as well. -/
theorem Mode.passes (shape : Mode → Prop) {old : Bytes} (new : Bytes) {left : Nat}
    (hproper : ∀ mode, shape mode → mode.Proper)
    (hstay : ∀ mode bytes count behind, shape mode → mode.move bytes = .stay count behind →
      shape behind)
    (halike : ∀ mode front, shape mode → front ≠ [] →
      mode.length? (front ++ old) = some (front.length + left) → mode.Alike front old new left)
    {mode : Mode} (hmode : shape mode) {front : Bytes}
    (hlength : mode.length? (front ++ old) = some (front.length + left)) :
    ∃ behind, shape behind ∧ behind.length? old = some left ∧
      mode.length? (front ++ new) = (behind.length? new).map (· + front.length) := by
  induction hsize : front.length using Nat.strongRecOn generalizing front mode with
  | ind size ih =>
      by_cases hnil : front = []
      · rw [hnil, List.nil_append, List.length_nil, Nat.zero_add] at hlength
        refine ⟨mode, hmode, hlength, ?_⟩
        rw [← hsize, hnil, List.nil_append]
        exact Option.map_id'.symm
      · have hsame := halike mode front hmode hnil hlength
        have hold := (hproper mode hmode).move_agrees (front ++ old)
        have hnew := (hproper mode hmode).move_agrees (front ++ new)
        unfold Alike at hsame
        cases hmove : mode.move (front ++ old) with
        | stay count next =>
            rw [hmove] at hsame hold
            rcases hsame with ⟨hcount, hmoved⟩
            rw [hmoved] at hnew
            rcases hold with ⟨hpos, -, -, hrest⟩
            rcases hnew with ⟨-, -, -, hother⟩
            rw [List.drop_append_of_le_length hcount] at hrest hother
            rw [hrest] at hlength
            rcases Option.map_eq_some_iff.1 hlength with ⟨length, hnext, hsum⟩
            have hdrop : (front.drop count).length = front.length - count := List.length_drop
            have hleft : length = (front.drop count).length + left := by
              omega
            rw [hleft] at hnext
            obtain ⟨behind, hshape, hreach, hgo⟩ :=
              ih (front.drop count).length (by omega) (hstay _ _ _ _ hmode hmove) hnext rfl
            refine ⟨behind, hshape, hreach, ?_⟩
            rw [hother, hgo, Option.map_map]
            congr 1
            funext length
            simp only [Function.comp]
            omega
        | close count =>
            rw [hmove] at hsame hold
            have hpos := List.length_pos_iff.2 hnil
            rw [show mode.length? (front ++ old) = some count from hold] at hlength
            have hcount := Option.some.inj hlength
            have hle : count ≤ left := hsame
            omega
        | stuck =>
            rw [hmove] at hold
            rw [show mode.length? (front ++ old) = none from hold] at hlength
            cases hlength

/-! ## Moves in front of a change -/

variable {front old new : Bytes} {left : Nat}

/-- A move in a block comment is the same if no closing delimiter reaches into the new text. -/
theorem alike_block {stop : Bytes} (hfront : front ≠ []) (hleft : stop.length ≤ left)
    (hcross : stop <+: front ++ new → stop <+: front ++ old) :
    (Mode.block stop).Alike front old new left := by
  have hnonempty : ∀ rest, (front ++ rest).isEmpty = false := by
    intro rest
    rw [List.isEmpty_eq_false_iff]
    exact List.append_ne_nil_of_left_ne_nil hfront rest
  have hpos := List.length_pos_iff.2 hfront
  unfold Mode.Alike Mode.move
  simp only [hnonempty, Bool.false_eq_true, if_false, List.isPrefixOf_iff_prefix]
  by_cases hstop : stop <+: front ++ old
  · rw [if_pos hstop]
    exact hleft
  · rw [if_neg hstop, if_neg fun hstarts => hstop (hcross hstarts)]
    exact ⟨hpos, rfl⟩

/-- A nested comment is at least as long as its closing delimiter. -/
theorem length_stop_le_of_closeNested {start stop bytes : Bytes} {depth length : Nat}
    (hclosed : closeNested start stop depth bytes = some length) : stop.length ≤ length :=
  Nat.le_trans (closeNested_ends hclosed).length_le (List.length_take_le _ _)

/-- A move in a nested comment is the same if no delimiter reaches into the new text, and none
reaches into the old one or the old one begins with the end of the comment. -/
theorem alike_nestedBlock {start stop : Bytes} {depth : Nat} (hfront : front ≠ [])
    (hproper : (Mode.nestedBlock start stop depth).Proper) (hleft : stop.length ≤ left)
    (hcross : ∀ token, token = start ∨ token = stop → token <+: front ++ new →
      token <+: front ++ old)
    (hreach : left = stop.length ∨ ∀ token, token = start ∨ token = stop →
      token <+: front ++ old → token.length ≤ front.length)
    (hlength : (Mode.nestedBlock start stop depth).length? (front ++ old) =
      some (front.length + left)) :
    (Mode.nestedBlock start stop depth).Alike front old new left := by
  have hpos := List.length_pos_iff.2 hfront
  have hnonempty : ∀ rest, (front ++ rest).isEmpty = false := by
    intro rest
    rw [List.isEmpty_eq_false_iff]
    exact List.append_ne_nil_of_left_ne_nil hfront rest
  -- Behind a token there is still room for the closing delimiter.
  have hroom : ∀ count inner,
      (Mode.nestedBlock start stop depth).move (front ++ old) =
        .stay count (.nestedBlock start stop inner) →
          count + stop.length ≤ front.length + left := by
    intro count inner hmove
    have hagrees := hproper.move_agrees (front ++ old)
    rw [hmove] at hagrees
    rcases hagrees with ⟨-, -, -, hrest⟩
    rw [hlength] at hrest
    rcases Option.map_eq_some_iff.1 hrest.symm with ⟨length, hinner, hsum⟩
    have hstop := length_stop_le_of_closeNested hinner
    omega
  have hinside : ∀ token, token = start ∨ token = stop → token <+: front ++ old →
      (left = stop.length → token.length ≤ front.length) →
      token.length ≤ front.length ∧ token <+: front ++ new := by
    intro token htoken hstarts hroom
    have hfits : token.length ≤ front.length := by
      rcases hreach with hend | hnone
      · exact hroom hend
      · exact hnone token htoken hstarts
    have hfront := List.prefix_of_prefix_length_le hstarts (List.prefix_append front old) hfits
    exact ⟨hfits, hfront.trans (List.prefix_append front new)⟩
  unfold Mode.Alike
  unfold Mode.move at hroom ⊢
  simp only [hnonempty, Bool.false_eq_true, if_false, List.isPrefixOf_iff_prefix] at hroom ⊢
  by_cases hstops : stop <+: front ++ old
  · rw [if_pos hstops] at hroom ⊢
    cases depth with
    | zero => exact hleft
    | succ depth =>
        have hfits := hinside stop (Or.inr rfl) hstops fun hend => by
          have hbound := hroom _ _ rfl
          omega
        exact ⟨hfits.1, by rw [if_pos hfits.2]⟩
  · rw [if_neg hstops] at hroom ⊢
    rw [if_neg fun hstarts => hstops (hcross stop (Or.inr rfl) hstarts)]
    by_cases hstart : start <+: front ++ old
    · rw [if_pos hstart] at hroom ⊢
      have hfits := hinside start (Or.inl rfl) hstart fun hend => by
        have hbound := hroom _ _ rfl
        omega
      exact ⟨hfits.1, by rw [if_pos hfits.2]⟩
    · rw [if_neg hstart, if_neg fun hstarts => hstart (hcross start (Or.inl rfl) hstarts)]
      exact ⟨hpos, rfl⟩

/-- A move that stays in a block comment looks for the same closing delimiter. -/
theorem move_block_stay {stop bytes : Bytes} {count : Nat} {behind : Mode}
    (hmove : (Mode.block stop).move bytes = .stay count behind) : behind = .block stop := by
  simp only [Mode.move] at hmove
  split at hmove
  · cases hmove
  · split at hmove
    · cases hmove
    · exact (Move.stay.inj hmove).2.symm

/-- A move that stays in a nested comment looks for the same delimiters. -/
theorem move_nestedBlock_stay {start stop bytes : Bytes} {depth count : Nat} {behind : Mode}
    (hmove : (Mode.nestedBlock start stop depth).move bytes = .stay count behind) :
    ∃ inner, behind = .nestedBlock start stop inner := by
  simp only [Mode.move] at hmove
  split at hmove
  · cases hmove
  · split at hmove
    · cases depth with
      | zero => cases hmove
      | succ depth => exact ⟨depth, (Move.stay.inj hmove).2.symm⟩
    · split at hmove
      · exact ⟨depth + 1, (Move.stay.inj hmove).2.symm⟩
      · exact ⟨depth, (Move.stay.inj hmove).2.symm⟩

/-! ## Moves in literals -/

variable {token : Bytes} {escape : Option Bytes}

/-- What an escape is: a doubled token, or a mark that is not the token with one byte behind it. -/
theorem escapeLength_eq_some_iff {bytes : Bytes} {length : Nat} :
    escapeLength token escape bytes = some length ↔
      escape = some token ∧ token ++ token <+: bytes ∧ length = token.length + token.length ∨
        ∃ mark, escape = some mark ∧ mark ≠ token ∧ mark <+: bytes ∧
          mark.length < bytes.length ∧ length = mark.length + 1 := by
  unfold escapeLength
  cases escape with
  | none => simp
  | some mark =>
      by_cases hsame : mark = token
      · simp only [hsame, if_true, List.isPrefixOf_iff_prefix, Option.ite_none_right_eq_some,
          Option.some.injEq, true_and, eq_comm (a := length)]
        constructor
        · exact Or.inl
        · rintro (hdouble | ⟨mark, rfl, hne, -⟩)
          · exact hdouble
          · exact absurd rfl hne
      · have hroom : ((!(bytes.drop mark.length).isEmpty) = true) ↔ mark.length < bytes.length := by
          simp
        simp only
        rw [if_neg hsame, Option.ite_none_right_eq_some, Bool.and_eq_true, hroom,
          List.isPrefixOf_iff_prefix, Option.some.injEq, Option.some.injEq]
        constructor
        · rintro ⟨⟨hstarts, hlong⟩, rfl⟩
          exact Or.inr ⟨mark, rfl, hsame, hstarts, hlong, rfl⟩
        · rintro (⟨hdouble, -⟩ | ⟨other, hother, -, hstarts, hlong, rfl⟩)
          · exact absurd hdouble hsame
          · cases hother
            exact ⟨⟨hstarts, hlong⟩, rfl⟩

/-- An escape in front of a change is the same with another text behind it. -/
theorem escapeLength_append {length : Nat} (hinside : length ≤ front.length)
    (hescape : escapeLength token escape (front ++ rest) = some length) (other : Bytes) :
    escapeLength token escape (front ++ other) = some length := by
  rw [escapeLength_eq_some_iff] at hescape ⊢
  have hstays : ∀ {part : Bytes}, part <+: front ++ rest → part.length ≤ front.length →
      part <+: front ++ other := by
    intro part hpart hlength
    exact (List.prefix_of_prefix_length_le hpart (List.prefix_append _ _) hlength).trans
      (List.prefix_append _ _)
  rcases hescape with ⟨hdouble, hstarts, rfl⟩ | ⟨mark, rfl, hne, hstarts, -, rfl⟩
  · exact Or.inl ⟨hdouble, hstays hstarts (by rw [List.length_append]; exact hinside), rfl⟩
  · refine Or.inr ⟨mark, rfl, hne, hstays hstarts (by omega), ?_, rfl⟩
    rw [List.length_append]
    omega

/-- An escape in front of a token is one whatever is behind the token, unless the token is doubled
and begins the text. -/
theorem escapeLength_token (hstable : ∀ mark ∈ escape, token <:+: mark → mark = token)
    {length : Nat} (hescape : escapeLength token escape (front ++ (token ++ other)) = some length)
    (rest : Bytes) :
    escapeLength token escape (front ++ (token ++ rest)) = some length ∨
      token <+: front ++ (token ++ rest) := by
  rw [escapeLength_eq_some_iff] at hescape ⊢
  have hstays : ∀ {part : Bytes}, part <+: front ++ (token ++ other) →
      part.length ≤ front.length + token.length → part <+: front ++ (token ++ rest) := by
    intro part hpart hlength
    rw [← List.append_assoc] at hpart ⊢
    exact (List.prefix_of_prefix_length_le hpart (List.prefix_append _ _)
      (by rwa [List.length_append])).trans (List.prefix_append _ _)
  rcases hescape with ⟨hdouble, hstarts, rfl⟩ | ⟨mark, rfl, hne, hstarts, -, rfl⟩
  · have htoken := (List.prefix_append token token).trans hstarts
    exact Or.inr (hstays htoken (Nat.le_add_left _ _))
  · have hshort : mark.length < front.length + token.length := by
      refine Nat.lt_of_not_le fun hlong => ?_
      -- A longer mark would have the token inside.
      have hinside : front ++ token <+: mark := by
        rw [← List.append_assoc] at hstarts
        exact List.prefix_of_prefix_length_le (List.prefix_append _ _) hstarts
          (by rw [List.length_append]; omega)
      exact hne (hstable mark rfl ((List.suffix_append front token).isInfix.trans hinside.isInfix))
    refine Or.inl (Or.inr ⟨mark, rfl, hne, hstays hstarts (Nat.le_of_lt hshort), ?_, rfl⟩)
    simp only [List.length_append]
    omega

/-- A move in a literal is the same whatever is behind the token that closes it. -/
theorem alike_literal (htoken : token ≠ []) (hfront : front ≠ [])
    (hstable : ∀ mark ∈ escape, token <:+: mark → mark = token)
    (hlength : (Mode.literal token escape none).length? (front ++ (token ++ rest)) =
      some (front.length + token.length)) (other : Bytes) :
    (Mode.literal token escape none).Alike front (token ++ rest) (token ++ other)
      token.length := by
  have hpos := List.length_pos_iff.2 hfront
  have hproper : (Mode.literal token escape none).Proper := htoken
  have hagrees := hproper.move_agrees (front ++ (token ++ rest))
  have hnonempty : ∀ behind, (front ++ behind).isEmpty = false := by
    intro behind
    rw [List.isEmpty_eq_false_iff]
    exact List.append_ne_nil_of_left_ne_nil hfront behind
  have hstarts : ∀ behind, token.isPrefixOf (front ++ (token ++ behind)) =
      token.isPrefixOf (front ++ token) := by
    intro behind
    rw [← List.append_assoc]
    exact isPrefixOf_append (by simp) behind
  unfold Mode.Alike
  simp only [Mode.move, view, hnonempty, Bool.false_eq_true, if_false, hstarts, Option.map_none]
    at hagrees ⊢
  cases hescape : escapeLength token escape (front ++ (token ++ rest)) with
  | some length =>
      rw [hescape] at hagrees
      rcases hagrees with ⟨-, -, -, hrest⟩
      rw [hlength] at hrest
      rcases Option.map_eq_some_iff.1 hrest.symm with ⟨inner, hinner, hsum⟩
      have hends := Nat.le_trans (closeQuote_ends hinner).length_le (List.length_take_le _ _)
      have hinside : length ≤ front.length := by
        omega
      exact ⟨hinside, by rw [escapeLength_append hinside hescape]⟩
  | none =>
      rw [hescape] at hagrees
      simp only at hagrees ⊢
      by_cases hcloses : token.isPrefixOf (front ++ token) = true
      · simp only [if_pos hcloses, Nat.le_refl]
      · have hnone : escapeLength token escape (front ++ (token ++ other)) = none := by
          rw [Option.eq_none_iff_forall_not_mem]
          intro length hother
          rcases escapeLength_token hstable hother rest with hsame | hbegins
          · rw [hsame] at hescape
            cases hescape
          · rw [← List.isPrefixOf_iff_prefix, hstarts] at hbegins
            exact hcloses hbegins
        rw [if_neg hcloses, hnone]
        simp only
        exact ⟨hpos, trivial⟩

/-- A move that stays in a literal keeps its delimiters. -/
theorem move_literal_stay {bytes : Bytes} {count : Nat} {behind : Mode}
    (hmove : (Mode.literal token escape none).move bytes = .stay count behind) :
    behind = .literal token escape none := by
  simp only [Mode.move, Option.map_none] at hmove
  split at hmove
  · cases hmove
  · split at hmove
    · exact (Move.stay.inj hmove).2.symm
    · split at hmove
      · cases hmove
      · exact (Move.stay.inj hmove).2.symm

/-! ## Constructs and what is behind them -/

variable {inner rest other : Bytes}

/-- A text begins with the line in front of its first newline. -/
theorem firstLineLength_append (hline : Bytes.newline ∉ inner) (rest : Bytes) :
    Bytes.firstLineLength (inner ++ rest) = inner.length + Bytes.firstLineLength rest := by
  have hlength := congrArg List.length (firstLine_append_of_not_mem hline rest)
  rwa [List.length_append] at hlength

/-- A first line that reaches as far as some text has no newline in that text. -/
theorem newline_not_mem_of_firstLineLength
    (hlength : inner.length ≤ Bytes.firstLineLength (inner ++ rest)) : Bytes.newline ∉ inner := by
  intro hmem
  have hsame := congrArg List.length (firstLine_append_of_mem hmem rest)
  exact Nat.not_lt.2 (Nat.le_trans hlength (Nat.le_of_eq hsame)) (length_firstLine_lt hmem)

/-- A block comment closes at once in front of its closing delimiter. -/
theorem closeBlock_stop {stop : Bytes} (hne : stop ≠ []) (rest : Bytes) :
    closeBlock stop (stop ++ rest) = some stop.length := by
  rcases List.exists_cons_of_ne_nil hne with ⟨byte, more, rfl⟩
  rw [List.cons_append, closeBlock, ← List.cons_append,
    if_pos (List.isPrefixOf_iff_prefix.2 (List.prefix_append _ _))]

/-- A block comment closes in the same way whatever is behind it. -/
theorem closeBlock_local {stop : Bytes} (hne : stop ≠ [])
    (hclosed : closeBlock stop (inner ++ rest) = some inner.length) :
    closeBlock stop (inner ++ other) = some inner.length := by
  have hends := closeBlock_ends hclosed
  rw [List.take_left] at hends
  rcases hends with ⟨front, rfl⟩
  rw [List.append_assoc, List.length_append] at hclosed
  obtain ⟨behind, rfl, -, hgo⟩ := Mode.passes (· = .block stop) (stop ++ other)
    (by rintro mode rfl; trivial)
    (by rintro mode bytes count behind rfl hmove; exact move_block_stay hmove)
    (by
      rintro mode front rfl hfront -
      apply alike_block hfront (Nat.le_refl _)
      exact prefix_of_prefix_change front fun _ => rfl)
    rfl hclosed
  rw [List.append_assoc, List.length_append]
  apply hgo.trans
  rw [show (Mode.block stop).length? (stop ++ other) = some stop.length from closeBlock_stop hne _,
    Option.map_some, Nat.add_comm]

/-- In front of its closing delimiter a nested comment closes if no inner comment is open. -/
theorem closeNested_stop {start stop : Bytes} (hne : stop ≠ []) (depth : Nat) (rest : Bytes) :
    closeNested start stop depth (stop ++ rest) =
      match depth with
      | 0 => some stop.length
      | depth + 1 => (closeNested start stop depth rest).map (· + stop.length) := by
  rcases List.exists_cons_of_ne_nil hne with ⟨byte, more, rfl⟩
  rw [List.cons_append, closeNested.eq_def]
  simp only
  rw [← List.cons_append, if_pos (List.isPrefixOf_iff_prefix.2 (List.prefix_append _ _))]
  cases depth with
  | zero => rfl
  | succ depth =>
      have hdrop : (more ++ rest).drop ((byte :: more).length - 1) = rest := List.drop_left
      simp only [hdrop]
      rw [Nat.max_eq_right (by simp)]

/-- A nested comment closes in the same way whatever is behind it. -/
theorem closeNested_local {start stop : Bytes} {depth : Nat} (hstart : start ≠ [])
    (hne : stop ≠ []) (hpart : stop <:+: start → start = stop)
    (hclosed : closeNested start stop depth (inner ++ rest) = some inner.length) :
    closeNested start stop depth (inner ++ other) = some inner.length := by
  have hends := closeNested_ends hclosed
  rw [List.take_left] at hends
  rcases hends with ⟨front, rfl⟩
  rw [List.append_assoc, List.length_append] at hclosed
  obtain ⟨behind, ⟨inner, rfl⟩, hstop, hgo⟩ := Mode.passes
    (fun mode => ∃ depth, mode = .nestedBlock start stop depth) (stop ++ other)
    (by rintro mode ⟨depth, rfl⟩; exact ⟨hstart, hne⟩)
    (by rintro mode bytes count behind ⟨depth, rfl⟩ hmove; exact move_nestedBlock_stay hmove)
    (by
      rintro mode front ⟨depth, rfl⟩ hfront hlength
      refine alike_nestedBlock hfront ⟨hstart, hne⟩ (Nat.le_refl _) ?_ (Or.inl rfl) hlength
      rintro token (rfl | rfl)
      · exact prefix_of_prefix_change front hpart
      · exact prefix_of_prefix_change front fun _ => rfl)
    ⟨depth, rfl⟩ hclosed
  have hzero : inner = 0 := by
    cases inner with
    | zero => rfl
    | succ inner =>
        change closeNested start stop (inner + 1) (stop ++ rest) = some stop.length at hstop
        rw [closeNested_stop hne] at hstop
        rcases Option.map_eq_some_iff.1 hstop with ⟨length, hmore, hsum⟩
        have hlength := length_stop_le_of_closeNested hmore
        have hpos := List.length_pos_iff.2 hne
        omega
  subst hzero
  rw [List.append_assoc, List.length_append]
  apply hgo.trans
  change (closeNested start stop 0 (stop ++ other)).map _ = _
  rw [closeNested_stop hne, Option.map_some, Nat.add_comm]

/-! ## Literals and what is behind them -/

/-- A literal ends with its token, and up to there it is read in the same way whatever is behind
it. -/
theorem exists_front_of_closeQuote (htoken : token ≠ [])
    (hstable : ∀ mark ∈ escape, token <:+: mark → mark = token)
    (hclosed : closeQuote token escape (inner ++ rest) = some inner.length) :
    ∃ front, inner = front ++ token ∧
      closeQuote token escape (token ++ rest) = some token.length ∧
      ∀ other, closeQuote token escape (front ++ (token ++ other)) =
        (closeQuote token escape (token ++ other)).map (· + front.length) := by
  have hends := closeQuote_ends hclosed
  rw [List.take_left] at hends
  rcases hends with ⟨front, rfl⟩
  rw [List.append_assoc, List.length_append] at hclosed
  have hpasses := fun other => Mode.passes (· = .literal token escape none) (token ++ other)
    (by rintro mode rfl; exact htoken)
    (by rintro mode bytes count behind rfl hmove; exact move_literal_stay hmove)
    (by
      rintro mode front rfl hfront hlength
      exact alike_literal htoken hfront hstable hlength other)
    rfl hclosed
  refine ⟨front, rfl, ?_, ?_⟩
  · rcases hpasses rest with ⟨behind, rfl, hreach, -⟩
    exact hreach
  · intro other
    rcases hpasses other with ⟨behind, rfl, -, hgo⟩
    exact hgo

/-- In front of a token that is not an escape a literal ends behind it. -/
theorem closeQuote_token (htoken : token ≠ [])
    (hnone : escapeLength token escape (token ++ rest) = none) :
    closeQuote token escape (token ++ rest) = some token.length := by
  have hstarts : token.isPrefixOf (token ++ rest) = true :=
    List.isPrefixOf_iff_prefix.2 (List.prefix_append _ _)
  rcases List.exists_cons_of_ne_nil htoken with ⟨quote, more, rfl⟩
  rw [List.cons_append] at hnone hstarts ⊢
  rw [closeQuote, hnone]
  simp only [hstarts, if_true]

/-- A literal goes on behind an escape. -/
theorem closeQuote_escape (htoken : token ≠ []) {bytes : Bytes} {length : Nat}
    (hescape : escapeLength token escape bytes = some length) :
    closeQuote token escape bytes =
      (closeQuote token escape (bytes.drop length)).map (· + length) := by
  have hpos := escapeLength_pos htoken hescape
  cases bytes with
  | nil =>
      have hle := escapeLength_le hescape
      rw [List.length_nil] at hle
      omega
  | cons byte bytes =>
      rw [closeQuote, hescape]
      simp only
      rw [← drop_max_one byte bytes, Nat.max_eq_right hpos]

/-- A literal that ends behind the token it begins with does so whatever else is behind the token,
unless that token is doubled. -/
theorem escapeLength_eq_none_of_closeQuote (htoken : token ≠ [])
    (hstable : ∀ mark ∈ escape, token <:+: mark → mark = token)
    (hclosed : closeQuote token escape (token ++ rest) = some token.length)
    (hbehind : escape = some token → ¬ token <+: other) :
    escapeLength token escape (token ++ other) = none := by
  rw [Option.eq_none_iff_forall_not_mem]
  intro length hescape
  rcases escapeLength_eq_some_iff.1 hescape with
    ⟨hdouble, hstarts, -⟩ | ⟨mark, rfl, hne, hstarts, -, hlength⟩
  · exact hbehind hdouble ((List.prefix_append_right_inj token).1 hstarts)
  · rcases Nat.lt_or_ge mark.length token.length with hshort | hlong
    · -- The mark is a part of the token, so it would be an escape in front of `rest`, too.
      have hagain := escapeLength_append (by omega) hescape rest
      rw [closeQuote_escape htoken hagain] at hclosed
      rcases Option.map_eq_some_iff.1 hclosed with ⟨inner, hinner, hsum⟩
      have hends := Nat.le_trans (closeQuote_ends hinner).length_le (List.length_take_le _ _)
      omega
    · have hinside := List.prefix_of_prefix_length_le (List.prefix_append token other) hstarts hlong
      exact hne (hstable mark rfl hinside.isInfix)

/-- A literal is not followed by its own token where a doubled token is an escape. -/
theorem not_prefix_of_closeQuote (htoken : token ≠ [])
    (hclosed : closeQuote token (some token) (inner ++ rest) = some inner.length) :
    ¬ token <+: rest := by
  have hstable : ∀ mark ∈ some token, token <:+: mark → mark = token := by
    rintro mark ⟨rfl⟩ -
    rfl
  intro hstarts
  rcases exists_front_of_closeQuote htoken hstable hclosed with ⟨front, rfl, hreach, -⟩
  have hescape : escapeLength token (some token) (token ++ rest) =
      some (token.length + token.length) :=
    escapeLength_eq_some_iff.2 (Or.inl ⟨rfl, (List.prefix_append_right_inj token).2 hstarts, rfl⟩)
  rw [closeQuote_escape htoken hescape] at hreach
  rcases Option.map_eq_some_iff.1 hreach with ⟨inner, -, hsum⟩
  have hpos := List.length_pos_iff.2 htoken
  omega

/-- Two literals become one where a doubled token is an escape: the token that closed the first one
and the token that opened the second one are an escape in it. -/
theorem closeQuote_join (htoken : token ≠ []) {inside behind : Bytes}
    (hfirst : closeQuote token (some token) (inner ++ rest) = some inner.length)
    (hsecond : closeQuote token (some token) (inside ++ behind) = some inside.length) :
    closeQuote token (some token) (inner ++ (token ++ inside) ++ behind) =
      some (inner ++ (token ++ inside)).length := by
  obtain ⟨front, rfl, -, hpasses⟩ := exists_front_of_closeQuote htoken
    (fun mark hmark _ => (Option.some.inj hmark).symm) hfirst
  have hescape : escapeLength token (some token) (token ++ (token ++ (inside ++ behind))) =
      some (token.length + token.length) := by
    refine escapeLength_eq_some_iff.2 (Or.inl ⟨rfl, ?_, rfl⟩)
    rw [← List.append_assoc]
    exact List.prefix_append _ _
  have hdrop : (token ++ (token ++ (inside ++ behind))).drop (token.length + token.length) =
      inside ++ behind := by
    rw [← List.drop_drop, List.drop_left, List.drop_left]
  rw [List.append_assoc, List.append_assoc, List.append_assoc, hpasses,
    closeQuote_escape htoken hescape, hdrop, hsecond]
  simp only [Option.map_some, List.length_append, Option.some.injEq]
  omega

/-- A literal closes in the same way whatever is behind it, except that a doubled token is an
escape. -/
theorem closeQuote_local (htoken : token ≠ [])
    (hstable : ∀ mark ∈ escape, token <:+: mark → mark = token)
    (hbehind : escape = some token → ¬ token <+: other)
    (hclosed : closeQuote token escape (inner ++ rest) = some inner.length) :
    closeQuote token escape (inner ++ other) = some inner.length := by
  rcases exists_front_of_closeQuote htoken hstable hclosed with ⟨front, rfl, hreach, hgo⟩
  have hnone := escapeLength_eq_none_of_closeQuote htoken hstable hreach hbehind
  rw [List.append_assoc, hgo, closeQuote_token htoken hnone, Option.map_some, List.length_append,
    Nat.add_comm]

/-- A window shows a text that fits into it, and then what is behind that text. -/
theorem take_append_of_le {width : Nat} (hfits : inner.length ≤ width) (rest : Bytes) :
    (inner ++ rest).take width = inner ++ rest.take (width - inner.length) := by
  rw [List.take_append, List.take_of_length_le hfits]

/-! ## All constructs -/

/-- Holds if the delimiters have a shape that makes closing local: a block comment has a closing
delimiter, which is not shorter than a start that nests, and a literal has single bytes as its
token and its escape, which differ if the literal is bounded. -/
def Closing.isLocal : Closing → Bool
  | endOfLine => true
  | block stop => !stop.isEmpty
  | nestedBlock start stop => !start.isEmpty && start.length ≤ stop.length
  | quote token escape => token.length == 1 && escape.all (·.length == 1)
  | boundedQuote token escape _ =>
    token.length == 1 && escape.all fun bytes => bytes.length == 1 && bytes != token

/-- Holds if no delimiter that is looked for inside a construct can have the end of the construct
inside it, unless it is that end: the closing delimiter is not a part of a start that nests, nor a
token a part of its escape. -/
def Closing.Stable : Closing → Prop
  | endOfLine => True
  | block stop => stop ≠ []
  | nestedBlock start stop => start ≠ [] ∧ stop ≠ [] ∧ (stop <:+: start → start = stop)
  | quote token escape => token ≠ [] ∧ ∀ mark ∈ escape, token <:+: mark → mark = token
  | boundedQuote token escape _ => token ≠ [] ∧ ∀ mark ∈ escape, ¬ token <:+: mark

/-- Holds of what may stand behind a construct: a line ends in front of a newline or of nothing,
and a literal in which a doubled token is an escape not in front of its token. -/
def Closing.EndsBefore (rest : Bytes) : Closing → Prop
  | endOfLine => ∀ byte ∈ rest.head?, byte = Bytes.newline
  | quote token escape => escape = some token → ¬ token <+: rest
  | block _ | nestedBlock _ _ | boundedQuote _ _ _ => True

/-- Delimiters of such a shape do not have the end of their construct inside them. -/
theorem Closing.stable_of_isLocal {closing : Closing} (hlocal : closing.isLocal = true) :
    closing.Stable := by
  have hnonempty : ∀ {token : Bytes}, token.length = 1 → token ≠ [] := by
    rintro token hlength rfl
    cases hlength
  cases closing with
  | endOfLine => trivial
  | block stop => simpa [isLocal, Stable] using hlocal
  | nestedBlock start stop =>
      simp only [isLocal, Bool.and_eq_true, Bool.not_eq_true', List.isEmpty_eq_false_iff,
        decide_eq_true_eq] at hlocal
      refine ⟨hlocal.1, ?_, fun hinside => (hinside.eq_of_length_le hlocal.2).symm⟩
      rintro rfl
      exact hlocal.1 (List.length_eq_zero_iff.1 (Nat.le_zero.1 hlocal.2))
  | quote token escape =>
      simp only [isLocal, Bool.and_eq_true, beq_iff_eq, Option.all_eq_true] at hlocal
      refine ⟨hnonempty hlocal.1, fun mark hmark hinside => ?_⟩
      have hlength := (hlocal.2 mark hmark).trans hlocal.1.symm
      exact (hinside.eq_of_length_le (Nat.le_of_eq hlength)).symm
  | boundedQuote token escape limit =>
      simp only [isLocal, Bool.and_eq_true, beq_iff_eq, Option.all_eq_true, bne_iff_ne] at hlocal
      refine ⟨hnonempty hlocal.1, fun mark hmark hinside => (hlocal.2 mark hmark).2 ?_⟩
      exact (hinside.eq_of_length_le
        (Nat.le_of_eq ((hlocal.2 mark hmark).1.trans hlocal.1.symm))).symm

/-- A bounded literal closes in the same way whatever is behind it. -/
theorem closeBounded_local {limit : Nat}
    (hstable : (Closing.boundedQuote token escape limit).Stable)
    (hclosed : closeBounded token escape limit (inner ++ rest) = some inner.length) :
    closeBounded token escape limit (inner ++ other) = some inner.length := by
  have hquote := closeQuote_of_closeBounded hclosed
  have hbody := (Option.filter_eq_some_iff.1 hclosed).2
  have hfits : inner.length ≤ limit + token.length :=
    Nat.le_trans (closeQuote_le hquote) (List.length_take_le _ _)
  have hsame : ∀ behind, (inner ++ behind).take (inner.length - token.length) =
      inner.take (inner.length - token.length) := by
    intro behind
    exact List.take_append_of_le_length (Nat.sub_le _ _)
  refine Option.filter_eq_some_iff.2 ⟨?_, ?_⟩
  · rw [take_append_of_le hfits] at hquote ⊢
    refine closeQuote_local hstable.1 ?_ ?_ hquote
    · intro mark hmark hinside
      exact absurd hinside (hstable.2 mark hmark)
    · intro hdouble
      exact absurd (List.infix_refl token) (hstable.2 token hdouble)
  · rw [hsame] at hbody ⊢
    exact hbody

/-- A closed construct is not followed by something that would go on with it. -/
theorem Closing.endsBefore_of_length {closing : Closing} (hstable : closing.Stable)
    (hclosed : closing.length? (inner ++ rest) = some inner.length) : closing.EndsBefore rest := by
  cases closing with
  | endOfLine =>
      have hwhole := Option.some.inj hclosed
      rw [firstLineLength_append (newline_not_mem_of_firstLineLength
        (Nat.le_of_eq hwhole.symm))] at hwhole
      intro byte hbyte
      rcases List.head?_eq_some_iff.1 hbyte with ⟨more, rfl⟩
      by_cases hnewline : byte = Bytes.newline
      · exact hnewline
      · rw [Bytes.firstLineLength, List.takeWhile_cons_of_pos (by simpa using hnewline),
          List.length_cons] at hwhole
        omega
  | quote token escape =>
      rintro rfl
      exact not_prefix_of_closeQuote hstable.1 hclosed
  | block stop | nestedBlock start stop | boundedQuote token escape limit => trivial

/-- A construct closes in the same way in front of everything that does not go on with it. -/
theorem Closing.Stable.length_eq {closing : Closing} (hstable : closing.Stable)
    (hclosed : closing.length? (inner ++ rest) = some inner.length)
    (hbehind : closing.EndsBefore other) :
    closing.length? (inner ++ other) = some inner.length := by
  cases closing with
  | endOfLine =>
      have hline : Bytes.newline ∉ inner :=
        newline_not_mem_of_firstLineLength (Nat.le_of_eq (Option.some.inj hclosed).symm)
      apply congrArg some
      rw [firstLineLength_append hline]
      cases other with
      | nil => rfl
      | cons byte other =>
          rw [hbehind byte rfl, Bytes.firstLineLength, List.takeWhile_cons_of_neg (by decide)]
          rfl
  | block stop => exact closeBlock_local hstable hclosed
  | nestedBlock start stop => exact closeNested_local hstable.1 hstable.2.1 hstable.2.2 hclosed
  | quote token escape => exact closeQuote_local hstable.1 hstable.2 hbehind hclosed
  | boundedQuote token escape limit => exact closeBounded_local hstable hclosed

/-- A construct closes in the same way whatever is behind it, up to the first byte. -/
theorem Closing.length_local {closing : Closing} (hlocal : closing.isLocal = true)
    (hhead : rest.head? = other.head?)
    (hclosed : closing.length? (inner ++ rest) = some inner.length) :
    closing.length? (inner ++ other) = some inner.length := by
  have hstable := stable_of_isLocal hlocal
  have hends := endsBefore_of_length hstable hclosed
  refine hstable.length_eq hclosed ?_
  cases closing with
  | endOfLine =>
      intro byte hbyte
      exact hends byte (hhead ▸ hbyte)
  | quote token escape =>
      intro hdouble hstarts
      simp only [isLocal, Bool.and_eq_true, beq_iff_eq] at hlocal
      rcases List.length_eq_one_iff.1 hlocal.1 with ⟨quote, rfl⟩
      rcases hstarts with ⟨more, rfl⟩
      rcases List.head?_eq_some_iff.1 hhead with ⟨behind, rfl⟩
      exact hends hdouble ⟨behind, rfl⟩
  | block stop | nestedBlock start stop | boundedQuote token escape limit => trivial

end CommentMarkers
