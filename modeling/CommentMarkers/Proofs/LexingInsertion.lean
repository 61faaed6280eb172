import CommentMarkers.Proofs.ReferenceTolerance

/-!
# Cutting a source with an inserted reference

A reference that is inserted into a comment, behind a word of it, becomes a part of that comment.
All other pieces of the source stay what they are.  The proof follows the rounds of the search: the
rounds in front of the comment do not see the reference, the round of the comment closes behind it,
and the rounds behind the comment are the same.

Main results:

- Theorem `nextConstruct_insert`: the search in front of a comment does not see the reference.
- Theorem `Lexes.insert`: a source with an inserted reference is cut in the same way.
-/

namespace CommentMarkers

variable {openers : List Opener} {reference front rest : Bytes} {number : Nat}

/-! ## Openers -/

/-- An opener that occurs in front of a reference occurs whatever is behind the front. -/
theorem occursAt_of_insert {opener : Opener} (hfront : front ≠ [])
    (htolerates : opener.toleratesReferences = true)
    (hreference : IsReference reference (some number))
    (hoccurs : opener.occursAt (front ++ (reference ++ rest)) = true) (other : Bytes) :
    opener.occursAt (front ++ other) = true := by
  simp only [Opener.toleratesReferences, Bool.and_eq_true, Bool.not_eq_true'] at htolerates
  simp only [Opener.occursAt, Bool.and_eq_true, List.isPrefixOf_iff_prefix] at hoccurs ⊢
  have hinside := prefix_of_prefix_append_reference hfront htolerates.1.1 hreference hoccurs.2
  exact ⟨hoccurs.1, hinside.trans (List.prefix_append front other)⟩

/-- Where nothing opens, nothing opens with a reference further on. -/
theorem opening_insert_none (htolerant : Tolerant openers) (hfront : front ≠ [])
    (hreference : IsReference reference (some number))
    (hopening : opening openers (front ++ rest) = none) :
    opening openers (front ++ (reference ++ rest)) = none := by
  unfold opening at hopening ⊢
  rw [List.find?_eq_none] at hopening ⊢
  intro opener hopener hoccurs
  exact hopening opener hopener
    (occursAt_of_insert hfront (htolerant.each opener hopener) hreference hoccurs rest)

/-- What opens in front of a reference opens without it as well, and the other way round. -/
theorem opening_insert_some (htolerant : Tolerant openers) (hfront : front ≠ [])
    (hreference : IsReference reference (some number)) {opener : Opener}
    (htoken : opener.token.length ≤ front.length)
    (hopening : opening openers (front ++ rest) = some opener) :
    opening openers (front ++ (reference ++ rest)) = some opener := by
  unfold opening at hopening ⊢
  rw [List.find?_eq_some_iff_append] at hopening ⊢
  rcases hopening with ⟨hoccurs, before, after, hopeners, hnone⟩
  refine ⟨?_, before, after, hopeners, ?_⟩
  · simp only [Opener.occursAt, isPrefixOf_append htoken] at hoccurs ⊢
    exact hoccurs
  · intro other hother
    have hmem : other ∈ openers := by
      rw [hopeners]
      exact List.mem_append_left _ hother
    rw [Bool.not_eq_true'] at *
    rw [Bool.eq_false_iff]
    intro hoccursNew
    have hoccursOld := occursAt_of_insert hfront (htolerant.each other hmem) hreference
      hoccursNew rest
    have hnot := hnone other hother
    rw [hoccursOld] at hnot
    cases hnot

/-! ## Literals in front of a reference -/

/-- Holds if a text does not begin with a byte that has a meaning in a literal with a limit. -/
def Apart (openers : List Opener) (rest : Bytes) : Prop :=
  ∀ literal ∈ openers, ∀ token escape limit,
    literal.closing = .boundedQuote token escape limit → ∀ byte, rest.head? = some byte →
      byte ∉ token ∧ ∀ bytes ∈ escape, byte ∉ bytes

/-- Blanks have no meaning in a literal with a limit. -/
theorem apart_of_isBoundary (htolerant : Tolerant openers) (hblank : isBoundary rest.head? = true) :
    Apart openers rest := by
  intro literal hliteral token escape limit hclosing byte hbyte
  have htolerates := htolerant.each literal hliteral
  simp only [Opener.toleratesReferences, hclosing, Closing.toleratesReferences, Bool.and_eq_true,
    List.all_eq_true, Option.all_eq_true] at htolerates
  have hnot : isForeign byte ≠ true := by
    rw [hbyte] at hblank
    simp [isForeign, show Bytes.isBlank byte = true from hblank]
  constructor
  · intro hmem
    exact hnot (htolerates.2.1.2 byte hmem)
  · intro bytes hbytes hmem
    exact hnot (htolerates.2.2 bytes hbytes byte hmem)

/-- The closing delimiter of a comment does not begin with a byte that has a meaning in a literal
with a limit. -/
theorem apart_of_terminator (htolerant : Tolerant openers) {comment : Opener}
    (hmem : comment ∈ openers) (hkind : comment.kind.isComment = true)
    (hhead : rest.head? = comment.closing.terminator.head?) : Apart openers rest := by
  intro literal hliteral token escape limit hclosing byte hbyte
  have hapart := htolerant.apart literal hliteral comment hmem
  rw [hhead] at hbyte
  simp only [Opener.keepsApart, hclosing, hkind, hbyte, Bool.not_true, Bool.false_or,
    Option.all_some, Bool.and_eq_true, Bool.not_eq_true', List.contains_eq_mem,
    decide_eq_false_iff_not, Option.all_eq_true] at hapart
  exact hapart

/-- A delimiter that stays code does so with a reference further on. -/
theorem staysCode_insert (htolerant : Tolerant openers) {found : Opener} (hfound : found ∈ openers)
    (hreference : IsReference reference (some number)) (hapart : Apart openers rest)
    (hroom : found.token.length + 2 ≤ front.length)
    (hstays : found.staysCode (front ++ rest) = true) :
    found.staysCode (front ++ (reference ++ rest)) = true := by
  have htolerates := htolerant.each found hfound
  simp only [Opener.toleratesReferences, Bool.and_eq_true] at htolerates
  have hlong : 2 ≤ (front.drop found.token.length).length := by
    rw [List.length_drop]
    omega
  unfold Opener.staysCode at hstays ⊢
  rw [List.drop_append_of_le_length (by omega)] at hstays ⊢
  cases hclosing : found.closing with
  | boundedQuote token escape limit =>
      rw [hclosing] at hstays htolerates
      simp only [Closing.isBounded, Closing.length?, Bool.true_and] at hstays ⊢
      rw [Option.isNone_iff_eq_none, ← Option.not_isSome_iff_eq_none] at hstays ⊢
      intro hcloses
      exact hstays (closeBounded_of_insert htolerates.1.2 htolerates.2 hreference hlong
        (hapart found hfound token escape limit hclosing) hcloses)
  | endOfLine | block stop | nestedBlock start stop | quote token escape =>
      rw [hclosing] at hstays
      cases hstays

/-! ## The search for a construct -/

/-- The search in front of a construct does not see a reference further on. -/
theorem nextConstruct_insert (htolerant : Tolerant openers)
    (hreference : IsReference reference (some number)) (hapart : Apart openers rest)
    {code : Bytes} {opener : Opener} (htoken : opener.token.length ≤ front.length)
    (hfront : 2 ≤ front.length)
    (hopens : opener.staysCode (front ++ (reference ++ rest)) = false)
    (hnext : nextConstruct openers (code ++ (front ++ rest)) = some (code.length, opener)) :
    nextConstruct openers (code ++ (front ++ (reference ++ rest))) =
      some (code.length, opener) := by
  have hne : front ≠ [] := by
    rintro rfl
    cases hfront
  induction hsize : code.length using Nat.strongRecOn generalizing code with
  | ind size ih =>
      cases code with
      | nil =>
          have hopening : opening openers (front ++ rest) = some opener :=
            (nextConstruct_split hnext).1
          have hagain := opening_insert_some htolerant hne hreference htoken hopening
          rw [List.nil_append, nextConstruct_of_some hagain, hopens, ← hsize]
          rfl
      | cons byte code =>
          have hlong : byte :: code ++ front ≠ [] := List.cons_ne_nil _ _
          rw [← List.append_assoc] at hnext
          rw [← List.append_assoc, ← hsize]
          cases hopening : opening openers (byte :: code ++ front ++ rest) with
          | none =>
              -- The byte is code with and without the reference.
              have hagain := opening_insert_none htolerant hlong hreference hopening
              rw [List.cons_append, List.cons_append] at hopening hnext hagain ⊢
              rw [nextConstruct_of_none hopening] at hnext
              rcases Option.map_eq_some_iff.1 hnext with ⟨⟨inner, found⟩, hinner, hsame⟩
              rcases Prod.mk.inj hsame with ⟨hlength, rfl⟩
              have hcode : inner = code.length := Nat.succ.inj hlength
              rw [hcode, List.append_assoc] at hinner
              have hgo := ih code.length (by rw [← hsize]; exact Nat.lt_succ_self _) hinner rfl
              rw [nextConstruct_of_none hagain, List.append_assoc, hgo]
              rfl
          | some found =>
              rw [nextConstruct_of_some hopening] at hnext
              by_cases hstays : found.staysCode (byte :: code ++ front ++ rest) = true
              · -- The token stays code with and without the reference.
                rw [if_pos hstays] at hnext
                rcases Option.map_eq_some_iff.1 hnext with ⟨⟨inner, opener⟩, hinner, hsame⟩
                rcases Prod.mk.inj hsame with ⟨hlength, rfl⟩
                have hpos := (token_prefix_of_opening hopening).2
                have hdrop : ∀ more, (byte :: code ++ front ++ more).drop found.token.length =
                    (byte :: code).drop found.token.length ++ (front ++ more) := by
                  intro more
                  rw [List.append_assoc, List.drop_append_of_le_length (by omega)]
                have hcount : ((byte :: code).drop found.token.length).length = inner := by
                  rw [List.length_drop]
                  omega
                rw [hdrop, ← hcount] at hinner
                have hgo := ih _ (by omega) hinner rfl
                have hroom : found.token.length + 2 ≤ (byte :: code ++ front).length := by
                  rw [List.length_append]
                  omega
                have hagain := opening_insert_some htolerant hlong hreference
                  (Nat.le_trans (Nat.le_add_right _ 2) hroom) hopening
                have hstaysAgain := staysCode_insert htolerant
                  (List.mem_of_find?_eq_some hopening) hreference hapart hroom hstays
                rw [nextConstruct_of_some hagain, if_pos hstaysAgain, hdrop, hgo, hcount]
                simp only [Option.map_some, hlength]
              · rw [if_neg hstays] at hnext
                cases Prod.mk.inj (Option.some.inj hnext)
                contradiction

/-! ## Whole sources -/

variable {grammar : Grammar} {bytes back behind : Bytes} {lexing : Lexing}
  {before after : List Lexeme} {comment : Lexeme}

/-- Only a line comment has no closing delimiter, and it ends in front of a newline or the end of
the source. -/
theorem isBoundary_behind_comment {opener : Opener} {inner : Bytes}
    (hkind : opener.kind.isComment = true)
    (htolerates : opener.closing.toleratesReferences opener.kind = true)
    (hclosed : opener.closing.length? (inner ++ behind) = some inner.length)
    (hempty : opener.closing.terminator = []) : isBoundary behind.head? = true := by
  cases hclosing : opener.closing with
  | endOfLine =>
      rw [hclosing] at hclosed
      have hlength := Option.some.inj hclosed
      rw [firstLineLength_append (newline_not_mem_of_firstLineLength
        (Nat.le_of_eq hlength.symm))] at hlength
      cases behind with
      | nil => rfl
      | cons byte behind =>
          by_cases hbyte : byte = Bytes.newline
          · rw [hbyte]
            rfl
          · rw [Bytes.firstLineLength, List.takeWhile_cons_of_pos (by simpa using hbyte),
              List.length_cons] at hlength
            omega
  | block stop =>
      rw [hclosing] at hempty htolerates
      simp only [Closing.toleratesReferences, Bool.and_eq_true] at htolerates
      exact absurd hempty (ne_nil_of_isQuiet htolerates.2)
  | nestedBlock start stop =>
      rw [hclosing] at hempty htolerates
      simp only [Closing.toleratesReferences, Bool.and_eq_true] at htolerates
      exact absurd hempty (ne_nil_of_isQuiet htolerates.2)
  | quote token escape =>
      rw [hclosing] at htolerates
      simp [Closing.toleratesReferences, hkind] at htolerates
  | boundedQuote token escape limit =>
      rw [hclosing] at htolerates
      simp [Closing.toleratesReferences, hkind] at htolerates

/-- What is behind a place in a comment does not begin with a byte that has a meaning in front of
the comment, if the comment goes on with a blank there or has nothing left but its closing
delimiter. -/
theorem Lexes.apart_behind (htolerant : Tolerant grammar.openers)
    (hlexes : Lexes grammar.openers bytes lexing) (hkind : comment.kind.isComment = true)
    (hsplit : lexing.lexemes = before ++ comment :: after)
    (hbytes : bytes = textOf before ++ (comment.text ++ behind))
    (hcloser : (Text.encode comment.closer).length ≤ back.length)
    (hback : isBoundary back.head? = true ∨ back = Text.encode comment.closer) :
    Apart grammar.openers (back ++ behind) ∧
      (isBoundary (back ++ behind).head? = true ∨
        back.length = (Text.encode comment.closer).length) := by
  rcases hlexes.exists_opener (SpanKind.ne_code_of_isComment hkind) hsplit hbytes with
    ⟨opener, hmem, inner, rfl, hclosed, -⟩
  have hterminator := (Grammar.delimiters_of_mem_openers hmem).2
  have htolerates := htolerant.each opener hmem
  simp only [Opener.toleratesReferences, Bool.and_eq_true] at htolerates
  change opener.kind.isComment = true at hkind
  change (Text.encode opener.closer).length ≤ back.length at hcloser
  change _ ∨ back = Text.encode opener.closer at hback
  change _ ∧ (_ ∨ back.length = (Text.encode opener.closer).length)
  cases back with
  | nil =>
      have hempty := List.length_eq_zero_iff.1 (Nat.le_zero.1 hcloser)
      have hblank := isBoundary_behind_comment hkind htolerates.2 hclosed
        (hterminator.trans hempty)
      exact ⟨apart_of_isBoundary htolerant hblank, Or.inl hblank⟩
  | cons byte back =>
      rcases hback with hblank | hend
      · exact ⟨apart_of_isBoundary htolerant hblank, Or.inl hblank⟩
      · refine ⟨apart_of_terminator htolerant hmem hkind ?_, Or.inr (by rw [hend])⟩
        rw [hterminator, ← hend]
        rfl

/-- The round that finds a comment finds it with a reference in it as well. -/
theorem Lexes.closed_insert (htolerant : Tolerant grammar.openers)
    (hreference : IsReference reference (some number)) {code word rest : Bytes} {opener : Opener}
    (hkind : opener.kind.isComment = true)
    (hnext : nextConstruct grammar.openers (code ++ (opener.token ++ (word ++ (back ++ rest)))) =
      some (code.length, opener))
    (hclosed : opener.closing.length? (word ++ (back ++ rest)) = some (word ++ back).length)
    (hrest : Lexes grammar.openers rest lexing) (hword : 0 < word.length)
    (hcloser : opener.closing.terminator.length ≤ back.length)
    (hplace : isBoundary (back ++ rest).head? = true ∨
      back.length = opener.closing.terminator.length)
    (hapart : Apart grammar.openers (back ++ rest)) :
    Lexes grammar.openers (code ++ (opener.token ++ (word ++ (reference ++ (back ++ rest)))))
      (lexing.prepend (Lexeme.code code ++
        [Lexeme.ofConstruct opener (opener.token ++ (word ++ (reference ++ back)))])) := by
  have hmem := mem_of_nextConstruct hnext
  have htolerates := htolerant.each opener hmem
  simp only [Opener.toleratesReferences, Bool.and_eq_true] at htolerates
  have hpos := (token_prefix_of_opening (opening_of_nextConstruct hnext).1).2
  rw [List.length_append] at hclosed
  have hcloses := Closing.length_insert hkind htolerates.2 hreference hcloser hplace hclosed
  have hopens : opener.staysCode (opener.token ++ word ++ (reference ++ (back ++ rest))) =
      false := by
    rw [Opener.staysCode, List.append_assoc, List.drop_left, hcloses]
    exact Bool.and_false _
  rw [← List.append_assoc opener.token] at hnext
  have hfound := nextConstruct_insert htolerant hreference hapart
    (by rw [List.length_append]; exact Nat.le_add_right _ _)
    (by rw [List.length_append]; omega) hopens hnext
  have hround := Lexes.closed code (word ++ (reference ++ back)) rest opener lexing
    (by simpa using hfound) (by simpa using hcloses) hrest
  simpa using hround

/-- The round that finds a construct in front of a reference finds it without the reference as
well. -/
theorem Lexes.closed_in_front (htolerant : Tolerant grammar.openers)
    (hreference : IsReference reference (some number)) {code inner between rest : Bytes}
    {opener : Opener} (hfront : front ≠ [])
    (hnext : nextConstruct grammar.openers
      (code ++ (opener.token ++ (inner ++ (between ++ (front ++ rest))))) =
        some (code.length, opener))
    (hclosed : opener.closing.length? (inner ++ (between ++ (front ++ rest))) = some inner.length)
    (hapart : Apart grammar.openers rest)
    (hrest : Lexes grammar.openers (between ++ (front ++ (reference ++ rest))) lexing) :
    Lexes grammar.openers
      (code ++ (opener.token ++ (inner ++ (between ++ (front ++ (reference ++ rest))))))
      (lexing.prepend (Lexeme.code code ++
        [Lexeme.ofConstruct opener (opener.token ++ inner)])) := by
  have hmem := mem_of_nextConstruct hnext
  have htolerates := htolerant.each opener hmem
  simp only [Opener.toleratesReferences, Bool.and_eq_true] at htolerates
  have hpos := (token_prefix_of_opening (opening_of_nextConstruct hnext).1).2
  have hsize := List.length_pos_iff.2 hfront
  -- Of what is behind a construct, only the first byte matters.
  have hhead : (between ++ (front ++ rest)).head? =
      (between ++ (front ++ (reference ++ rest))).head? := by
    rcases List.exists_cons_of_ne_nil hfront with ⟨byte, more, rfl⟩
    cases between with
    | nil => rfl
    | cons first others => rfl
  have hcloses := Closing.length_local htolerates.1.2 hhead hclosed
  have hshape : ∀ more, opener.token ++ (inner ++ (between ++ (front ++ more))) =
      opener.token ++ inner ++ between ++ front ++ more := by
    intro more
    simp
  have hopens : opener.staysCode (opener.token ++ inner ++ between ++ front ++
      (reference ++ rest)) = false := by
    rw [← hshape, Opener.staysCode, List.drop_left, hcloses]
    exact Bool.and_false _
  rw [hshape] at hnext
  have hfound := nextConstruct_insert htolerant hreference hapart
    (by simp only [List.length_append]; omega) (by simp only [List.length_append]; omega) hopens
    hnext
  rw [← hshape] at hfound
  exact Lexes.closed code inner _ opener _ hfound hcloses hrest

/-- A reference in a comment changes the text of the comment and nothing else, if what is behind it
has no meaning in front of the comment. -/
theorem Lexes.insert_of_apart (htolerant : Tolerant grammar.openers)
    (hreference : IsReference reference (some number))
    (hlexes : Lexes grammar.openers bytes lexing) (hkind : comment.kind.isComment = true)
    (hsplit : lexing.lexemes = before ++ comment :: after)
    (hbytes : bytes = textOf before ++ (comment.text ++ behind))
    (htext : comment.text = front ++ back)
    (hopener : (Text.encode comment.opener).length < front.length)
    (hcloser : (Text.encode comment.closer).length ≤ back.length)
    (hplace : isBoundary (back ++ behind).head? = true ∨
      back.length = (Text.encode comment.closer).length)
    (hapart : Apart grammar.openers (back ++ behind)) :
    Lexes grammar.openers (textOf before ++ (front ++ (reference ++ (back ++ behind))))
      { lexing with
        lexemes := before ++ comment.withText (front ++ (reference ++ back)) :: after } := by
  induction hlexes generalizing before with
  | code bytes hnext =>
      exact absurd hsplit (code_ne_append_construct (SpanKind.ne_code_of_isComment hkind) _ _ _)
  | unclosed code tail opener hnext hopen =>
      exact absurd hsplit (code_ne_append_construct (SpanKind.ne_code_of_isComment hkind) _ _ _)
  | closed code inner rest opener lexing hnext hclosed hrest ih =>
      rcases construct_cases (SpanKind.ne_code_of_isComment hkind) hsplit with
        ⟨rfl, rfl, rfl⟩ | ⟨inside, rfl, hmore⟩
      · -- The construct of this round is the comment.
        rcases Grammar.delimiters_of_mem_openers (mem_of_nextConstruct hnext) with
          ⟨htoken, hterminator⟩
        change opener.kind.isComment = true at hkind
        change (Text.encode opener.text).length < front.length at hopener
        change (Text.encode opener.closer).length ≤ back.length at hcloser
        change _ ∨ back.length = (Text.encode opener.closer).length at hplace
        rw [Lexeme.text_ofConstruct] at htext
        rw [← htoken] at hopener
        rw [← hterminator] at hcloser hplace
        rw [textOf_code, List.append_cancel_left_eq, Lexeme.text_ofConstruct, List.append_assoc,
          List.append_cancel_left_eq, List.append_cancel_left_eq] at hbytes
        subst hbytes
        obtain ⟨word, rfl⟩ : opener.token <+: front :=
          List.prefix_of_prefix_length_le ⟨inner, rfl⟩ ⟨back, htext.symm⟩ (Nat.le_of_lt hopener)
        rw [List.append_assoc, List.append_cancel_left_eq] at htext
        subst htext
        rw [List.append_assoc word] at hclosed hnext
        rw [List.length_append] at hopener
        have hround := Lexes.closed_insert htolerant hreference hkind hnext hclosed hrest
          (by omega) hcloser hplace hapart
        simpa [Lexing.prepend, Lexeme.withText, Lexeme.ofConstruct] using hround
      · -- The construct of this round is in front of the comment.
        simp only [textOf_append, textOf_code, textOf_cons, textOf_nil, Lexeme.text_ofConstruct,
          List.append_nil, List.append_assoc, List.append_cancel_left_eq] at hbytes
        subst hbytes
        have hagain := ih hmore rfl
        have hne : front ≠ [] := by
          rintro rfl
          cases hopener
        rw [htext, List.append_assoc front] at hnext hclosed
        have hround := Lexes.closed_in_front htolerant hreference hne hnext hclosed hapart hagain
        simpa [Lexing.prepend] using hround

/-- A source with a reference in one of its comments is cut in the same way, and the reference is a
part of that comment.  The reference stands behind the opening delimiter and something else, and in
front of a blank or the end of what the comment says. -/
theorem Lexes.insert (htolerant : Tolerant grammar.openers)
    (hreference : IsReference reference (some number))
    (hlexes : Lexes grammar.openers bytes lexing) (hkind : comment.kind.isComment = true)
    (hsplit : lexing.lexemes = before ++ comment :: after)
    (hbytes : bytes = textOf before ++ (comment.text ++ behind))
    (htext : comment.text = front ++ back)
    (hopener : (Text.encode comment.opener).length < front.length)
    (hcloser : (Text.encode comment.closer).length ≤ back.length)
    (hback : isBoundary back.head? = true ∨ back = Text.encode comment.closer) :
    Lexes grammar.openers (textOf before ++ (front ++ (reference ++ (back ++ behind))))
      { lexing with
        lexemes := before ++ comment.withText (front ++ (reference ++ back)) :: after } := by
  rcases hlexes.apart_behind htolerant hkind hsplit hbytes hcloser hback with ⟨hapart, hplace⟩
  exact hlexes.insert_of_apart htolerant hreference hkind hsplit hbytes htext hopener hcloser
    hplace hapart

end CommentMarkers
