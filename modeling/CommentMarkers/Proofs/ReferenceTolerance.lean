import CommentMarkers.Grammar.Builtin
import CommentMarkers.Proofs.ClosingLocality
import CommentMarkers.Proofs.References

/-!
# Delimiters that tolerate references

A reference may be inserted into a comment without changing how the source is cut only if its bytes
do not make up a delimiter, alone or together with their neighbours.  This file states what this
asks of the delimiters of a grammar as a check, and proves what follows for closing a comment and
for literals with a limit, which look ahead to see whether they close at all.

Main results:

- Theorem `Closing.length_insert`: a comment closes at the same place behind an inserted reference.
- Theorem `closeBounded_of_insert`: a literal does not begin to close because of a reference.
- Theorem `Grammar.builtin_tolerant`: the built-in grammars pass the check.
-/

namespace CommentMarkers

/-! ## Delimiters -/

/-- The byte that begins a reference. -/
def referenceStart : UInt8 := 40

/-- Holds of tokens whose first two bytes do not occur in a reference, or only behind it. -/
def ignoresReferences : Bytes → Bool
  | first :: second :: _ =>
    !Bytes.isDigit first && first != IssueReference.closing &&
      !(first == referenceStart && second == 35) && !(first == 35 && Bytes.isDigit second)
  | _ => false

/-- Holds of delimiters inside comments that neither begin in a reference, nor reach into one, nor
have blanks. -/
def isQuiet (token : Bytes) : Bool :=
  ignoresReferences token && !token.tail.contains referenceStart && !token.any Bytes.isBlank

/-- Holds of bytes that are neither blank nor in a reference. -/
def isForeign (byte : UInt8) : Bool :=
  !Bytes.isDigit byte && byte != referenceStart && byte != 35 && byte != IssueReference.closing &&
    !Bytes.isBlank byte

/-- Holds if a reference in a comment, or in front of a literal with a limit, cannot be mistaken
for a delimiter.  Comments close at the end of the line or with a quiet delimiter. -/
def Closing.toleratesReferences (kind : SpanKind) : Closing → Bool
  | endOfLine => kind == .lineComment
  | block stop => kind == .blockComment && isQuiet stop
  | nestedBlock start stop => kind == .blockComment && isQuiet start && isQuiet stop
  | quote _ _ => !kind.isComment
  | boundedQuote token escape _ =>
    !kind.isComment && token.all isForeign && escape.all (·.all isForeign)

/-- Holds if nothing about an opener makes references look like delimiters. -/
def Opener.toleratesReferences (opener : Opener) : Bool :=
  !opener.token.tail.contains referenceStart && opener.closing.isLocal &&
    opener.closing.toleratesReferences opener.kind

/-- Holds if the closing delimiter of a comment does not begin with a byte that has a meaning in a
literal with a limit. -/
def Opener.keepsApart (literal comment : Opener) : Bool :=
  match literal.closing with
  | .boundedQuote token escape _ =>
    !comment.kind.isComment || comment.closing.terminator.head?.all fun byte =>
      !token.contains byte && escape.all fun bytes => !bytes.contains byte
  | _ => true

/-- Openers that tolerate references in comments. -/
structure Tolerant (openers : List Opener) : Prop where
  each : ∀ opener ∈ openers, opener.toleratesReferences = true
  apart : ∀ literal ∈ openers, ∀ comment ∈ openers, literal.keepsApart comment = true

/-- The built-in grammars tolerate references in comments. -/
theorem Grammar.builtin_tolerant : ∀ grammar ∈ Grammar.builtin, Tolerant grammar.openers := by
  have hchecked : ∀ grammar ∈ Grammar.builtin,
      grammar.openers.all (·.toleratesReferences) = true ∧
        (grammar.openers.all fun literal => grammar.openers.all literal.keepsApart) = true := by
    decide +kernel
  intro grammar hgrammar
  rcases hchecked grammar hgrammar with ⟨heach, hapart⟩
  refine ⟨List.all_eq_true.1 heach, fun literal hliteral => ?_⟩
  exact List.all_eq_true.1 (List.all_eq_true.1 hapart literal hliteral)

/-! ## References and tokens -/

variable {reference rest : Bytes} {number : Nat}

/-- The byte that begins a reference, and what is behind it. -/
theorem IsReference.eq_cons (hreference : IsReference reference (some number)) :
    ∃ digits, digits ≠ [] ∧ (∀ digit ∈ digits, Bytes.isDigit digit) ∧
      reference = referenceStart :: 35 :: (digits ++ [IssueReference.closing]) := by
  cases hreference with
  | present digits hne hdigits => exact ⟨digits, hne, hdigits, rfl⟩

/-- The bytes of a reference are not foreign to it. -/
theorem IsReference.not_isForeign (hreference : IsReference reference (some number)) :
    ∀ byte ∈ reference, isForeign byte = false := by
  rcases hreference.eq_cons with ⟨digits, -, hdigits, rfl⟩
  intro byte hbyte
  simp only [List.mem_cons, List.mem_append, List.not_mem_nil, or_false] at hbyte
  rcases hbyte with rfl | rfl | hdigit | rfl
  · rfl
  · rfl
  · simp [isForeign, hdigits byte hdigit]
  · rfl

/-- A token that does not reach into a reference begins in front of it. -/
theorem prefix_of_prefix_append_reference {token front : Bytes} (hfront : front ≠ [])
    (htail : token.tail.contains referenceStart = false)
    (hreference : IsReference reference (some number))
    (hstarts : token <+: front ++ (reference ++ rest)) : token <+: front := by
  rcases hreference.eq_cons with ⟨digits, -, -, rfl⟩
  rcases Nat.lt_or_ge front.length token.length with hlong | hshort
  · obtain ⟨more, rfl⟩ := List.prefix_of_prefix_length_le (List.prefix_append front _) hstarts
      (Nat.le_of_lt hlong)
    have hmore := (List.prefix_append_right_inj front).1 hstarts
    rw [List.length_append] at hlong
    obtain ⟨byte, more, rfl⟩ := List.exists_cons_of_ne_nil
      (List.length_pos_iff.1 (Nat.pos_of_lt_add_right hlong))
    rcases List.cons_prefix_cons.1 hmore with ⟨rfl, -⟩
    rw [List.tail_append_of_ne_nil hfront] at htail
    simp at htail
  · exact List.prefix_of_prefix_length_le hstarts (List.prefix_append front _) hshort

/-- A token whose first bytes do not occur in a reference does not begin in one. -/
theorem not_prefix_in_reference (rest : Bytes) {token suffix : Bytes}
    (hignores : ignoresReferences token = true)
    (hreference : IsReference reference (some number)) (hsuffix : suffix <:+ reference)
    (hne : suffix ≠ []) : ¬ token <+: suffix ++ rest := by
  intro hstarts
  rcases hreference.eq_cons with ⟨digits, hdigits, hall, rfl⟩
  rcases List.exists_cons_of_ne_nil hne with ⟨byte, inner, rfl⟩
  match token, hignores with
  | first :: second :: more, hignores =>
      simp only [ignoresReferences, Bool.and_eq_true, Bool.not_eq_true', bne_iff_ne,
        Bool.and_eq_false_iff, beq_eq_false_iff_ne] at hignores
      rcases hignores with ⟨⟨⟨hdigit, hclosing⟩, hstart⟩, hnumber⟩
      rcases List.cons_prefix_cons.1 hstarts with ⟨rfl, hsecond⟩
      rcases List.suffix_cons_iff.1 hsuffix with hwhole | hsuffix
      · rcases List.cons.inj hwhole with ⟨rfl, rfl⟩
        rcases List.cons_prefix_cons.1 hsecond with ⟨rfl, -⟩
        simp at hstart
      · rcases List.suffix_cons_iff.1 hsuffix with hwhole | hsuffix
        · rcases List.cons.inj hwhole with ⟨rfl, rfl⟩
          rcases List.exists_cons_of_ne_nil hdigits with ⟨digit, others, rfl⟩
          rcases List.cons_prefix_cons.1 hsecond with ⟨rfl, -⟩
          have hfirst := hall second List.mem_cons_self
          simp [hfirst] at hnumber
        · have hmem := hsuffix.subset List.mem_cons_self
          rcases List.mem_append.1 hmem with hinside | hlast
          · rw [hall first hinside] at hdigit
            cases hdigit
          · exact hclosing (List.mem_singleton.1 hlast)

/-! ## Comments -/

/-- Where a mode steps over the bytes of a text one by one, the text only adds its length. -/
theorem Mode.length_skip (mode : Mode) (hproper : mode.Proper) {text : Bytes}
    (hmoves : ∀ suffix, suffix <:+ text → suffix ≠ [] →
      mode.move (suffix ++ rest) = .stay 1 mode) :
    mode.length? (text ++ rest) = (mode.length? rest).map (· + text.length) := by
  induction text with
  | nil => exact Option.map_id'.symm
  | cons byte text ih =>
      have hfirst := hproper.move_agrees (byte :: text ++ rest)
      rw [hmoves (byte :: text) (List.suffix_refl _) (List.cons_ne_nil _ _)] at hfirst
      rcases hfirst with ⟨-, -, -, hlength⟩
      have hrest := ih fun suffix hsuffix =>
        hmoves suffix (hsuffix.trans (List.suffix_cons byte text))
      rw [hlength]
      change (mode.length? (text ++ rest)).map (· + 1) = _
      rw [hrest, Option.map_map]
      rfl

/-- What is known of a quiet delimiter. -/
theorem isQuiet_iff {token : Bytes} :
    isQuiet token = true ↔ ignoresReferences token = true ∧
      token.tail.contains referenceStart = false ∧ ∀ byte ∈ token, Bytes.isBlank byte = false := by
  simp only [isQuiet, Bool.and_eq_true, Bool.not_eq_true', List.any_eq_false, and_assoc,
    Bool.not_eq_true]

/-- A quiet delimiter is not empty. -/
theorem ne_nil_of_isQuiet {token : Bytes} (hquiet : isQuiet token = true) : token ≠ [] := by
  rintro rfl
  cases hquiet

/-- A text behind which a marker would stand alone has a delimiter without blanks inside it, or
not at all. -/
theorem length_le_of_prefix_append_blank {token front : Bytes}
    (hsolid : ∀ byte ∈ token, Bytes.isBlank byte = false)
    (hblank : isBoundary rest.head? = true) (hstarts : token <+: front ++ rest) :
    token.length ≤ front.length := by
  rcases Nat.lt_or_ge front.length token.length with hlong | hshort
  · obtain ⟨more, rfl⟩ := List.prefix_of_prefix_length_le (List.prefix_append front _) hstarts
      (Nat.le_of_lt hlong)
    have hmore := (List.prefix_append_right_inj front).1 hstarts
    rw [List.length_append] at hlong
    obtain ⟨byte, more, rfl⟩ := List.exists_cons_of_ne_nil
      (List.length_pos_iff.1 (Nat.pos_of_lt_add_right hlong))
    rcases hmore with ⟨behind, rfl⟩
    have hbyte := hsolid byte (List.mem_append_right _ List.mem_cons_self)
    rw [show Bytes.isBlank byte = true from hblank] at hbyte
    cases hbyte
  · exact hshort

/-- A mode whose delimiters are quiet steps over a reference byte by byte. -/
theorem closeBlock_reference {stop : Bytes} (hquiet : isQuiet stop = true)
    (hreference : IsReference reference (some number)) :
    closeBlock stop (reference ++ rest) = (closeBlock stop rest).map (· + reference.length) := by
  refine Mode.length_skip (.block stop) trivial fun suffix hsuffix hne => ?_
  have hnone := not_prefix_in_reference rest (isQuiet_iff.1 hquiet).1 hreference hsuffix hne
  simp [Mode.move, hne, List.isPrefixOf_iff_prefix, hnone]

/-- A nested comment is not affected by a reference in front of the rest of it. -/
theorem closeNested_reference {start stop : Bytes} (hstart : isQuiet start = true)
    (hstop : isQuiet stop = true) (depth : Nat)
    (hreference : IsReference reference (some number)) :
    closeNested start stop depth (reference ++ rest) =
      (closeNested start stop depth rest).map (· + reference.length) := by
  refine Mode.length_skip (.nestedBlock start stop depth)
    ⟨ne_nil_of_isQuiet hstart, ne_nil_of_isQuiet hstop⟩ fun suffix hsuffix hne => ?_
  have hnoStart := not_prefix_in_reference rest (isQuiet_iff.1 hstart).1 hreference
    hsuffix hne
  have hnoStop := not_prefix_in_reference rest (isQuiet_iff.1 hstop).1 hreference
    hsuffix hne
  simp [Mode.move, hne, List.isPrefixOf_iff_prefix, hnoStart, hnoStop]

variable {front : Bytes} {left : Nat}

/-- A block comment closes at the same place behind an inserted reference. -/
theorem closeBlock_insert {stop : Bytes} (hquiet : isQuiet stop = true)
    (hreference : IsReference reference (some number)) (hleft : stop.length ≤ left)
    (hclosed : closeBlock stop (front ++ rest) = some (front.length + left)) :
    closeBlock stop (front ++ (reference ++ rest)) =
      some (front.length + (reference.length + left)) := by
  obtain ⟨behind, rfl, hrest, hgo⟩ := Mode.passes (· = .block stop) (reference ++ rest)
    (by rintro mode rfl; trivial)
    (by rintro mode bytes count behind rfl hmove; exact move_block_stay hmove)
    (by
      rintro mode front rfl hfront -
      refine alike_block hfront hleft fun hstarts => ?_
      have hinside := prefix_of_prefix_append_reference hfront (isQuiet_iff.1 hquiet).2.1
        hreference hstarts
      exact hinside.trans (List.prefix_append front rest))
    rfl hclosed
  apply hgo.trans
  change (closeBlock stop (reference ++ rest)).map _ = _
  rw [closeBlock_reference hquiet hreference, show closeBlock stop rest = some left from hrest]
  simp only [Option.map_some, Option.some.injEq]
  omega

/-- A nested comment closes at the same place behind a reference that is inserted in front of a
blank or of the closing delimiter. -/
theorem closeNested_insert {start stop : Bytes} {depth : Nat} (hstart : isQuiet start = true)
    (hstop : isQuiet stop = true) (hreference : IsReference reference (some number))
    (hleft : stop.length ≤ left) (hplace : isBoundary rest.head? = true ∨ left = stop.length)
    (hclosed : closeNested start stop depth (front ++ rest) = some (front.length + left)) :
    closeNested start stop depth (front ++ (reference ++ rest)) =
      some (front.length + (reference.length + left)) := by
  rcases isQuiet_iff.1 hstart with ⟨-, hstartTail, hstartSolid⟩
  rcases isQuiet_iff.1 hstop with ⟨-, hstopTail, hstopSolid⟩
  have hproper : ∀ depth, (Mode.nestedBlock start stop depth).Proper := fun _ =>
    ⟨ne_nil_of_isQuiet hstart, ne_nil_of_isQuiet hstop⟩
  obtain ⟨behind, ⟨inner, rfl⟩, hrest, hgo⟩ := Mode.passes
    (fun mode => ∃ depth, mode = .nestedBlock start stop depth) (reference ++ rest)
    (by rintro mode ⟨depth, rfl⟩; exact hproper depth)
    (by rintro mode bytes count behind ⟨depth, rfl⟩ hmove; exact move_nestedBlock_stay hmove)
    (by
      rintro mode front ⟨depth, rfl⟩ hfront hlength
      refine alike_nestedBlock hfront (hproper depth) hleft ?_ ?_ hlength
      · intro token htoken hstarts
        have htail : token.tail.contains referenceStart = false := by
          rcases htoken with rfl | rfl
          · exact hstartTail
          · exact hstopTail
        have hinside := prefix_of_prefix_append_reference hfront htail hreference hstarts
        exact hinside.trans (List.prefix_append front rest)
      · rcases hplace with hblank | hend
        · refine Or.inr fun token htoken hstarts => ?_
          have hsolid : ∀ byte ∈ token, Bytes.isBlank byte = false := by
            rcases htoken with rfl | rfl
            · exact hstartSolid
            · exact hstopSolid
          exact length_le_of_prefix_append_blank hsolid hblank hstarts
        · exact Or.inl hend)
    ⟨depth, rfl⟩ hclosed
  apply hgo.trans
  change (closeNested start stop inner (reference ++ rest)).map _ = _
  rw [closeNested_reference hstart hstop inner hreference,
    show closeNested start stop inner rest = some left from hrest]
  simp only [Option.map_some, Option.some.injEq]
  omega

/-- A comment closes at the same place behind an inserted reference, if the reference stands in
front of a blank, the end of the source or the closing delimiter. -/
theorem Closing.length_insert {closing : Closing} {kind : SpanKind}
    (hkind : kind.isComment = true) (htolerates : closing.toleratesReferences kind = true)
    (hreference : IsReference reference (some number)) (hleft : closing.terminator.length ≤ left)
    (hplace : isBoundary rest.head? = true ∨ left = closing.terminator.length)
    (hclosed : closing.length? (front ++ rest) = some (front.length + left)) :
    closing.length? (front ++ (reference ++ rest)) =
      some (front.length + (reference.length + left)) := by
  cases closing with
  | endOfLine =>
      have hwhole := Option.some.inj hclosed
      have hline : Bytes.newline ∉ front :=
        newline_not_mem_of_firstLineLength (by rw [hwhole]; exact Nat.le_add_right _ _)
      have hsolid : Bytes.newline ∉ reference := by
        intro hmem
        have hblank := hreference.solid _ hmem
        cases hblank
      rw [firstLineLength_append hline] at hwhole
      apply congrArg some
      rw [firstLineLength_append hline, firstLineLength_append hsolid]
      omega
  | block stop =>
      simp only [toleratesReferences, Bool.and_eq_true] at htolerates
      exact closeBlock_insert htolerates.2 hreference hleft hclosed
  | nestedBlock start stop =>
      simp only [toleratesReferences, Bool.and_eq_true] at htolerates
      exact closeNested_insert htolerates.1.2 htolerates.2 hreference hleft hplace hclosed
  | quote token escape =>
      simp only [toleratesReferences, hkind] at htolerates
      cases htolerates
  | boundedQuote token escape limit =>
      simp only [toleratesReferences, hkind] at htolerates
      cases htolerates

/-! ## Literals with a limit -/

/-- The bytes that follow a lead byte are no ASCII bytes. -/
theorem le_of_mem_take_readFollowers {low high : UInt8} (hlow : 128 ≤ low) (count code : Nat)
    (bytes : Bytes) :
    ∀ byte ∈ bytes.take (Text.readFollowers low high count code bytes).2, 128 ≤ byte := by
  induction count generalizing low high code bytes with
  | zero => simp [Text.readFollowers]
  | succ count ih =>
      cases bytes with
      | nil => simp [Text.readFollowers]
      | cons first bytes =>
          simp only [Text.readFollowers]
          split
          · rename_i hrange
            simp only [Bool.and_eq_true, decide_eq_true_eq] at hrange
            intro byte hbyte
            rw [List.take_succ_cons] at hbyte
            rcases List.mem_cons.1 hbyte with rfl | hmore
            · exact UInt8.le_trans hlow hrange.1
            · exact ih (by decide) _ _ byte hmore
          · simp

/-- The bytes that may follow a lead byte are no ASCII bytes. -/
theorem le_of_followers {lead low high : UInt8} {count : Nat}
    (hfollowers : Text.followers lead = some (count, low, high)) : 128 ≤ low := by
  unfold Text.followers at hfollowers
  repeat' split at hfollowers
  all_goals cases hfollowers <;> decide

/-- A character with more than one byte has no ASCII bytes behind its first one. -/
theorem le_of_isSingleChar {lead : UInt8} {bytes : Bytes}
    (hsingle : Text.isSingleChar (lead :: bytes) = true) : ∀ byte ∈ bytes, 128 ≤ byte := by
  have hread : ∀ byte ∈ bytes.take (Text.readChar lead bytes).2, 128 ≤ byte := by
    unfold Text.readChar
    split
    · simp
    · cases hfollowers : Text.followers lead with
      | none => simp
      | some range =>
          rcases range with ⟨count, low, high⟩
          exact le_of_mem_take_readFollowers (le_of_followers hfollowers) count _ bytes
  have hall : bytes.drop (Text.readChar lead bytes).2 = [] := by
    rw [Text.isSingleChar, Text.decodeChars?] at hsingle
    split at hsingle
    · rename_i char read hchar
      rw [hchar]
      cases hdrop : bytes.drop read with
      | nil => rfl
      | cons next more =>
          rw [hdrop, Text.decodeChars?] at hsingle
          split at hsingle
          · cases hmore : Text.decodeChars? (more.drop _) <;> rw [hmore] at hsingle <;>
              simp at hsingle
          · simp at hsingle
    · simp at hsingle
  rw [List.take_of_length_le (List.drop_eq_nil_iff.1 hall)] at hread
  exact hread

/-- One step of the search for the end of a literal whose delimiters are two different bytes. -/
theorem closeQuote_cons {quote mark : UInt8} (hne : mark ≠ quote) (byte : UInt8) (rest : Bytes) :
    closeQuote [quote] (some [mark]) (byte :: rest) =
      if mark = byte ∧ rest ≠ [] then (closeQuote [quote] (some [mark]) rest.tail).map (· + 2)
      else if quote = byte then some 1
      else (closeQuote [quote] (some [mark]) rest).map (· + 1) := by
  have hescape : escapeLength [quote] (some [mark]) (byte :: rest) =
      if mark = byte ∧ rest ≠ [] then some 2 else none := by
    unfold escapeLength
    simp [hne]
  rw [closeQuote, hescape]
  by_cases hmark : mark = byte ∧ rest ≠ []
  · rw [if_pos hmark, if_pos hmark]
    simp [List.drop_one]
  · rw [if_neg hmark, if_neg hmark]
    simp

variable {quote mark : UInt8}

/-- Bytes that are no delimiters only add their length to a literal. -/
theorem closeQuote_append_plain (hne : mark ≠ quote) {text : Bytes}
    (hplain : ∀ byte ∈ text, byte ≠ quote ∧ byte ≠ mark) (rest : Bytes) :
    closeQuote [quote] (some [mark]) (text ++ rest) =
      (closeQuote [quote] (some [mark]) rest).map (· + text.length) := by
  induction text with
  | nil => exact Option.map_id'.symm
  | cons byte text ih =>
      rcases List.forall_mem_cons.1 hplain with ⟨⟨hquote, hmark⟩, hmore⟩
      rw [List.cons_append, closeQuote_cons hne, if_neg fun hboth => hmark hboth.1.symm,
        if_neg (Ne.symm hquote), ih hmore, Option.map_map]
      rfl

/-- A literal that ends inside a text ends there in every text that begins with it. -/
theorem closeQuote_of_shorter (hne : mark ≠ quote) {text longer : Bytes} {length : Nat}
    (hstarts : text <+: longer) (hclosed : closeQuote [quote] (some [mark]) text = some length) :
    closeQuote [quote] (some [mark]) longer = some length := by
  rcases hstarts with ⟨more, rfl⟩
  obtain ⟨inner, rest, rfl, rfl⟩ : ∃ inner rest, text = inner ++ rest ∧ inner.length = length :=
    ⟨text.take length, text.drop length, (List.take_append_drop _ _).symm,
      List.length_take_of_le (closeQuote_le hclosed)⟩
  rw [List.append_assoc]
  refine closeQuote_local (List.cons_ne_nil _ _) ?_ ?_ hclosed
  · rintro bytes ⟨rfl⟩ hinside
    exact (hinside.eq_of_length_le (Nat.le_refl _)).symm
  · intro hdouble
    exact absurd (List.cons.inj (Option.some.inj hdouble)).1 hne

/-- An escape makes no difference in front of a byte that is no delimiter. -/
theorem closeQuote_cons_mark (hne : mark ≠ quote)
    (hrest : ∀ byte, rest.head? = some byte → byte ≠ quote ∧ byte ≠ mark) {length : Nat}
    (hclosed : closeQuote [quote] (some [mark]) rest = some length) :
    closeQuote [quote] (some [mark]) (mark :: rest) = some (length + 1) := by
  cases rest with
  | nil =>
      rw [closeQuote] at hclosed
      cases hclosed
  | cons byte rest =>
      rcases hrest byte rfl with ⟨hquote, hmark⟩
      rw [closeQuote_cons hne, if_neg fun hboth => hmark hboth.1.symm, if_neg (Ne.symm hquote)]
        at hclosed
      rcases Option.map_eq_some_iff.1 hclosed with ⟨inner, hinner, rfl⟩
      rw [closeQuote_cons hne, if_pos ⟨rfl, List.cons_ne_nil _ _⟩, List.tail_cons, hinner]
      rfl

/-- A literal that reaches past a reference ends at the same place without the reference, if no
delimiter follows it. -/
theorem closeQuote_remove (hne : mark ≠ quote)
    (hreference : ∀ byte ∈ reference, byte ≠ quote ∧ byte ≠ mark) (hnonempty : reference ≠ [])
    (hrest : ∀ byte, rest.head? = some byte → byte ≠ quote ∧ byte ≠ mark) {length : Nat}
    (hbeyond : front.length + reference.length < length)
    (hclosed : closeQuote [quote] (some [mark]) (front ++ (reference ++ rest)) = some length) :
    closeQuote [quote] (some [mark]) (front ++ rest) = some (length - reference.length) := by
  induction hsize : front.length using Nat.strongRecOn generalizing front length with
  | ind size ih =>
      rcases front with _ | ⟨byte, front⟩
      · rw [List.nil_append, closeQuote_append_plain hne hreference] at hclosed
        rcases Option.map_eq_some_iff.1 hclosed with ⟨inner, hinner, rfl⟩
        rw [List.nil_append, hinner, Nat.add_sub_cancel]
      · have hbehind : front ++ (reference ++ rest) ≠ [] :=
          List.append_ne_nil_of_right_ne_nil _ (List.append_ne_nil_of_left_ne_nil hnonempty _)
        rw [List.cons_append, closeQuote_cons hne] at hclosed ⊢
        rw [List.length_cons] at hbeyond hsize
        by_cases hmark : mark = byte
        · rw [if_pos ⟨hmark, hbehind⟩] at hclosed
          rcases Option.map_eq_some_iff.1 hclosed with ⟨inner, hinner, rfl⟩
          rcases front with _ | ⟨next, front⟩
          · -- The escape takes the first byte of the reference, and without it the one behind.
            rcases List.exists_cons_of_ne_nil hnonempty with ⟨first, more, rfl⟩
            rw [List.nil_append, List.cons_append, List.tail_cons,
              closeQuote_append_plain hne (List.forall_mem_cons.1 hreference).2] at hinner
            rcases Option.map_eq_some_iff.1 hinner with ⟨length, hlength, rfl⟩
            have hescaped := closeQuote_cons_mark hne hrest hlength
            rw [hmark, closeQuote_cons (hmark ▸ hne)] at hescaped
            subst hmark
            rw [List.nil_append, hescaped, List.length_cons]
            simp only [Option.some.injEq]
            omega
          · rw [List.cons_append, List.tail_cons] at hinner
            rw [if_pos ⟨hmark, List.append_ne_nil_of_left_ne_nil (List.cons_ne_nil _ _) _⟩,
              List.cons_append, List.tail_cons, ih front.length (by simp at hsize; omega)
                (by simp at hbeyond; omega) hinner rfl]
            simp only [Option.map_some, Option.some.injEq]
            simp only [List.length_cons] at hbeyond
            omega
        · rw [if_neg fun hboth => hmark hboth.1] at hclosed ⊢
          by_cases hquote : quote = byte
          · rw [if_pos hquote] at hclosed
            have hone := Option.some.inj hclosed
            omega
          · rw [if_neg hquote] at hclosed ⊢
            rcases Option.map_eq_some_iff.1 hclosed with ⟨inner, hinner, rfl⟩
            rw [ih front.length (by omega) (by omega) hinner rfl]
            simp only [Option.map_some, Option.some.injEq]
            omega

/-- A body with a reference in it, and with something in front of the reference, is no single
character. -/
theorem not_isSingleChar_of_reference (hreference : IsReference reference (some number))
    (hfront : front ≠ []) (behind : Bytes) :
    Text.isSingleChar (front ++ (reference ++ behind)) = false := by
  rw [Bool.eq_false_iff]
  intro hsingle
  rcases hreference.eq_cons with ⟨digits, -, -, rfl⟩
  rcases List.exists_cons_of_ne_nil hfront with ⟨lead, front, rfl⟩
  have hstart := le_of_isSingleChar hsingle referenceStart (by simp)
  exact absurd hstart (by decide)

/-- A body with a reference in it is an escape sequence, and it is one without the reference. -/
theorem isCharacterBody_remove {escape : Option Bytes} {behind : Bytes}
    (hreference : IsReference reference (some number))
    (hescape : ∀ bytes ∈ escape, bytes.length = 1) (hfront : 2 ≤ front.length)
    (hbody : isCharacterBody escape (front ++ (reference ++ behind)) = true) :
    (∃ mark, escape = some [mark]) ∧ isCharacterBody escape (front ++ behind) = true := by
  have hne : front ≠ [] := by
    rintro rfl
    cases hfront
  have hchar := not_isSingleChar_of_reference hreference hne behind
  cases escape with
  | none =>
      rw [isCharacterBody, hchar] at hbody
      cases hbody
  | some escape =>
      rcases List.length_eq_one_iff.1 (hescape escape rfl) with ⟨mark, rfl⟩
      have hsize : [mark].length ≤ front.length := Nat.le_of_lt hfront
      refine ⟨⟨mark, rfl⟩, ?_⟩
      unfold isCharacterBody at hbody ⊢
      simp only at hbody ⊢
      rw [isPrefixOf_append hsize] at hbody ⊢
      by_cases hstarts : [mark].isPrefixOf front = true
      · rw [if_pos hstarts] at hbody ⊢
        simp only [Bool.and_eq_true, List.any_append, Bool.not_eq_true', Bool.or_eq_false_iff,
          decide_eq_true_eq, List.length_append] at hbody ⊢
        exact ⟨Nat.lt_of_lt_of_le hfront (Nat.le_add_right _ _), hbody.2.1, hbody.2.2.2⟩
      · rw [if_neg hstarts, hchar] at hbody
        cases hbody

/-- Taking more than a front and a reference takes a part of what is behind them. -/
theorem take_append_append {length : Nat} (hbeyond : front.length + reference.length ≤ length)
    (behind : Bytes) :
    (front ++ (reference ++ behind)).take length =
      front ++ (reference ++ behind.take (length - (front.length + reference.length))) := by
  rw [List.take_append, List.take_of_length_le (by omega), List.take_append,
    List.take_of_length_le (by omega), Nat.sub_sub]

/-- A literal that ends behind the front of a reference ends behind all of it. -/
theorem lt_length_of_ends {behind : Bytes} {length : Nat} (hforeign : quote ∉ reference)
    (hends : [quote] <:+ (front ++ (reference ++ behind)).take length)
    (hbeyond : front.length < length) : front.length + reference.length < length := by
  rcases Nat.lt_or_ge (front.length + reference.length) length with hlong | hshort
  · exact hlong
  · rw [List.take_append, List.take_of_length_le (Nat.le_of_lt hbeyond),
      List.take_append_of_le_length (by omega)] at hends
    rcases hends with ⟨before, hbefore⟩
    have hlast := congrArg List.getLast? hbefore
    rw [List.getLast?_append, List.getLast?_append] at hlast
    cases htake : (reference.take (length - front.length)).getLast? with
    | none =>
        have hnil := List.getLast?_eq_none_iff.1 htake
        have hcount := congrArg List.length hnil
        rw [List.length_take, List.length_nil] at hcount
        omega
    | some byte =>
        rw [htake] at hlast
        have hbyte : quote = byte := Option.some.inj hlast
        have hmem := List.mem_of_getLast? htake
        rw [← hbyte] at hmem
        exact absurd (List.mem_of_mem_take hmem) hforeign

/-- A literal with a limit that does not close does not begin to close because of a reference that
is inserted further on. -/
theorem closeBounded_of_insert {token : Bytes} {escape : Option Bytes} {limit : Nat}
    {kind : SpanKind} (hlocal : (Closing.boundedQuote token escape limit).isLocal = true)
    (htolerates : (Closing.boundedQuote token escape limit).toleratesReferences kind = true)
    (hreference : IsReference reference (some number)) (hfront : 2 ≤ front.length)
    (hrest : ∀ byte, rest.head? = some byte →
      byte ∉ token ∧ ∀ bytes ∈ escape, byte ∉ bytes)
    (hclosed : (closeBounded token escape limit (front ++ (reference ++ rest))).isSome = true) :
    (closeBounded token escape limit (front ++ rest)).isSome = true := by
  rcases Option.isSome_iff_exists.1 hclosed with ⟨length, hlength⟩
  rcases Nat.lt_or_ge front.length length with hbeyond | hinside
  · -- The literal closes behind the reference, so it closes without the reference as well.
    simp only [Closing.isLocal, Bool.and_eq_true, beq_iff_eq, Option.all_eq_true, bne_iff_ne]
      at hlocal
    simp only [Closing.toleratesReferences, Bool.and_eq_true, Option.all_eq_true, List.all_eq_true]
      at htolerates
    rcases List.length_eq_one_iff.1 hlocal.1 with ⟨quote, rfl⟩
    have hforeign : ∀ byte, isForeign byte = true → byte ∉ reference := by
      intro byte hbyte hmem
      rw [hreference.not_isForeign byte hmem] at hbyte
      cases hbyte
    have hquote := hforeign quote (htolerates.1.2 quote List.mem_cons_self)
    rcases Option.filter_eq_some_iff.1 hlength with ⟨hscan, hbody⟩
    have hfits := closeQuote_le hscan
    rw [List.length_take] at hfits
    have hends := closeQuote_ends hscan
    rw [List.take_take, Nat.min_eq_left (by omega)] at hends
    have hlong := lt_length_of_ends hquote hends hbeyond
    simp only [List.length_singleton] at hbody hscan hfits
    rw [take_append_append (by omega)] at hbody hscan
    obtain ⟨⟨mark, rfl⟩, hkept⟩ := isCharacterBody_remove hreference
      (fun bytes hbytes => (hlocal.2 bytes hbytes).1) hfront hbody
    have hmark := hforeign mark (htolerates.2 [mark] rfl mark List.mem_cons_self)
    have hne : mark ≠ quote := by
      rintro rfl
      exact (hlocal.2 [mark] rfl).2 rfl
    have hshorter := closeQuote_remove hne
      (fun byte hbyte => ⟨fun hsame => hquote (hsame ▸ hbyte), fun hsame => hmark (hsame ▸ hbyte)⟩)
      (by rintro rfl; cases hreference) (by
        intro byte hbyte
        rw [List.head?_take] at hbyte
        split at hbyte
        · cases hbyte
        · rcases hrest byte hbyte with ⟨hnotQuote, hnotMark⟩
          have hother := hnotMark [mark] rfl
          simp only [List.mem_singleton] at hnotQuote hother
          exact ⟨hnotQuote, hother⟩) hlong hscan
    have hwindow : front ++ rest.take (limit + 1 - (front.length + reference.length)) <+:
        (front ++ rest).take (limit + 1) := by
      rw [List.take_append, List.take_of_length_le (by omega : front.length ≤ limit + 1)]
      exact (List.prefix_append_right_inj front).2 (List.take_prefix_take_left (by omega))
    have hpart : (front ++ rest).take (length - reference.length - 1) =
        front ++ rest.take (length - 1 - (front.length + reference.length)) := by
      rw [List.take_append,
        List.take_of_length_le (by omega : front.length ≤ length - reference.length - 1)]
      congr 2
      omega
    refine Option.isSome_iff_exists.2 ⟨length - reference.length, ?_⟩
    refine Option.filter_eq_some_iff.2 ⟨closeQuote_of_shorter hne hwindow hshorter, ?_⟩
    rw [List.length_singleton, hpart]
    exact hkept
  · -- The literal closes in front of the reference.
    obtain ⟨inner, more, rfl, rfl⟩ : ∃ inner more, front = inner ++ more ∧ inner.length = length :=
      ⟨front.take length, front.drop length, (List.take_append_drop _ _).symm,
        List.length_take_of_le hinside⟩
    rw [List.append_assoc] at hlength ⊢
    rw [closeBounded_local (Closing.stable_of_isLocal hlocal) hlength]
    rfl

end CommentMarkers
