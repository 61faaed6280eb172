import CommentMarkers.Proofs.ClosingLocality
import CommentMarkers.Proofs.RangeDeletion

/-!
# A source without some of its comments

If comments are deleted from a source as a whole and nothing else but code goes with them, the
remaining comments are found again, as long as the bytes that meet do not make up a delimiter.  Two
literals that meet may become one, where a doubled delimiter stands for one in it.  That does not
matter to the comments.

Main results:

- Theorems `Cuts.code`, `Cuts.construct` and `Cuts.doubled`: what may stand in front of a text that
  is cut to its end.
- Theorem `Definite.cuts_construct`: a construct is found again in front of a text with deletions.
- Theorem `cuts_without`: a source without some of its comments is cut into the others.
-/

namespace CommentMarkers

/-! ## Comments of a text -/

/-- The comments among lexemes. -/
def comments (lexemes : List Lexeme) : List Lexeme :=
  lexemes.filter (·.kind.isComment)

/-- The comments of two lists of lexemes. -/
theorem comments_append (front back : List Lexeme) :
    comments (front ++ back) = comments front ++ comments back :=
  List.filter_append front back

/-- Code has no comments. -/
theorem comments_code (code : Bytes) : comments (Lexeme.code code) = [] := by
  refine List.filter_eq_nil_iff.2 fun lexeme hlexeme => ?_
  rw [(wellFormed_of_mem_code hlexeme).2]
  exact Bool.false_ne_true

variable {openers : List Opener} {found : List Lexeme} {rest : Bytes}

/-- Holds of a text that is cut to its end, and of its comments. -/
def Cuts (openers : List Opener) (bytes : Bytes) (found : List Lexeme) : Prop :=
  ∃ lexing, Lexes openers bytes lexing ∧ lexing.unclosed = none ∧ comments lexing.lexemes = found

/-- The empty text has no comments. -/
theorem Cuts.nil (openers : List Opener) : Cuts openers [] [] := by
  refine ⟨_, Lexes.code [] ?_, rfl, comments_code []⟩
  rw [nextConstruct]

/-- A byte at which nothing opens may stand in front of a text. -/
theorem Cuts.byte {byte : UInt8} (hcuts : Cuts openers rest found)
    (hnext : nextConstruct openers (byte :: rest) =
      (nextConstruct openers rest).map fun (length, opener) => (length + 1, opener)) :
    Cuts openers (byte :: rest) found := by
  rcases hcuts with ⟨lexing, hlexes, hclosed, rfl⟩
  cases hlexes with
  | code bytes hnone =>
      rw [hnone] at hnext
      exact ⟨_, Lexes.code (byte :: rest) hnext, rfl, by rw [comments_code, comments_code]⟩
  | unclosed code tail opener hopens hopen => cases hclosed
  | closed code inner behind opener lexing hopens hcloses hrest =>
      rw [hopens] at hnext
      refine ⟨_, Lexes.closed (byte :: code) inner behind opener lexing hnext hcloses hrest,
        hclosed, ?_⟩
      simp only [Lexing.prepend, comments_append, comments_code]

/-- A construct that closes may stand in front of a text. -/
theorem Cuts.construct {opener : Opener} {inner : Bytes} (hcuts : Cuts openers rest found)
    (hopening : opening openers (opener.token ++ (inner ++ rest)) = some opener)
    (hclosed : opener.closing.length? (inner ++ rest) = some inner.length) :
    Cuts openers (opener.token ++ (inner ++ rest))
      (comments [Lexeme.ofConstruct opener (opener.token ++ inner)] ++ found) := by
  rcases hcuts with ⟨lexing, hlexes, hcomplete, rfl⟩
  have hstays : opener.staysCode (opener.token ++ (inner ++ rest)) = false := by
    rw [Opener.staysCode, List.drop_left, hclosed]
    exact Bool.and_false _
  have hnext : nextConstruct openers ([] ++ (opener.token ++ (inner ++ rest))) =
      some (([] : Bytes).length, opener) := by
    rw [List.nil_append, nextConstruct_of_some hopening, hstays]
    rfl
  refine ⟨_, Lexes.closed [] inner rest opener lexing hnext hclosed hlexes, hcomplete, ?_⟩
  simp only [Lexing.prepend, comments_append, comments_code, List.nil_append]

/-- A literal in which a doubled token stands for one may stand in front of a text that begins with
another such literal: the two become one. -/
theorem Cuts.doubled {opener : Opener} {inner old : Bytes} (hcuts : Cuts openers rest found)
    (hkind : opener.kind.isComment = false)
    (hclosing : opener.closing = .quote opener.token (some opener.token))
    (hopening : opening openers (opener.token ++ (inner ++ rest)) = some opener)
    (hclosed : opener.closing.length? (inner ++ old) = some inner.length)
    (hbehind : opening openers rest = some opener) :
    Cuts openers (opener.token ++ (inner ++ rest)) found := by
  rcases hcuts with ⟨lexing, hlexes, hcomplete, rfl⟩
  have htoken := List.length_pos_iff.1 (token_prefix_of_opening hbehind).2
  have hstays : ∀ bytes, opener.staysCode bytes = false := by
    intro bytes
    rw [Opener.staysCode, hclosing]
    rfl
  have hfirst : nextConstruct openers rest = some (0, opener) := by
    rw [nextConstruct_of_some hbehind, hstays]
    rfl
  cases hlexes with
  | code bytes hnone =>
      rw [hfirst] at hnone
      cases hnone
  | unclosed code tail own hopens hopen => cases hcomplete
  | closed code other behind own lexing hopens hcloses hrest =>
      rw [hfirst] at hopens
      obtain ⟨hlength, rfl⟩ := Prod.mk.inj (Option.some.inj hopens)
      obtain rfl : code = [] := List.length_eq_zero_iff.1 hlength.symm
      rw [List.nil_append] at hopening ⊢
      have hwhole : opener.closing.length? (inner ++ (opener.token ++ other) ++ behind) =
          some (inner ++ (opener.token ++ other)).length := by
        rw [hclosing] at hclosed hcloses ⊢
        exact closeQuote_join htoken hclosed hcloses
      have hsplit : opener.token ++ (inner ++ (opener.token ++ (other ++ behind))) =
          opener.token ++ (inner ++ (opener.token ++ other) ++ behind) := by
        simp only [List.append_assoc]
      have hnext : nextConstruct openers ([] ++ (opener.token ++
          (inner ++ (opener.token ++ other) ++ behind))) =
            some (([] : Bytes).length, opener) := by
        rw [List.nil_append, ← hsplit, nextConstruct_of_some hopening, hstays]
        rfl
      have hround := Lexes.closed [] _ behind opener lexing hnext hwhole hrest
      rw [List.nil_append, ← hsplit] at hround
      refine ⟨_, hround, hcomplete, ?_⟩
      simp only [Lexing.prepend, comments_append, comments_code, List.nil_append]
      simp [comments, Lexeme.ofConstruct, hkind]

/-! ## Where nothing opens -/

/-- Holds if a delimiter at the beginning of the bytes, if there is one, is one byte of code. -/
def Stays (openers : List Opener) (bytes : Bytes) : Prop :=
  ∀ opener, opening openers bytes = some opener →
    opener.staysCode bytes = true ∧ opener.token.length = 1

/-- At a byte that stays code the search goes on behind it. -/
theorem Stays.nextConstruct_eq {byte : UInt8} (hstays : Stays openers (byte :: rest)) :
    nextConstruct openers (byte :: rest) =
      (nextConstruct openers rest).map fun (length, opener) => (length + 1, opener) := by
  cases hopening : opening openers (byte :: rest) with
  | none => exact nextConstruct_of_none hopening
  | some opener =>
      obtain ⟨hcode, hlength⟩ := hstays opener hopening
      rw [nextConstruct_of_some hopening, hcode, if_pos rfl, hlength]
      rfl

/-- Where the search does not stop at once, the first byte stays code: tokens that may stay code are
single bytes. -/
theorem stays_of_nextConstruct
    (hsingle : ∀ opener ∈ openers, opener.closing.isBounded = true → opener.token.length = 1)
    {bytes : Bytes} (hnext : ∀ opener, nextConstruct openers bytes ≠ some (0, opener)) :
    Stays openers bytes := by
  intro opener hopening
  have hcode : opener.staysCode bytes = true := by
    refine Bool.of_not_eq_false fun hopens => hnext opener ?_
    rw [nextConstruct_of_some hopening, hopens]
    rfl
  refine ⟨hcode, hsingle opener (List.mem_of_find?_eq_some hopening) ?_⟩
  rw [Opener.staysCode, Bool.and_eq_true] at hcode
  exact hcode.1

/-- Where nothing occurs but what occurs in another text, its delimiter is taken if it occurs. -/
theorem opening_eq_of_occursAt {bytes other : Bytes} {opener : Opener}
    (hless : ∀ opener ∈ openers, opener.occursAt other = true → opener.occursAt bytes = true)
    (hopening : opening openers bytes = some opener) (hoccurs : opener.occursAt other = true) :
    opening openers other = some opener := by
  rw [opening, List.find?_eq_some_iff_append] at hopening ⊢
  rcases hopening with ⟨-, before, after, rfl, hbefore⟩
  refine ⟨hoccurs, before, after, rfl, fun first hfirst => ?_⟩
  have hnone := hbefore first hfirst
  rw [Bool.not_eq_true'] at hnone ⊢
  refine Bool.eq_false_iff.2 fun hother => ?_
  rw [hless first (List.mem_append_left _ hfirst) hother] at hnone
  cases hnone

/-- Bytes of code in front of the next construct stay code. -/
theorem stays_of_code
    (hsingle : ∀ opener ∈ openers, opener.closing.isBounded = true → opener.token.length = 1)
    (front : Bytes) {back : Bytes} {byte : UInt8}
    (hnext : ∀ length opener,
      nextConstruct openers (front ++ byte :: back) = some (length, opener) →
      front.length < length) : Stays openers (byte :: back) := by
  induction front with
  | nil =>
      refine stays_of_nextConstruct hsingle fun opener hopener => ?_
      exact absurd (hnext 0 opener hopener) (Nat.lt_irrefl 0)
  | cons first front ih =>
      have hstays : Stays openers (first :: (front ++ byte :: back)) := by
        refine stays_of_nextConstruct hsingle fun opener hopener => ?_
        exact absurd (hnext 0 opener hopener) (Nat.not_lt_zero _)
      refine ih fun length opener hopener => ?_
      have hmore := hnext (length + 1) opener
        (by rw [List.cons_append, hstays.nextConstruct_eq, hopener]; rfl)
      exact Nat.lt_of_succ_lt_succ hmore

/-- Holds of a text with deletions at whose beginning no delimiter occurs but those of the whole
text, and in which a token that stays code does so without the deleted bytes, too. -/
def NothingNew (openers : List Opener) (bytes : Bytes) (gone : Nat → Bool) : Prop :=
  ∀ opener ∈ openers, opener.occursAt (Bytes.without bytes gone) = true →
    opener.occursAt bytes = true ∧
      (opener.staysCode bytes = true → opener.staysCode (Bytes.without bytes gone) = true)

instance (openers : List Opener) (bytes : Bytes) (gone : Nat → Bool) :
    Decidable (NothingNew openers bytes gone) :=
  inferInstanceAs (Decidable (∀ opener ∈ openers, _))

/-- A byte that stays code also does so if nothing new occurs there. -/
theorem Stays.without {byte : UInt8} {gone : Nat → Bool} (hstays : Stays openers (byte :: rest))
    (hfirst : gone 0 = false) (hnew : NothingNew openers (byte :: rest) gone) :
    Stays openers (Bytes.without (byte :: rest) gone) := by
  intro opener hopening
  have hmem := List.mem_of_find?_eq_some hopening
  have hoccurs := List.find?_some hopening
  have hbefore := (hnew opener hmem hoccurs).1
  cases hold : opening openers (byte :: rest) with
  | none =>
      rw [opening, List.find?_eq_none] at hold
      exact absurd hbefore (hold opener hmem)
  | some own =>
      -- The token that stays code is the first byte, so it still occurs and comes first.
      obtain ⟨hcode, hlength⟩ := hstays own hold
      have hstill : own.occursAt (Bytes.without (byte :: rest) gone) = true := by
        have hprefix := (token_prefix_of_opening hold).1
        obtain ⟨first, hfirstByte⟩ := List.length_eq_one_iff.1 hlength
        rw [hfirstByte] at hprefix
        obtain rfl := (List.cons_prefix_cons.1 hprefix).1
        rw [Opener.occursAt, hfirstByte, Bytes.without_cons, hfirst]
        simp
      have hsame :=
        opening_eq_of_occursAt (fun opener hopener ho => (hnew opener hopener ho).1) hold
        hstill
      rw [hsame] at hopening
      obtain rfl := Option.some.inj hopening
      exact ⟨(hnew own hmem hstill).2 hcode, hlength⟩

/-- Code without some of its bytes may stand in front of a text. -/
theorem Cuts.code {gone : Nat → Bool} {code : Bytes}
    (hcuts : Cuts openers (Bytes.without rest fun offset => gone (code.length + offset)) found)
    (hcode : ∀ front byte back, code = front ++ byte :: back →
      Stays openers (byte :: back ++ rest) ∧ (gone front.length = false →
        NothingNew openers (byte :: back ++ rest) fun offset => gone (front.length + offset))) :
    Cuts openers (Bytes.without (code ++ rest) gone) found := by
  induction code generalizing gone with
  | nil => simpa using hcuts
  | cons byte code ih =>
      have hmore : Cuts openers (Bytes.without (code ++ rest) fun offset => gone (offset + 1))
          found := by
        apply ih
        · simpa only [List.length_cons, Nat.add_right_comm] using hcuts
        · intro front other back hsplit
          have hagain := hcode (byte :: front) other back (by rw [hsplit]; rfl)
          simpa only [List.length_cons, Nat.add_right_comm] using hagain
      obtain ⟨hstays, hnew⟩ := hcode [] byte code rfl
      simp only [List.length_nil, Nat.zero_add, List.cons_append] at hstays hnew
      cases hgone : gone 0 with
      | true =>
          rw [List.cons_append, Bytes.without_cons, hgone]
          exact hmore
      | false =>
          have hbyte := hstays.without hgone (hnew hgone)
          rw [List.cons_append, Bytes.without_cons, hgone] at *
          exact hmore.byte hbyte.nextConstruct_eq

/-! ## Deletions that spare constructs -/

/-- Holds of a deletion that takes a lexeme as a whole if it is a comment, or leaves it as it is,
and with it what is directly behind it if it is a line comment. -/
def Lexeme.SparedBy (lexeme : Lexeme) (gone : Nat → Bool) : Prop :=
  lexeme.kind.isComment = true ∧ (∀ offset < lexeme.text.length, gone offset = true) ∨
    (∀ offset < lexeme.text.length, gone offset = false) ∧
      (lexeme.kind = .lineComment → gone lexeme.text.length = false)

/-- Holds of a deletion that takes no part of a comment or a literal, unless it takes a comment as a
whole. -/
def Spares (gone : Nat → Bool) (lexemes : List Lexeme) : Prop :=
  ∀ before construct after, lexemes = before ++ construct :: after → construct.kind ≠ .code →
    construct.SparedBy fun offset => gone ((textOf before).length + offset)

/-- The comments that a deletion does not take. -/
def keptComments (gone : Nat → Bool) : List Lexeme → List Lexeme
  | [] => []
  | lexeme :: rest =>
    (if lexeme.kind.isComment && !gone 0 then [lexeme] else []) ++
      keptComments (fun offset => gone (lexeme.text.length + offset)) rest

variable {gone : Nat → Bool}

/-- Behind other lexemes the offsets are smaller. -/
theorem Spares.behind {front back : List Lexeme} (hspares : Spares gone (front ++ back)) :
    Spares (fun offset => gone ((textOf front).length + offset)) back := by
  rintro before construct after rfl hkind
  have hspared := hspares (front ++ before) construct after (by simp) hkind
  simpa only [textOf_append, List.length_append, Nat.add_assoc] using hspared

/-- No code is kept as a comment. -/
theorem keptComments_code_append (gone : Nat → Bool) (code : Bytes) (more : List Lexeme) :
    keptComments gone (Lexeme.code code ++ more) =
      keptComments (fun offset => gone (code.length + offset)) more := by
  cases code with
  | nil => simp [Lexeme.code]
  | cons byte code => rfl

/-- Holds of the offsets inside a construct, behind its first byte. -/
def InConstruct (lexemes : List Lexeme) (offset : Nat) : Prop :=
  ∃ before construct after, lexemes = before ++ construct :: after ∧ construct.kind ≠ .code ∧
    (textOf before).length < offset ∧ offset < (textOf before).length + construct.text.length

/-- Up to the construct of a round no offset is in a construct. -/
theorem not_inConstruct_of_le {code : Bytes} {own : Lexeme} {more : List Lexeme} {offset : Nat}
    (hoffset : offset ≤ code.length) :
    ¬ InConstruct (Lexeme.code code ++ [own] ++ more) offset := by
  rintro ⟨before, construct, after, hsplit, hkind, hstart, -⟩
  rcases construct_cases hkind hsplit with ⟨rfl, -, -⟩ | ⟨inner, rfl, -⟩
  · rw [textOf_code] at hstart
    omega
  · simp only [textOf_append, textOf_code, List.length_append] at hstart
    omega

/-- Behind the construct of a round the offsets in constructs are those of the rest. -/
theorem InConstruct.of_round {code : Bytes} {own : Lexeme} {more : List Lexeme} {offset : Nat}
    (hin : InConstruct (Lexeme.code code ++ [own] ++ more)
      (code.length + own.text.length + offset)) : InConstruct more offset := by
  rcases hin with ⟨before, construct, after, hsplit, hkind, hstart, hstop⟩
  rcases construct_cases hkind hsplit with ⟨rfl, rfl, -⟩ | ⟨inner, rfl, rfl⟩
  · rw [textOf_code] at hstop
    omega
  · refine ⟨inner, construct, after, rfl, hkind, ?_⟩
    simp only [textOf_append, textOf_code, textOf_cons, textOf_nil, List.append_nil,
      List.length_append] at hstart hstop
    omega

/-- Delimiters that leave no doubt about where constructs open and close, whatever is behind them:
constructs close in a stable way, tokens that may stay code are single bytes, only line comments
close at the end of the line, and a token that is doubled in its literal begins with a byte of its
own. -/
structure Definite (openers : List Opener) : Prop where
  construct : ∀ opener ∈ openers, opener.kind ≠ .code
  stable : ∀ opener ∈ openers, opener.closing.Stable
  single : ∀ opener ∈ openers, opener.closing.isBounded = true → opener.token.length = 1
  lines : ∀ opener ∈ openers, opener.closing = .endOfLine → opener.kind = .lineComment
  doubled : ∀ opener ∈ openers, ∀ token, opener.closing = .quote token (some token) →
    token = opener.token ∧ opener.kind.isComment = false ∧
      ∀ other ∈ openers, other.token.head? = token.head? → other = opener

/-- Behind a token that is doubled in its literal only another such literal begins with it. -/
theorem Definite.opening_eq (hdefinite : Definite openers) {opener : Opener}
    (hopener : opener ∈ openers) (htoken : opener.token ≠ [])
    (hclosing : opener.closing = .quote opener.token (some opener.token))
    (hstarts : opener.token <+: rest) : opening openers rest = some opener := by
  have hoccurs : opener.occursAt rest = true := Opener.occursAt_iff.2 ⟨htoken, hstarts⟩
  cases hopening : opening openers rest with
  | none =>
      rw [opening, List.find?_eq_none] at hopening
      exact absurd hoccurs (hopening opener hopener)
  | some other =>
      obtain ⟨hother, hpos⟩ := token_prefix_of_opening hopening
      have hhead : ∀ token : Bytes, token ≠ [] → token <+: rest → token.head? = rest.head? := by
        rintro token hne ⟨more, rfl⟩
        rcases List.exists_cons_of_ne_nil hne with ⟨byte, inner, rfl⟩
        rfl
      rw [(hdefinite.doubled opener hopener opener.token hclosing).2.2 other
        (List.mem_of_find?_eq_some hopening)
        ((hhead _ (List.length_pos_iff.1 hpos) hother).trans (hhead _ htoken hstarts).symm)]

/-- A construct in front of a text with deletions is found again if it opens there: it closes where
it did, or it is a literal that becomes one with the literal behind it. -/
theorem Definite.cuts_construct (hdefinite : Definite openers) {opener : Opener}
    {inner old : Bytes} (hcuts : Cuts openers rest found)
    (hopening : opening openers (opener.token ++ (inner ++ rest)) = some opener)
    (hclosed : opener.closing.length? (inner ++ old) = some inner.length)
    (hline : opener.closing = .endOfLine → ∀ byte ∈ rest.head?, byte = Bytes.newline) :
    Cuts openers (opener.token ++ (inner ++ rest))
      (comments [Lexeme.ofConstruct opener (opener.token ++ inner)] ++ found) := by
  have hmem := List.mem_of_find?_eq_some hopening
  have htoken := List.length_pos_iff.1 (token_prefix_of_opening hopening).2
  by_cases hends : opener.closing.EndsBefore rest
  · exact hcuts.construct hopening ((hdefinite.stable opener hmem).length_eq hclosed hends)
  · cases hclosing : opener.closing with
    | endOfLine =>
        rw [hclosing] at hends
        exact absurd (hline hclosing) hends
    | quote token escape =>
        rw [hclosing] at hends
        obtain ⟨rfl, hstarts⟩ : escape = some token ∧ token <+: rest := by
          simpa only [Closing.EndsBefore, Classical.not_imp, Classical.not_not] using hends
        obtain ⟨rfl, hkind, -⟩ := hdefinite.doubled opener hmem token hclosing
        have hbehind := hdefinite.opening_eq hmem htoken hclosing hstarts
        have hmerged := hcuts.doubled hkind hclosing hopening hclosed hbehind
        have hnone : comments [Lexeme.ofConstruct opener (opener.token ++ inner)] = [] := by
          simp [comments, Lexeme.ofConstruct, hkind]
        rw [hnone, List.nil_append]
        exact hmerged
    | block stop | nestedBlock start stop | boundedQuote token escape limit =>
        rw [hclosing] at hends
        exact absurd trivial hends

/-- In front of a text with deletions a construct that is spared is found again, unless it is gone
as a whole. -/
theorem Definite.cuts_spared (hdefinite : Definite openers) {opener : Opener} {inner : Bytes}
    (hcuts : Cuts openers
      (Bytes.without rest fun offset => gone ((opener.token ++ inner).length + offset)) found)
    (hopening : opening openers (opener.token ++ (inner ++ rest)) = some opener)
    (hclosed : opener.closing.length? (inner ++ rest) = some inner.length)
    (hspared : (Lexeme.ofConstruct opener (opener.token ++ inner)).SparedBy gone)
    (hnew : gone 0 = false → NothingNew openers (opener.token ++ (inner ++ rest)) gone) :
    Cuts openers (Bytes.without (opener.token ++ (inner ++ rest)) gone)
      ((if opener.kind.isComment && !gone 0 then
        [Lexeme.ofConstruct opener (opener.token ++ inner)] else []) ++ found) := by
  have hmem := List.mem_of_find?_eq_some hopening
  have htoken := (token_prefix_of_opening hopening).2
  have hfirst : 0 < (opener.token ++ inner).length := by
    rw [List.length_append]
    omega
  rw [← List.append_assoc, Bytes.without_append]
  rw [Lexeme.SparedBy, Lexeme.text_ofConstruct] at hspared
  rcases hspared with ⟨-, hall⟩ | ⟨hnone, hline⟩
  · rw [Bytes.without_eq_nil hall, hall 0 hfirst, Bool.not_true, Bool.and_false,
      if_neg Bool.false_ne_true]
    exact hcuts
  · have hstays : gone 0 = false := hnone 0 hfirst
    have hkept : Bytes.without (opener.token ++ (inner ++ rest)) gone = opener.token ++ (inner ++
        Bytes.without rest fun offset => gone ((opener.token ++ inner).length + offset)) := by
      rw [← List.append_assoc, Bytes.without_append, Bytes.without_eq_self hnone,
        List.append_assoc]
    have hcomments : comments [Lexeme.ofConstruct opener (opener.token ++ inner)] =
        if opener.kind.isComment && !gone 0 then
          [Lexeme.ofConstruct opener (opener.token ++ inner)] else [] := by
      rw [hstays, Bool.not_false, Bool.and_true, comments, List.filter_cons]
      rfl
    have hoccurs :
        opener.occursAt (Bytes.without (opener.token ++ (inner ++ rest)) gone) = true := by
      rw [hkept]
      exact Opener.occursAt_iff.2 ⟨List.length_pos_iff.1 htoken, List.prefix_append _ _⟩
    have hagain := opening_eq_of_occursAt (fun other hother ho => (hnew hstays other hother ho).1)
      hopening hoccurs
    rw [hkept] at hagain
    rw [Bytes.without_eq_self hnone, List.append_assoc, ← hcomments]
    refine hdefinite.cuts_construct hcuts hagain hclosed fun hclosing => ?_
    -- The newline behind a line comment is left, too.
    have hbehind := hline (hdefinite.lines opener hmem hclosing)
    have hends := Closing.endsBefore_of_length (hdefinite.stable opener hmem) hclosed
    rw [hclosing] at hends
    cases rest with
    | nil => exact hends
    | cons byte rest =>
        rw [Bytes.without_cons, Nat.add_zero, hbehind]
        exact hends

/-- The comments of a source without some of its bytes are those that are left, if comments are
deleted as a whole, nothing else but code is, and nothing new opens where code is left. -/
theorem cuts_without {bytes : Bytes} {lexing : Lexing} (hlexes : Lexes openers bytes lexing)
    (hcomplete : lexing.unclosed = none) (hdefinite : Definite openers)
    (hspares : Spares gone lexing.lexemes)
    (hnew : ∀ offset < bytes.length, ¬ InConstruct lexing.lexemes offset → gone offset = false →
      NothingNew openers (bytes.drop offset) fun more => gone (offset + more)) :
    Cuts openers (Bytes.without bytes gone) (keptComments gone lexing.lexemes) := by
  induction hlexes generalizing gone with
  | code bytes hnone =>
      have hkept := keptComments_code_append gone bytes []
      rw [List.append_nil] at hkept
      rw [hkept, ← List.append_nil bytes]
      refine Cuts.code (Cuts.nil openers) ?_
      rintro front byte back rfl
      rw [List.append_nil]
      constructor
      · refine stays_of_code hdefinite.single front fun length opener hopener => ?_
        rw [hnone] at hopener
        cases hopener
      · intro hstays
        have hhere := hnew front.length (by simp) ?_ hstays
        · rwa [List.drop_left] at hhere
        · rintro ⟨before, construct, after, hsplit, hkind, -⟩
          exact code_ne_append_construct hkind _ before after hsplit
  | unclosed code tail opener hopens hopen => cases hcomplete
  | closed code inner rest opener lexing hopens hclosed hrest ih =>
      have hopening := (opening_of_nextConstruct hopens).1
      have htoken := (token_prefix_of_opening hopening).2
      have hconstruct := hdefinite.construct opener (List.mem_of_find?_eq_some hopening)
      have hown := hspares (Lexeme.code code) _ _ (List.append_assoc _ _ _) hconstruct
      have hmore := Spares.behind hspares
      rw [textOf_code] at hown
      simp only [textOf_append, textOf_code, textOf_cons, textOf_nil, List.append_nil,
        List.length_append, Nat.add_assoc] at hmore
      change Cuts openers _ (keptComments gone (Lexeme.code code ++ [_] ++ lexing.lexemes))
      change ∀ offset < _, ¬ InConstruct (Lexeme.code code ++ [_] ++ lexing.lexemes) offset → _
        at hnew
      rw [List.append_assoc, List.singleton_append, keptComments_code_append]
      -- Up to its construct a round asks for what is left of the whole text.
      have hfront : ∀ front back, code = front ++ back → gone front.length = false →
          NothingNew openers (back ++ (opener.token ++ (inner ++ rest))) fun offset =>
            gone (front.length + offset) := by
        rintro front back rfl hstays
        have hhere := hnew front.length (by simp only [List.length_append]; omega)
          (not_inConstruct_of_le (by simp)) hstays
        rwa [List.append_assoc, List.drop_left] at hhere
      apply Cuts.code
      · refine hdefinite.cuts_spared (ih hcomplete hmore ?_) hopening hclosed hown ?_
        · intro offset hoffset hin hstays
          have hhere := hnew (code.length + (opener.token ++ inner).length + offset)
            (by simp only [List.length_append]; omega) (fun hinside => hin hinside.of_round)
            (by rw [Nat.add_assoc]; exact hstays)
          have hdrop : (code ++ (opener.token ++ (inner ++ rest))).drop
              (code.length + (opener.token ++ inner).length + offset) = rest.drop offset := by
            rw [← List.drop_drop, ← List.drop_drop, List.drop_left, ← List.append_assoc,
              List.drop_left]
          rw [hdrop] at hhere
          simpa only [Lexeme.text_ofConstruct, Nat.add_assoc] using hhere
        · exact fun hstays => hfront code [] (List.append_nil _).symm hstays
      · rintro front byte back rfl
        constructor
        · refine stays_of_code hdefinite.single front fun length opener hopener => ?_
          change nextConstruct openers (front ++ (byte :: back ++ _)) = _ at hopener
          rw [← List.append_assoc, hopens] at hopener
          cases hopener
          simp
        · exact hfront front (byte :: back) rfl

end CommentMarkers
