import CommentMarkers.Proofs.ByteMachine
import CommentMarkers.Proofs.Utf8
import Mathlib.Data.List.Pairwise

/-!
# The longest delimiter

Of the delimiters in a list the scanner takes the first one that occurs.  The check of a grammar
compares texts when the grammar is made, and the scanner compares bytes later on.  Both say the same
about prefixes, so the check refuses a list exactly if one of its delimiters would never be taken.
In a list that passes, the first delimiter that occurs is the longest one.

Main results:

- Theorem `Text.encode_prefix_iff`: one text begins another one exactly if its bytes do.
- Theorem `isDead_iff`: a delimiter is never taken exactly if an earlier one begins it.
- Theorem `Grammar.Accepted.opening_eq_some_iff`: what opens is the longest delimiter of the first
  category that has one.
- Theorem `longest_delimiter_opens`: what the checks refuse and what opens behind them.
-/

namespace CommentMarkers

/-! ## Prefixes of texts and of bytes -/

namespace Text

/-- One text begins another one exactly if its bytes begin those of the other. -/
theorem encode_prefix_iff {first second : String} :
    encode first <+: encode second ↔ first.toList <+: second.toList := by
  constructor
  · rintro ⟨rest, hrest⟩
    -- What is behind whole characters is made of whole characters.
    have hvalid : IsValid (encode first ++ rest) := by
      rw [hrest]
      exact isValid_encode second
    obtain ⟨tail, rfl⟩ := hvalid.of_append_right (isValid_encode first)
    rw [← encode_append] at hrest
    have hsame := congrArg decode hrest
    rw [decode_encode, decode_encode] at hsame
    rw [← hsame, String.toList_append]
    exact List.prefix_append _ _
  · rintro ⟨tail, htail⟩
    have hsame : second = first ++ String.ofList tail := by
      rw [← String.toList_inj, String.toList_append, String.toList_ofList, htail]
    rw [hsame, encode_append]
    exact List.prefix_append _ _

end Text

/-- A delimiter shadows another one exactly if its bytes begin those of the other. -/
theorem Grammar.shadows_iff {earlier later : String} :
    shadows earlier later = true ↔ Text.encode earlier <+: Text.encode later := by
  rw [shadows, List.isPrefixOf_iff_prefix, Text.encode_prefix_iff]

/-! ## Delimiters that are never taken -/

/-- The position of the first delimiter of a list that occurs at the beginning of the bytes. -/
def firstDelimiter? (tokens : List String) (bytes : Bytes) : Option Nat :=
  tokens.findIdx? fun token => (Text.encode token).isPrefixOf bytes

/-- Holds of a position in a list of delimiters that is the first one to occur nowhere in any
source. -/
def IsDead (tokens : List String) (index : Nat) : Prop :=
  ∀ (source : Bytes) (offset : Nat), firstDelimiter? tokens (source.drop offset) ≠ some index

variable {tokens : List String} {index : Nat}

/-- The first delimiter that occurs is one that does, behind others that do not. -/
theorem firstDelimiter?_eq_some_iff {bytes : Bytes} :
    firstDelimiter? tokens bytes = some index ↔
      ∃ token, tokens[index]? = some token ∧ Text.encode token <+: bytes ∧
        ∀ before < index, ∀ earlier, tokens[before]? = some earlier →
          ¬ Text.encode earlier <+: bytes := by
  rw [firstDelimiter?, List.findIdx?_eq_some_iff_getElem]
  simp only [List.isPrefixOf_iff_prefix]
  constructor
  · rintro ⟨hindex, hoccurs, hbefore⟩
    refine ⟨tokens[index], List.getElem?_eq_getElem hindex, hoccurs, ?_⟩
    intro before hlt earlier hearlier
    obtain ⟨_, rfl⟩ := List.getElem?_eq_some_iff.1 hearlier
    exact hbefore before hlt
  · rintro ⟨token, htoken, hoccurs, hbefore⟩
    obtain ⟨hindex, rfl⟩ := List.getElem?_eq_some_iff.1 htoken
    refine ⟨hindex, hoccurs, fun before hlt => ?_⟩
    exact hbefore before hlt _ (List.getElem?_eq_getElem (Nat.lt_trans hlt hindex))

/-- A delimiter is never taken exactly if one in front of it begins it: it is taken in its own
bytes if no other one is. -/
theorem isDead_iff {token : String} (htoken : tokens[index]? = some token) :
    IsDead tokens index ↔ ∃ before < index, ∃ earlier, tokens[before]? = some earlier ∧
      Text.encode earlier <+: Text.encode token := by
  constructor
  · intro hdead
    by_contra hnone
    refine hdead (Text.encode token) 0 (firstDelimiter?_eq_some_iff.2
      ⟨token, htoken, List.prefix_rfl, fun before hlt earlier hearlier hbegins => ?_⟩)
    exact hnone ⟨before, hlt, earlier, hearlier, hbegins⟩
  · rintro ⟨before, hlt, earlier, hearlier, hbegins⟩ source offset hfirst
    obtain ⟨own, hown, hoccurs, hbefore⟩ := firstDelimiter?_eq_some_iff.1 hfirst
    rw [htoken] at hown
    cases hown
    exact hbefore before hlt earlier hearlier (hbegins.trans hoccurs)

namespace Grammar

/-- The check refuses a list of delimiters that are not empty exactly if one of them is never
taken. -/
theorem checkDelimiters_eq_error_iff (language : String) (category : DelimiterCategory)
    (hnonempty : ∀ token ∈ tokens, token ≠ "") :
    (∃ defect, checkDelimiters language category [] tokens = .error defect) ↔
      ∃ index < tokens.length, IsDead tokens index := by
  have hrefused : (∃ defect, checkDelimiters language category [] tokens = .error defect) ↔
      ¬ checkDelimiters language category [] tokens = .ok () := by
    cases checkDelimiters language category [] tokens with
    | error defect => simp
    | ok passed => simp
  rw [hrefused, checkDelimiters_eq_ok_iff, List.pairwise_iff_getElem]
  constructor
  · intro hnot
    by_contra halive
    refine hnot ⟨hnonempty, by simp, fun before index hbefore hindex hlt => ?_⟩
    rw [Bool.eq_false_iff, ne_eq, shadows_iff]
    intro hbegins
    refine halive ⟨index, hindex, (isDead_iff (List.getElem?_eq_getElem hindex)).2 ?_⟩
    exact ⟨before, hlt, tokens[before], List.getElem?_eq_getElem hbefore, hbegins⟩
  · rintro ⟨index, hindex, hdead⟩ ⟨-, -, hpairs⟩
    obtain ⟨before, hlt, earlier, hearlier, hbegins⟩ :=
      (isDead_iff (List.getElem?_eq_getElem hindex)).1 hdead
    obtain ⟨hbefore, rfl⟩ := List.getElem?_eq_some_iff.1 hearlier
    have hnot := hpairs before index hbefore hindex hlt
    rw [shadows_iff.2 hbegins] at hnot
    cases hnot

/-! ## The openers of a category -/

/-- The openers of one category, in their declared order. -/
def openersOf (grammar : Grammar) : DelimiterCategory → List Opener
  | .blockComment => grammar.blockComments.map Opener.ofBlock
  | .lineComment => grammar.lineComments.map Opener.ofLine
  | .string => grammar.strings.map (Opener.ofQuote .stringLiteral)
  | .char => grammar.chars.map (Opener.ofQuote .charLiteral)

end Grammar

/-- The categories in the order in which they are tried. -/
def DelimiterCategory.order : List DelimiterCategory :=
  [blockComment, lineComment, string, char]

/-- Every category is tried. -/
theorem DelimiterCategory.mem_order (category : DelimiterCategory) : category ∈ order := by
  cases category <;> decide

namespace Grammar

variable {grammar : Grammar} {bytes : Bytes} {opener : Opener}

/-- The openers of a grammar are those of its categories. -/
theorem openers_eq_flatMap (grammar : Grammar) :
    grammar.openers = DelimiterCategory.order.flatMap grammar.openersOf := by
  simp only [openers, DelimiterCategory.order, List.flatMap_cons, List.flatMap_nil, openersOf,
    List.append_nil, List.append_assoc]

/-- In a category of an accepted grammar no token begins a later one. -/
theorem Accepted.pairwise_openersOf (haccepted : grammar.Accepted) (category : DelimiterCategory) :
    (grammar.openersOf category).Pairwise fun earlier later => ¬ earlier.token <+: later.token := by
  obtain ⟨hline, hblock, hstring, hchar, -⟩ := haccepted.checks
  -- In every category the token of an opener encodes the text that was checked.
  have hpairs : ∀ {α : Type} {items : List α} (text : α → String) {make : α → Opener}
      {own : DelimiterCategory}, (∀ item, (make item).token = Text.encode (text item)) →
      checkDelimiters grammar.language own [] (items.map text) = .ok () →
        (items.map make).Pairwise fun earlier later => ¬ earlier.token <+: later.token := by
    intro α items text make own htoken hcheck
    have hshadows := (checkDelimiters_eq_ok_iff.1 hcheck).2.2
    rw [List.pairwise_map] at hshadows ⊢
    refine hshadows.imp fun {earlier later} hnot hbegins => ?_
    rw [htoken, htoken, ← shadows_iff, hnot] at hbegins
    cases hbegins
  cases category with
  | blockComment => exact hpairs (·.start) (fun _ => rfl) hblock
  | lineComment => exact hpairs id (fun _ => rfl) (by rwa [List.map_id])
  | string => exact hpairs (·.token) (fun _ => rfl) hstring
  | char => exact hpairs (·.token) (fun _ => rfl) hchar

/-! ## What opens -/

/-- Holds of the longest token of a category that occurs at the beginning of the bytes. -/
structure IsLongest (grammar : Grammar) (category : DelimiterCategory) (bytes : Bytes)
    (opener : Opener) : Prop where
  mem : opener ∈ grammar.openersOf category
  occurs : opener.token <+: bytes
  longest : ∀ other ∈ grammar.openersOf category, other.token <+: bytes →
    other.token.length ≤ opener.token.length

/-- Holds if no token of a category occurs at the beginning of the bytes. -/
def LacksAt (grammar : Grammar) (category : DelimiterCategory) (bytes : Bytes) : Prop :=
  ∀ opener ∈ grammar.openersOf category, ¬ opener.token <+: bytes

/-- No token of a category is found exactly if none occurs. -/
theorem find?_openersOf_eq_none_iff {category : DelimiterCategory} :
    (grammar.openersOf category).find? (·.token.isPrefixOf bytes) = none ↔
      grammar.LacksAt category bytes := by
  simp only [List.find?_eq_none, List.isPrefixOf_iff_prefix, LacksAt]

/-- Where one of two openers of a category begins with the other one and both occur, the longer one
comes first; so the first one that occurs is the longest. -/
theorem Accepted.find?_openersOf (haccepted : grammar.Accepted) {category : DelimiterCategory} :
    (grammar.openersOf category).find? (·.token.isPrefixOf bytes) = some opener ↔
      grammar.IsLongest category bytes opener := by
  have hpairs := haccepted.pairwise_openersOf category
  -- Of two tokens that occur the shorter one begins the longer one.
  have hbegins : ∀ {first second : Opener}, first.token <+: bytes → second.token <+: bytes →
      first.token.length ≤ second.token.length → first.token <+: second.token :=
    fun hfirst hsecond hle => List.prefix_of_prefix_length_le hfirst hsecond hle
  constructor
  · intro hfind
    obtain ⟨hoccurs, before, after, hsplit, hbefore⟩ := List.find?_eq_some_iff_append.1 hfind
    rw [List.isPrefixOf_iff_prefix] at hoccurs
    refine ⟨List.mem_of_find?_eq_some hfind, hoccurs, fun other hother hothers => ?_⟩
    rw [hsplit] at hother hpairs
    rcases List.mem_append.1 hother with hfront | hback
    · have hnot := hbefore other hfront
      rw [List.isPrefixOf_iff_prefix.2 hothers] at hnot
      cases hnot
    · rcases List.mem_cons.1 hback with rfl | hback
      · exact Nat.le_refl _
      · refine Nat.le_of_not_le fun hle => ?_
        have hlater := (List.pairwise_cons.1 (List.pairwise_append.1 hpairs).2.1).1 other hback
        exact hlater (hbegins hoccurs hothers hle)
  · rintro ⟨hmem, hoccurs, hlongest⟩
    obtain ⟨before, after, hsplit⟩ := List.append_of_mem hmem
    refine List.find?_eq_some_iff_append.2
      ⟨List.isPrefixOf_iff_prefix.2 hoccurs, before, after, hsplit, fun other hother => ?_⟩
    rw [Bool.not_eq_true', Bool.eq_false_iff, ne_eq, List.isPrefixOf_iff_prefix]
    intro hothers
    have hle := hlongest other (by rw [hsplit]; exact List.mem_append_left _ hother) hothers
    rw [hsplit] at hpairs
    exact (List.pairwise_append.1 hpairs).2.2 other hother opener List.mem_cons_self
      (hbegins hothers hoccurs hle)

/-- What opens at the beginning of the bytes is the longest token of the first category that has one
there. -/
theorem Accepted.opening_eq_some_iff (haccepted : grammar.Accepted) :
    opening grammar.openers bytes = some opener ↔
      ∃ before category after, DelimiterCategory.order = before ++ category :: after ∧
        (∀ earlier ∈ before, grammar.LacksAt earlier bytes) ∧
          grammar.IsLongest category bytes opener := by
  have hopening := haccepted.opening_eq bytes
  rw [openers_eq_flatMap, List.find?_flatMap, ← openers_eq_flatMap] at hopening
  simp only [hopening, List.findSome?_eq_some_iff, find?_openersOf_eq_none_iff,
    haccepted.find?_openersOf]
  constructor
  · rintro ⟨before, category, after, horder, hlongest, hbefore⟩
    exact ⟨before, category, after, horder, hbefore, hlongest⟩
  · rintro ⟨before, category, after, horder, hbefore, hlongest⟩
    exact ⟨before, category, after, horder, hlongest, hbefore⟩

/-- Nothing opens at the beginning of the bytes exactly if no token of any category occurs there. -/
theorem Accepted.opening_eq_none_iff (haccepted : grammar.Accepted) :
    opening grammar.openers bytes = none ↔ ∀ category, grammar.LacksAt category bytes := by
  have hopening := haccepted.opening_eq bytes
  rw [openers_eq_flatMap, List.find?_flatMap, ← openers_eq_flatMap] at hopening
  simp only [hopening, List.findSome?_eq_none_iff, find?_openersOf_eq_none_iff]
  exact ⟨fun hlacks category => hlacks category category.mem_order, fun hlacks category _ =>
    hlacks category⟩

end Grammar

/-- The check of a list of delimiters refuses exactly the lists with one that would never be taken
anywhere.  Behind the checks, what opens anywhere in a source is the longest delimiter that occurs
there among those of the first category that has one, and nothing opens only where none occurs. -/
theorem longest_delimiter_opens :
    (∀ (language : String) (category : DelimiterCategory) (tokens : List String),
      (∀ token ∈ tokens, token ≠ "") →
        ((∃ defect, Grammar.checkDelimiters language category [] tokens = .error defect) ↔
          ∃ index < tokens.length, IsDead tokens index)) ∧
    ∀ grammar : Grammar, grammar.Accepted → ∀ (source : Bytes) (offset : Nat),
      (∀ opener, opening grammar.openers (source.drop offset) = some opener ↔
        ∃ before category after, DelimiterCategory.order = before ++ category :: after ∧
          (∀ earlier ∈ before, grammar.LacksAt earlier (source.drop offset)) ∧
            grammar.IsLongest category (source.drop offset) opener) ∧
      (opening grammar.openers (source.drop offset) = none ↔
        ∀ category, grammar.LacksAt category (source.drop offset)) := by
  refine ⟨fun language category tokens hnonempty =>
    Grammar.checkDelimiters_eq_error_iff language category hnonempty, ?_⟩
  intro grammar haccepted source offset
  exact ⟨fun _ => haccepted.opening_eq_some_iff, haccepted.opening_eq_none_iff⟩

/-- In Lua the block comments are tried first, and so the start of one is no line comment.  Two
texts of which the longer one comes last are refused as line comments. -/
theorem longest_delimiter_opens_lua :
    Grammar.lua.Accepted ∧
      opening Grammar.lua.openers ((Text.encode "x --[[ y ]]").drop 2) =
        some (Opener.ofBlock ⟨"--[[", "]]", false⟩) ∧
      ∃ index < ["#", "#!"].length, IsDead ["#", "#!"] index := by
  have haccepted : Grammar.lua.Accepted := Grammar.builtin_accepted _ (by decide)
  obtain ⟨hrefused, hopens⟩ := longest_delimiter_opens
  refine ⟨haccepted, ?_, ?_⟩
  · refine ((hopens Grammar.lua haccepted (Text.encode "x --[[ y ]]") 2).1 _).2
      ⟨[], .blockComment, [.lineComment, .string, .char], rfl, by simp, ?_⟩
    exact ⟨by decide +kernel, by decide +kernel, by decide +kernel⟩
  · exact (hrefused "shell" .lineComment ["#", "#!"] (by decide)).1
      ⟨.shadowed "shell" .lineComment "#" "#!", rfl⟩

end CommentMarkers
