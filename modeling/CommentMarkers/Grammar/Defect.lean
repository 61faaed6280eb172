import CommentMarkers.Grammar.Table
import CommentMarkers.Text.Quoted

/-!
# Defects of grammars

The scanner takes the first delimiter of a list that occurs at a position. A delimiter that begins
with an earlier one of its list would never be taken, and an empty delimiter would be taken
everywhere. `Grammar.check` finds such tables and names the first defect.

Main results:

- Theorem `checkDelimiters_eq_ok_iff`: which lists of delimiters are accepted.
-/

namespace CommentMarkers

/-! ## Kinds of delimiters -/

/-- The four lists of delimiters of a grammar. -/
inductive DelimiterCategory where
  | lineComment
  | blockComment
  | string
  | char
  deriving DecidableEq, Repr

/-- What messages call a category. -/
def DelimiterCategory.label : DelimiterCategory → String
  | lineComment => "line comment"
  | blockComment => "block comment"
  | string => "string"
  | char => "char"

/-! ## Defects -/

/-- Why a table of delimiters cannot be used. -/
inductive Grammar.Defect where
  | emptyLanguage
  | emptyDelimiter (language : String) (category : DelimiterCategory)
  | shadowed (language : String) (category : DelimiterCategory) (earlier later : String)
  | emptyStop (language start : String)
  | emptyEscape (language token : String)
  | limitNotPositive (language token : String)
  | missingField (language field : String)
  | malformed (language : String)
  deriving DecidableEq, Repr

/-- The message for a defect. -/
def Grammar.Defect.message : Grammar.Defect → String
  | emptyLanguage => "grammar language id must not be empty"
  | emptyDelimiter language category => language ++ ": empty " ++ category.label ++ " delimiter"
  | shadowed language category earlier later =>
    language ++ ": " ++ category.label ++ " delimiter " ++ Text.quoted earlier ++ " shadows "
      ++ Text.quoted later ++ "; list the longer delimiter first"
  | emptyStop language start =>
    language ++ ": block comment " ++ Text.quoted start ++ " has an empty end token"
  | emptyEscape language token =>
    language ++ ": quote " ++ Text.quoted token ++ " has an empty escape token"
  | limitNotPositive language token =>
    language ++ ": quote " ++ Text.quoted token ++ " needs a positive max_length"
  | missingField language field =>
    language ++ ": malformed grammar definition (" ++ Text.quoted field ++ ")"
  | malformed language => language ++ ": malformed grammar definition"

/-! ## Checks -/

namespace Grammar

/-- Holds if `later` begins with `earlier`. -/
def shadows (earlier later : String) : Bool :=
  earlier.toList.isPrefixOf later.toList

/-- Checks the delimiters of one list behind the already checked ones of that list. -/
def checkDelimiters (language : String) (category : DelimiterCategory) :
    List String → List String → Except Defect Unit
  | _, [] => .ok ()
  | checked, token :: rest =>
    if token = "" then .error (.emptyDelimiter language category)
    else
      match checked.find? (shadows · token) with
      | some earlier => .error (.shadowed language category earlier token)
      | none => checkDelimiters language category (checked ++ [token]) rest

/-- A list passes if its delimiters are not empty, and neither those that were checked before nor
earlier ones of the list begin any of them. -/
theorem checkDelimiters_eq_ok_iff {language : String} {category : DelimiterCategory}
    {checked tokens : List String} :
    checkDelimiters language category checked tokens = .ok () ↔
      (∀ token ∈ tokens, token ≠ "") ∧
        (∀ earlier ∈ checked, ∀ token ∈ tokens, shadows earlier token = false) ∧
          tokens.Pairwise (shadows · · = false) := by
  induction tokens generalizing checked with
  | nil => simp [checkDelimiters]
  | cons token rest ih =>
    rw [checkDelimiters, List.pairwise_cons, List.forall_mem_cons]
    by_cases hempty : token = ""
    · simp [hempty]
    · rw [if_neg hempty]
      cases hfound : checked.find? (shadows · token) with
      | some earlier =>
        have hbegins : shadows earlier token = true := by simpa using List.find?_some hfound
        simp only [reduceCtorEq, false_iff, not_and]
        intro _ hapart
        have hdiffers := hapart earlier (List.mem_of_find?_eq_some hfound) token List.mem_cons_self
        rw [hbegins] at hdiffers
        cases hdiffers
      | none =>
        have hown : ∀ earlier ∈ checked, shadows earlier token = false := by
          intro earlier hmem
          simpa using List.find?_eq_none.1 hfound earlier hmem
        simp only [ih, List.forall_mem_append, List.forall_mem_singleton, List.forall_mem_cons]
        constructor
        · rintro ⟨hfilled, ⟨hbefore, hfirst⟩, hpairs⟩
          exact ⟨⟨hempty, hfilled⟩, fun earlier hmem => ⟨hown earlier hmem, hbefore earlier hmem⟩,
            hfirst, hpairs⟩
        · rintro ⟨⟨_, hfilled⟩, hbefore, hfirst, hpairs⟩
          exact ⟨hfilled, ⟨fun earlier hmem => (hbefore earlier hmem).2, hfirst⟩, hpairs⟩

/-- Checks the token that closes a block comment. -/
def checkBlock (language : String) (block : BlockComment) : Except Defect Unit :=
  if block.stop = "" then .error (.emptyStop language block.start) else .ok ()

/-- Checks that an escape is not empty. -/
def checkEscape (language : String) (quote : Quote) : Except Defect Unit :=
  if quote.escape = some "" then .error (.emptyEscape language quote.token) else .ok ()

/-- Checks that a limit leaves room for a character. -/
def checkLimit (language : String) (quote : Quote) : Except Defect Unit :=
  if quote.maxLength.any (· < 1) then .error (.limitNotPositive language quote.token) else .ok ()

/-- Checks the language, every list of delimiters and every block comment. -/
def checkTokens (grammar : Grammar) : Except Defect Unit := do
  if grammar.language = "" then
    throw .emptyLanguage
  checkDelimiters grammar.language .lineComment [] grammar.lineComments
  checkDelimiters grammar.language .blockComment [] (grammar.blockComments.map (·.start))
  checkDelimiters grammar.language .string [] (grammar.strings.map (·.token))
  checkDelimiters grammar.language .char [] (grammar.chars.map (·.token))
  grammar.blockComments.forM (checkBlock grammar.language)

/-- Checks the escape and the limit of a quote. -/
def checkQuote (language : String) (quote : Quote) : Except Defect Unit := do
  checkEscape language quote
  checkLimit language quote

/-- Checks a grammar: its tokens first, then the escapes and limits of its quotes. -/
def check (grammar : Grammar) : Except Defect Unit := do
  grammar.checkTokens
  (grammar.strings ++ grammar.chars).forM (checkQuote grammar.language)

/-- A grammar that the checks accept. -/
def Accepted (grammar : Grammar) : Prop :=
  grammar.check = .ok ()

instance (grammar : Grammar) : Decidable grammar.Accepted :=
  match hcheck : grammar.check with
  | .ok () => .isTrue hcheck
  | .error _ => .isFalse (by simp [Accepted, hcheck])

/-- The grammar itself if the checks accept it. -/
def checked (grammar : Grammar) : Except Defect Grammar :=
  grammar.check.map fun _ => grammar

end Grammar

end CommentMarkers
