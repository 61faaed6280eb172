import CommentMarkers.Data.Data
import CommentMarkers.Grammar.Defect
import CommentMarkers.Text.LowerCase

/-!
# Definitions of grammars

A definition is loosely typed data that describes a grammar. Reading it goes in two steps: a draft
holds what the fields contain, and the draft becomes a grammar once its tokens are texts and the
checks accept it. The first fault in this order is the one that is reported.

Main results:

- Theorem `accepted_of_checked`: what the last check lets through is accepted.
- Theorem `accepted_of_ofData`: every grammar that is read passes the checks.
-/

namespace CommentMarkers.Grammar

/-! ## Fields -/

/-- The value of a field, or null. -/
def field (entries : List (Data × Data)) (name : String) : Data :=
  (Data.entry? entries name).getD .null

/-- The value of a field that must be there. -/
def requiredField (language : String) (entries : List (Data × Data)) (name : String) :
    Except Defect Data :=
  match Data.entry? entries name with
  | some value => .ok value
  | none => .error (.missingField language name)

/-- The items that a field lists: none if it is void, the characters of a text, and the keys of a
mapping. -/
def fieldItems (language : String) (value : Data) : Except Defect (List Data) :=
  if value.isVoid then .ok []
  else
    match value with
    | .list items => .ok items
    | .text chars => .ok (chars.toList.map fun char => .text (String.ofList [char]))
    | .map entries => .ok (entries.map (·.1))
    | .null | .bool _ | .int _ | .decimal _ => .error (.malformed language)

/-! ## Drafts -/

/-- A block comment as a definition describes it. -/
structure BlockDraft where
  start : Data
  stop : Data
  nested : Bool

/-- A quote as a definition describes it. -/
structure QuoteDraft where
  token : Data
  escape : Data
  limit : Data

/-- A grammar as a definition describes it. -/
structure Draft where
  lineComments : List Data
  blockComments : List BlockDraft
  strings : List QuoteDraft
  chars : List QuoteDraft
  extensions : List String
  filenames : List Data

/-- A block comment is described by a mapping. -/
def readBlock (language : String) : Data → Except Defect BlockDraft
  | .map entries => do
    let start ← requiredField language entries "start"
    let stop ← requiredField language entries "end"
    return ⟨start, stop, !(field entries "nested").isVoid⟩
  | _ => .error (.malformed language)

/-- A quote is described by its token alone, or by a mapping. -/
def readQuote (language : String) : Data → Except Defect QuoteDraft
  | .text token => .ok ⟨.text token, .null, .null⟩
  | .map entries => do
    let token ← requiredField language entries "token"
    return ⟨token, field entries "escape", field entries "max_length"⟩
  | _ => .error (.malformed language)

/-- An extension is a text; case does not matter. -/
def readExtension (language : String) : Data → Except Defect String
  | .text extension => .ok (Text.lower extension)
  | _ => .error (.malformed language)

/-- Reads the fields of a definition one after the other. -/
def readDraft (language : String) : Data → Except Defect Draft
  | .map entries => do
    let lineComments ← fieldItems language (field entries "line_comments")
    let blocks ← fieldItems language (field entries "block_comments")
    let blockComments ← blocks.mapM (readBlock language)
    let strings ← (← fieldItems language (field entries "strings")).mapM (readQuote language)
    let chars ← (← fieldItems language (field entries "chars")).mapM (readQuote language)
    let listed ← fieldItems language (field entries "extensions")
    let extensions ← listed.mapM (readExtension language)
    let filenames ← fieldItems language (field entries "filenames")
    return { lineComments, blockComments, strings, chars, extensions, filenames }
  | _ => .error (.malformed language)

/-! ## From drafts to grammars -/

/-- A token is a text; a void value stands for the empty one. -/
def readToken (language : String) (value : Data) : Except Defect String :=
  match value with
  | .text token => .ok token
  | other => if other.isVoid then .ok "" else .error (.malformed language)

/-- An escape is a text or missing. -/
def readEscape (language : String) : Data → Except Defect (Option String)
  | .null => .ok none
  | .text escape => .ok (some escape)
  | _ => .error (.malformed language)

/-- A limit is a whole number or missing. -/
def readLimit (language : String) : Data → Except Defect (Option Int)
  | .null => .ok none
  | .int limit => .ok (some limit)
  | .bool limit => .ok (some (if limit then 1 else 0))
  | _ => .error (.malformed language)

/-- A file name is a text. Null, truth values and numbers may be listed, but no file is called by
them. -/
def readFilename (language : String) : Data → Except Defect (Option String)
  | .text name => .ok (some name)
  | .null | .bool _ | .int _ | .decimal _ => .ok none
  | .list _ | .map _ => .error (.malformed language)

/-- The tokens of a block comment. -/
def BlockDraft.tokens (language : String) (draft : BlockDraft) : Except Defect BlockComment := do
  return ⟨← readToken language draft.start, ← readToken language draft.stop, draft.nested⟩

/-- The tokens of a quote. -/
def QuoteDraft.tokens (language : String) (draft : QuoteDraft) : Except Defect Quote := do
  return ⟨← readToken language draft.token, ← readEscape language draft.escape, none⟩

/-- Gives a quote the limit of its draft and checks both. -/
def QuoteDraft.withLimit (language : String) (draft : QuoteDraft) (quote : Quote) :
    Except Defect Quote := do
  checkEscape language quote
  let limited := { quote with maxLength := ← readLimit language draft.limit }
  checkLimit language limited
  return limited

/-- Turns a draft into a grammar. The tokens are checked first, then the quotes one by one. -/
def Draft.toGrammar (language : String) (draft : Draft) : Except Defect Grammar := do
  let unlimited : Grammar := {
    language
    lineComments := ← draft.lineComments.mapM (readToken language)
    blockComments := ← draft.blockComments.mapM (·.tokens language)
    strings := ← draft.strings.mapM (·.tokens language)
    chars := ← draft.chars.mapM (·.tokens language)
    extensions := draft.extensions
    filenames := (← draft.filenames.mapM (readFilename language)).filterMap id }
  unlimited.checkTokens
  let limit (pair : QuoteDraft × Quote) := pair.1.withLimit language pair.2
  let strings ← (draft.strings.zip unlimited.strings).mapM limit
  let chars ← (draft.chars.zip unlimited.chars).mapM limit
  { unlimited with strings, chars }.checked

/-- The grammar that a definition describes. -/
def ofData (language : String) (definition : Data) : Except Defect Grammar := do
  let draft ← readDraft language definition
  draft.toGrammar language

/-! ## Accepted grammars -/

/-- What the last check lets through is accepted. -/
theorem accepted_of_checked {grammar result : Grammar} (hchecked : grammar.checked = .ok result) :
    result.Accepted := by
  unfold checked at hchecked
  cases houtcome : grammar.check with
  | error defect => simp [houtcome, Except.map] at hchecked
  | ok passed =>
    simp only [houtcome, Except.map, Except.ok.injEq] at hchecked
    subst hchecked
    exact houtcome

private theorem exists_of_bind_eq_ok {ε α β : Type} {first : Except ε α} {next : α → Except ε β}
    {result : β} (hbind : first >>= next = .ok result) : ∃ value, next value = .ok result := by
  cases first with
  | error fault => cases hbind
  | ok value => exact ⟨value, hbind⟩

/-- Every grammar that is read passes the checks. -/
theorem accepted_of_ofData {language : String} {definition : Data} {grammar : Grammar}
    (hgrammar : ofData language definition = .ok grammar) : grammar.Accepted := by
  unfold ofData at hgrammar
  obtain ⟨draft, hgrammar⟩ := exists_of_bind_eq_ok hgrammar
  unfold Draft.toGrammar at hgrammar
  obtain ⟨lineComments, hgrammar⟩ := exists_of_bind_eq_ok hgrammar
  obtain ⟨blockComments, hgrammar⟩ := exists_of_bind_eq_ok hgrammar
  obtain ⟨strings, hgrammar⟩ := exists_of_bind_eq_ok hgrammar
  obtain ⟨chars, hgrammar⟩ := exists_of_bind_eq_ok hgrammar
  obtain ⟨filenames, hgrammar⟩ := exists_of_bind_eq_ok hgrammar
  obtain ⟨_, hgrammar⟩ := exists_of_bind_eq_ok hgrammar
  obtain ⟨limitedStrings, hgrammar⟩ := exists_of_bind_eq_ok hgrammar
  obtain ⟨limitedChars, hgrammar⟩ := exists_of_bind_eq_ok hgrammar
  exact accepted_of_checked hgrammar

end CommentMarkers.Grammar
