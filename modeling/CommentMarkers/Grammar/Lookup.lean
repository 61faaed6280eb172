import CommentMarkers.Grammar.Table
import CommentMarkers.Index
import CommentMarkers.Text.LowerCase
import CommentMarkers.Text.Path
import CommentMarkers.Text.Quoted

/-!
# Looking up grammars

Grammars are found by their language, by a file extension, or by a file name. A `Catalogue` holds
grammars with the two indexes that lead to them. Case does not matter for extensions, and the dot
in front of one may be left out.

Main results:

- Theorem `byKey?_of_language`: a language is found by its own name first.
-/

namespace CommentMarkers

/-! ## Failures -/

/-- Why no grammar is found. -/
inductive UnknownLanguage where
  /-- No language and no extension has this name; a similar language may be suggested. -/
  | noLanguage (key : String) (available : List String) (suggestion : Option String)
  /-- A file name that has no extension indicates no language. -/
  | noExtension (name : String)
  /-- The extension of a file name indicates no language. -/
  | noSuchExtension (extension name : String)
  deriving DecidableEq, Repr

namespace UnknownLanguage

/-- What was looked for. -/
def subject : UnknownLanguage → String
  | noLanguage key _ _ => key
  | noExtension name => name
  | noSuchExtension extension _ => extension

/-- The message for a failure. -/
def message : UnknownLanguage → String
  | noLanguage key available suggestion =>
    "Unsupported language " ++ Text.quoted key ++ ". Available languages: "
      ++ ", ".intercalate available
      ++ (match suggestion with
        | some language => ". Did you mean " ++ Text.quoted language ++ "?"
        | none => "")
  | noExtension name => "Cannot determine the language of " ++ Text.quoted name
  | noSuchExtension extension name =>
    "Unsupported file extension " ++ Text.quoted extension ++ " (" ++ name ++ ")"

end UnknownLanguage

/-! ## Catalogues -/

/-- Grammars by language, and the languages that extensions and file names indicate. -/
structure Catalogue where
  grammars : Index Grammar
  byExtension : Index String
  byFilename : Index String
  deriving DecidableEq, Repr

namespace Catalogue

/-- The catalogue without grammars. -/
def empty : Catalogue := ⟨.empty, .empty, .empty⟩

/-- The languages in order. -/
def languages (catalogue : Catalogue) : List String :=
  catalogue.grammars.keys.mergeSort fun first second => first ≤ second

/-- Adds a grammar, and lets its extensions and file names indicate its language. -/
def add (catalogue : Catalogue) (grammar : Grammar) : Catalogue where
  grammars := catalogue.grammars.put grammar.language grammar
  byExtension := grammar.extensions.foldl
    (fun index extension => index.put (Text.lower extension) grammar.language)
    catalogue.byExtension
  byFilename := grammar.filenames.foldl
    (fun index name => index.put name grammar.language) catalogue.byFilename

/-- Takes a key out of an index if it indicates a language. -/
def forgetKey (language : String) (index : Index String) (key : String) : Index String :=
  if index.get? key = some language then index.erase key else index

/-- Lets the extensions and file names of a grammar no longer indicate its language. -/
def forget (catalogue : Catalogue) (grammar : Grammar) : Catalogue where
  grammars := catalogue.grammars
  byExtension := (grammar.extensions.map Text.lower).foldl (forgetKey grammar.language)
    catalogue.byExtension
  byFilename := grammar.filenames.foldl (forgetKey grammar.language) catalogue.byFilename

/-- The language that a lower-case extension indicates. -/
def languageOfExtension? (catalogue : Catalogue) (key : String) : Option String :=
  let lower := Text.lower key
  match catalogue.byExtension.get? lower with
  | some language => some language
  | none =>
    if key.toList.head? = some '.' then none else catalogue.byExtension.get? ("." ++ lower)

/-- The grammar of a language, or the one that an extension indicates. -/
def byKey? (catalogue : Catalogue) (key : String) : Option Grammar :=
  match catalogue.grammars.get? key with
  | some grammar => some grammar
  | none => (catalogue.languageOfExtension? key).bind catalogue.grammars.get?

/-- A language is found by its own name first. -/
theorem byKey?_of_language {catalogue : Catalogue} {key : String} {grammar : Grammar}
    (hlanguage : catalogue.grammars.get? key = some grammar) :
    catalogue.byKey? key = some grammar := by
  simp [byKey?, hlanguage]

/-- The grammar that a file name indicates by itself. -/
def byName? (catalogue : Catalogue) (name : String) : Option Grammar :=
  (catalogue.byFilename.get? name).bind catalogue.grammars.get?

/-- The grammar that an extension of a file name indicates. -/
def byExtension? (catalogue : Catalogue) (extension : String) : Option Grammar :=
  (catalogue.byExtension.get? (Text.lower extension)).bind catalogue.grammars.get?

end Catalogue

end CommentMarkers
