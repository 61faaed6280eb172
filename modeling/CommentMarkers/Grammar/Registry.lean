import CommentMarkers.Grammar.Builtin
import CommentMarkers.Grammar.Lookup
import CommentMarkers.Text.Similarity

/-!
# The registry

The registry is the catalogue that every lookup ends in. It starts with the built-in grammars. A
grammar that is registered again replaces the earlier one of its language, whose extensions and
file names are forgotten unless another language has taken them over.

Main results:

- Theorem `get_of_byKey?`: what the catalogue finds is the answer.
-/

namespace CommentMarkers

/-- The registered grammars. -/
structure Registry where
  catalogue : Catalogue
  deriving DecidableEq, Repr

namespace Registry

/-- The registry without grammars. -/
def empty : Registry := ⟨.empty⟩

/-- Registers a grammar in place of an earlier one of its language. -/
def register (registry : Registry) (grammar : Grammar) : Registry :=
  let cleared :=
    match registry.catalogue.grammars.get? grammar.language with
    | some earlier => registry.catalogue.forget earlier
    | none => registry.catalogue
  ⟨cleared.add grammar⟩

/-- Registers grammars one after the other. -/
def registerAll (registry : Registry) (grammars : List Grammar) : Registry :=
  grammars.foldl register registry

/-- The registry of the built-in grammars. -/
def builtin : Registry :=
  empty.registerAll Grammar.builtin

/-- The registered languages in order. -/
def languages (registry : Registry) : List String :=
  registry.catalogue.languages

/-- The failure for a key that leads to no grammar. -/
def unknownKey (registry : Registry) (key : String) : UnknownLanguage :=
  .noLanguage key registry.languages
    (Text.Similarity.closest? (Text.lower key) registry.catalogue.grammars.keys)

/-- The grammar for a language or an extension. -/
def get (registry : Registry) (key : String) : Except UnknownLanguage Grammar :=
  match registry.catalogue.byKey? key with
  | some grammar => .ok grammar
  | none => .error (registry.unknownKey key)

/-- What the catalogue finds is the answer. -/
theorem get_of_byKey? {registry : Registry} {key : String} {grammar : Grammar}
    (hfound : registry.catalogue.byKey? key = some grammar) : registry.get key = .ok grammar := by
  simp [get, hfound]

/-- The grammar for a file, by its name and then by its extension. -/
def forPath (registry : Registry) (path : String) : Except UnknownLanguage Grammar :=
  let name := Text.Path.baseName path
  match registry.catalogue.byName? name with
  | some grammar => .ok grammar
  | none =>
    let extension := Text.Path.extension name
    if extension = "" then .error (.noExtension name)
    else
      match registry.catalogue.byExtension? extension with
      | some grammar => .ok grammar
      | none => .error (.noSuchExtension extension name)

end Registry

end CommentMarkers
