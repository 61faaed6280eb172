import CommentMarkers.Grammar.Definition
import CommentMarkers.Grammar.Registry
import CommentMarkers.Text.Encoding
import CommentMarkers.Workspace.FileTree

/-!
# Configurations

Grammar files define further grammars. A file holds one grammar, named by its `language` field or
by the file, or several under `grammars`. Files of several locations are read from the location of
the lowest priority to the one of the highest, so that later grammars replace earlier ones. What a
configuration does not know is looked up in the registry.

Main results:

- Theorem `get_of_unknown`: lookups that the configuration does not answer go to the registry.
-/

namespace CommentMarkers

/-! ## Grammar files -/

/-- A file that may define grammars: how messages name it, its own name, and its contents. -/
structure GrammarFile where
  path : String
  name : String
  contents : Except FileFault Bytes

/-- Why a configuration cannot be loaded. -/
inductive ConfigFault where
  | defective (defect : Grammar.Defect)
  | notMapping (path : String)
  | grammarsNotMapping (path : String)
  | unreadable (fault : FileFault)
  | notText (path : String)
  deriving DecidableEq, Repr

/-- The message for a fault. -/
def ConfigFault.message : ConfigFault → String
  | defective defect => defect.message
  | notMapping path => path ++ ": grammar file must contain a mapping"
  | grammarsNotMapping path => path ++ ": 'grammars' must map language ids to definitions"
  | unreadable fault => fault.message
  | notText path => path ++ ": grammar file must be UTF-8"

/-- Holds if a part occurs somewhere in the characters. -/
def occursIn (part : List Char) : List Char → Bool
  | [] => part.isEmpty
  | char :: rest => part.isPrefixOf (char :: rest) || occursIn part rest

/-- Holds of the names of grammar files: `.y` stands somewhere in front of `ml` at the end. -/
def isGrammarFileName (name : String) : Bool :=
  let reversed := name.toList.reverse
  "lm".toList.isPrefixOf reversed && occursIn "y.".toList (reversed.drop 2)

/-- A grammar that a file defines. A void definition defines a grammar without delimiters. -/
def readDefinition (language : String) (definition : Data) : Except ConfigFault Grammar :=
  (Grammar.ofData language (if definition.isVoid then .map [] else definition)).mapError .defective

/-- The language that a file with a single grammar defines. -/
def fileLanguage (name : String) (entries : List (Data × Data)) : String :=
  let given := Grammar.field entries "language"
  if given.isVoid then Text.Path.stem name else given.display

/-- The grammars that the data of a file defines. Void data defines none. -/
def GrammarFile.grammars (file : GrammarFile) (data : Data) : Except ConfigFault (List Grammar) :=
  if data.isVoid then return []
  else
    match data with
    | .map entries =>
      match Data.entry? entries "grammars" with
      | some (.map definitions) =>
        definitions.mapM fun (language, definition) => readDefinition language.display definition
      | some _ => throw (.grammarsNotMapping file.path)
      | none => return [← readDefinition (fileLanguage file.name entries) data]
    | _ => throw (.notMapping file.path)

/-- The text of a file. -/
def GrammarFile.text (file : GrammarFile) : Except ConfigFault String := do
  let bytes ← file.contents.mapError .unreadable
  match Text.decode? bytes with
  | some text => return text
  | none => throw (.notText file.path)

/-! ## Loading -/

/-- Grammars that replace or add to the registered ones. -/
structure Config where
  catalogue : Catalogue
  deriving DecidableEq, Repr

namespace Config

/-- The configuration without grammars. -/
def empty : Config := ⟨.empty⟩

/-- Adds grammars one after the other. -/
def addAll (config : Config) (grammars : List Grammar) : Config :=
  ⟨grammars.foldl Catalogue.add config.catalogue⟩

/-- The outcome of loading grammar files: the files that were skipped because they are malformed,
and the configuration. -/
structure Loaded where
  skipped : List String
  result : Except ConfigFault Config

/-- Loads files one after the other. `parse` reads the data of a file, if it is well-formed. -/
def loadFiles (parse : String → Option Data) (config : Config) : List GrammarFile → Loaded
  | [] => ⟨[], .ok config⟩
  | file :: rest =>
    match file.text with
    | .error fault => ⟨[], .error fault⟩
    | .ok text =>
      match parse text with
      | none =>
        let loaded := loadFiles parse config rest
        { loaded with skipped := file.path :: loaded.skipped }
      | some data =>
        match file.grammars data with
        | .error fault => ⟨[], .error fault⟩
        | .ok grammars => loadFiles parse (config.addAll grammars) rest

/-- Loads the files of locations, of which the first one has the highest priority. -/
def load (parse : String → Option Data) (locations : List (List GrammarFile)) : Loaded :=
  loadFiles parse empty locations.reverse.flatten

/-! ## Lookups -/

/-- The languages of the configuration in order. -/
def languages (config : Config) : List String :=
  config.catalogue.languages

/-- The grammar for a language or an extension. -/
def get (config : Config) (registry : Registry) (key : String) :
    Except UnknownLanguage Grammar :=
  match config.catalogue.byKey? key with
  | some grammar => .ok grammar
  | none => registry.get key

/-- Lookups that the configuration does not answer go to the registry. -/
theorem get_of_unknown {config : Config} {key : String} (registry : Registry)
    (hunknown : config.catalogue.byKey? key = none) :
    config.get registry key = registry.get key := by
  simp [get, hunknown]

/-- The grammar for a file, by its name and then by its extension. -/
def forPath (config : Config) (registry : Registry) (path : String) :
    Except UnknownLanguage Grammar :=
  let name := Text.Path.baseName path
  let extension := Text.Path.extension name
  let byExtension := if extension = "" then none else config.catalogue.byExtension? extension
  match (config.catalogue.byName? name).or byExtension with
  | some grammar => .ok grammar
  | none => registry.forPath path

/-- Holds if a lookup finds a grammar. -/
def has (config : Config) (registry : Registry) (key : String) : Bool :=
  (config.get registry key).isOk

/-- Registers the grammars of a configuration. -/
def registerAll (config : Config) (registry : Registry) : Registry :=
  registry.registerAll config.catalogue.grammars.values

end Config

end CommentMarkers
