import CommentMarkers.Annotation.Extraction
import CommentMarkers.Config
import CommentMarkers.Yaml.Document

/-!
# Workspaces

A workspace is a tree of source files with the registry, the current configuration and the current
scanner. Scanning several files keeps their outcomes apart: what is wrong with one of them shows in
its own result. Warnings tell which files could not be used.

Main results:

- Theorem `scanFile_annotations_of_error`: a result with an error has no annotations.
-/

namespace CommentMarkers

/-! ## Warnings -/

/-- A file that could not be used. -/
inductive Warning where
  | skipped (path : String)
  | unreadable (path : String) (fault : FileFault)
  | unclosed (failure : Unclosed)
  deriving DecidableEq, Repr

/-- The text of a warning. -/
def Warning.message : Warning → String
  | skipped path => "skip " ++ path
  | unreadable path fault => "Cannot read " ++ path ++ ": " ++ fault.message
  | unclosed failure => "Scan failed: " ++ failure.message

/-! ## Scanners -/

/-- What a scanner looks for, the configuration that it was made with, and how many files it may
scan at a time. -/
structure Scanner where
  query : Query
  config : Config
  jobs : Int
  deriving DecidableEq, Repr

/-- Why a file could not be scanned. -/
inductive FileError where
  | unreadable (fault : FileFault)
  | unclosed (failure : Unclosed)
  deriving DecidableEq, Repr

/-- The outcome of scanning a file. -/
structure FileResult where
  path : String
  language : String
  annotations : List Annotation
  error : Option FileError
  deriving DecidableEq, Repr

/-- Holds of results without an error. -/
def FileResult.ok (result : FileResult) : Bool :=
  result.error.isNone

/-- Why the scan of a file has no result. -/
inductive ScanFault where
  | unknownLanguage (fault : UnknownLanguage)
  | issueTooLong (fault : IssueTooLong)
  deriving DecidableEq, Repr

/-- An outcome with the warnings that were given on the way. -/
structure Logged (α : Type) where
  value : α
  warnings : List Warning

namespace Scanner

/-- The result of scanning the contents of a file. -/
def scanContents (scanner : Scanner) (path : String) (grammar : Grammar) (contents : Bytes) :
    Logged (Except ScanFault FileResult) :=
  match grammar.annotations scanner.query contents with
  | .ok found => ⟨.ok ⟨path, grammar.language, found, none⟩, []⟩
  | .error (.unclosed failure) =>
    let named := failure.inFile path
    ⟨.ok ⟨path, grammar.language, [], some (.unclosed named)⟩, [.unclosed named]⟩
  | .error (.issueTooLong fault) => ⟨.error (.issueTooLong fault), []⟩

/-- Scans a file. A file that cannot be read, or that is not closed, has a result with an error. -/
def scanFile (scanner : Scanner) (registry : Registry) (tree : FileTree) (path : String) :
    Logged (Except ScanFault FileResult) :=
  match scanner.config.forPath registry path with
  | .error fault => ⟨.error (.unknownLanguage fault), []⟩
  | .ok grammar =>
    match tree.read path with
    | .error fault =>
      ⟨.ok ⟨path, grammar.language, [], some (.unreadable fault)⟩, [.unreadable path fault]⟩
    | .ok contents => scanner.scanContents path grammar contents

/-- A result with an error has no annotations. -/
theorem scanFile_annotations_of_error {scanner : Scanner} {registry : Registry} {tree : FileTree}
    {path : String} {result : FileResult}
    (hresult : (scanner.scanFile registry tree path).value = .ok result)
    (hfailed : result.ok = false) :
    result.annotations = [] := by
  unfold scanFile at hresult
  split at hresult
  · simp at hresult
  · split at hresult
    · cases hresult
      rfl
    · unfold scanContents at hresult
      split at hresult
      · cases hresult
        simp [FileResult.ok] at hfailed
      · cases hresult
        rfl
      · simp at hresult

/-- Scans files one after the other. Files without a grammar have no result. -/
def scanFiles (scanner : Scanner) (registry : Registry) (tree : FileTree) :
    List String → Logged (Except ScanFault (List FileResult))
  | [] => ⟨.ok [], []⟩
  | path :: rest =>
    let first := scanner.scanFile registry tree path
    match first.value with
    | .error (.issueTooLong fault) => ⟨.error (.issueTooLong fault), first.warnings⟩
    | .error (.unknownLanguage _) =>
      let more := scanFiles scanner registry tree rest
      ⟨more.value, first.warnings ++ more.warnings⟩
    | .ok result =>
      let more := scanFiles scanner registry tree rest
      ⟨more.value.map (result :: ·), first.warnings ++ more.warnings⟩

/-- Scans bytes as a source of a language. -/
def scanBytes (scanner : Scanner) (registry : Registry) (source : Bytes) (language : String) :
    Except UnknownLanguage (Except SourceFault (List Annotation)) :=
  (scanner.config.get registry language).map fun grammar =>
    grammar.annotations scanner.query source

end Scanner

/-! ## Workspaces -/

/-- The files with the registry, the current configuration and the current scanner. -/
structure Workspace where
  tree : FileTree
  registry : Registry
  config : Option Config
  scanner : Option Scanner

namespace Workspace

/-- A workspace with the built-in grammars. -/
def start (tree : FileTree) : Workspace :=
  ⟨tree, .builtin, none, none⟩

/-- The grammar files in a directory, in the order of their names. -/
def grammarFiles (workspace : Workspace) (directory : String) : List GrammarFile :=
  ((workspace.tree.list directory).filter isGrammarFileName).map fun name =>
    let path := Text.Path.join directory name
    ⟨path, name, workspace.tree.read path⟩

/-- The directory that stands for the home of the user. -/
def home : String := "home"

/-- The name under which grammar files are searched if no other one is given. -/
def defaultApplication : String := "sibylline-tags"

/-- The locations of the grammar files of an application: those of the user have priority over
those of the project. -/
def defaultLocations (application : String) : List String :=
  [home ++ "/.config/" ++ application ++ "/grammars", "." ++ application ++ "/grammars"]

/-- Loads the grammar files of locations, of which the first one has the highest priority. -/
def loadConfig (workspace : Workspace) (locations : List String) :
    Logged (Except ConfigFault Config) :=
  let loaded := Config.load Yaml.parse (locations.map workspace.grammarFiles)
  ⟨loaded.result, loaded.skipped.map .skipped⟩

/-- The current configuration, or the one of the default locations. -/
def configOrDefault (workspace : Workspace) : Logged (Except ConfigFault Config) :=
  match workspace.config with
  | some config => ⟨.ok config, []⟩
  | none => workspace.loadConfig (defaultLocations defaultApplication)

/-- Puts warnings in the order in which they are shown. A scanner with several jobs gives them in
no fixed order, so they are sorted. -/
def arrange (workspace : Workspace) (warnings : List Warning) : List String :=
  let messages := warnings.map Warning.message
  if workspace.scanner.any fun scanner => 1 < scanner.jobs then
    messages.mergeSort fun first second => first ≤ second
  else messages

end Workspace

end CommentMarkers
