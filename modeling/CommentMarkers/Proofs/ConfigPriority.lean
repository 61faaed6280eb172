import CommentMarkers.Proofs.ConfigLookups
import CommentMarkers.Proofs.FileTrees
import CommentMarkers.Proofs.Results
import CommentMarkers.Workspace

/-!
# The priority of definitions

A language may be defined in several locations, in several files of a location, and several times in
a file.  One of these definitions prevails: it is in the location of the highest priority that
defines the language, there in the last file in order that does so, and there it is the last one.  A
configuration answers with the grammar that this definition describes.  Files that are malformed or
say nothing may as well be deleted.

Main results:

- Theorem `GrammarFile.describe_definitions`: a file defines what its definitions describe.
- Theorem `Config.loadFiles_isOk_iff`: files are loaded exactly if all of them are valid.
- Theorem `Workspace.exists_prevails`: where a language is defined, a definition prevails.
- Theorem `Workspace.Prevails.exists_split`: it is the last one of its language that is read.
- Theorem `Workspace.load_withoutFiles`: what is loaded when idle files are deleted.
- Theorem `config_priority`: what a configuration answers for languages, and what it lists.
-/

namespace CommentMarkers

/-- Where something has a property, there is a last one that has it. -/
theorem exists_last_split {α : Type} (holds : α → Prop) {items : List α}
    (hsome : ∃ item ∈ items, holds item) :
    ∃ front item back, items = front ++ item :: back ∧ holds item ∧
      ∀ later ∈ back, ¬ holds later := by
  induction items with
  | nil =>
      obtain ⟨item, hitem, -⟩ := hsome
      cases hitem
  | cons first rest ih =>
      by_cases hrest : ∃ item ∈ rest, holds item
      · obtain ⟨front, item, back, rfl, hlast⟩ := ih hrest
        exact ⟨first :: front, item, back, rfl, hlast⟩
      · have hnone : ∀ item ∈ rest, ¬ holds item := fun item hitem hholds =>
          hrest ⟨item, hitem, hholds⟩
        obtain ⟨item, hitem, hholds⟩ := hsome
        rcases List.mem_cons.1 hitem with rfl | hlater
        · exact ⟨[], item, rest, rfl, hholds, hnone⟩
        · exact absurd hholds (hnone item hlater)

/-! ## Definitions in files -/

/-- Holds of definitions and the grammars that they describe. -/
def Describe : List (String × Data) → List Grammar → Prop :=
  List.Forall₂ fun entry grammar => readDefinition entry.1 entry.2 = .ok grammar

namespace GrammarFile

variable {parse : String → Option Data} {file : GrammarFile} {language : String}

/-- The definitions in the data of a file, each with its language: the file as a whole, or the
entries under `grammars`. -/
def definitionsIn (file : GrammarFile) (data : Data) : List (String × Data) :=
  if data.isVoid then []
  else
    match data with
    | .map entries =>
      match Data.entry? entries "grammars" with
      | some (.map definitions) =>
        definitions.map fun (language, definition) => (language.display, definition)
      | some _ => []
      | none => [(fileLanguage file.name entries, data)]
    | _ => []

/-- The definitions in a file.  There are none in a file that cannot be read or is malformed. -/
def definitions (parse : String → Option Data) (file : GrammarFile) : List (String × Data) :=
  match file.text with
  | .error _ => []
  | .ok text =>
    match parse text with
    | none => []
    | some data => file.definitionsIn data

/-- Holds if a file defines a language. -/
def Defines (parse : String → Option Data) (file : GrammarFile) (language : String) : Prop :=
  ∃ definition, (language, definition) ∈ file.definitions parse

/-- Holds of a text whose definitions are all accepted, unless it is malformed. -/
def IsValid (parse : String → Option Data) (file : GrammarFile) : Prop :=
  ∃ text, file.text = .ok text ∧
    ∀ data, parse text = some data → ∃ grammars, file.grammars data = .ok grammars

/-- Holds of a text that is malformed or whose data is void. -/
def IsIdle (parse : String → Option Data) (file : GrammarFile) : Prop :=
  ∃ text, file.text = .ok text ∧ ∀ data, parse text = some data → data.isVoid = true

/-- The grammar of a definition is for the language of the definition. -/
theorem language_of_readDefinition {definition : Data} {grammar : Grammar}
    (hread : readDefinition language definition = .ok grammar) : grammar.language = language := by
  unfold readDefinition at hread
  generalize (if definition.isVoid then Data.map [] else definition) = data at hread
  cases hdata : Grammar.ofData language data with
  | error defect =>
      rw [hdata] at hread
      cases hread
  | ok found =>
      rw [hdata] at hread
      cases hread
      unfold Grammar.ofData at hdata
      obtain ⟨draft, -, hdraft⟩ := bind_eq_ok_iff.1 hdata
      unfold Grammar.Draft.toGrammar at hdraft
      obtain ⟨lineComments, -, hdraft⟩ := bind_eq_ok_iff.1 hdraft
      obtain ⟨blockComments, -, hdraft⟩ := bind_eq_ok_iff.1 hdraft
      obtain ⟨strings, -, hdraft⟩ := bind_eq_ok_iff.1 hdraft
      obtain ⟨chars, -, hdraft⟩ := bind_eq_ok_iff.1 hdraft
      obtain ⟨filenames, -, hdraft⟩ := bind_eq_ok_iff.1 hdraft
      obtain ⟨_, -, hdraft⟩ := bind_eq_ok_iff.1 hdraft
      obtain ⟨limitedStrings, -, hdraft⟩ := bind_eq_ok_iff.1 hdraft
      obtain ⟨limitedChars, -, hdraft⟩ := bind_eq_ok_iff.1 hdraft
      obtain ⟨_, -, rfl⟩ := map_eq_ok_iff.1 hdraft
      rfl

/-- The grammars of the data of a file are what its definitions describe. -/
theorem mapM_definitionsIn {data : Data} {grammars : List Grammar}
    (hgrammars : file.grammars data = .ok grammars) :
    (file.definitionsIn data).mapM (fun (language, definition) =>
      readDefinition language definition) = .ok grammars := by
  unfold GrammarFile.grammars at hgrammars
  unfold definitionsIn
  by_cases hvoid : data.isVoid = true
  · rw [if_pos hvoid] at hgrammars ⊢
    exact hgrammars
  · rw [if_neg hvoid] at hgrammars ⊢
    cases data with
    | map entries =>
        cases hentry : Data.entry? entries "grammars" with
        | none =>
            simp only [hentry, List.mapM_cons, List.mapM_nil] at hgrammars ⊢
            exact hgrammars
        | some found =>
            simp only [hentry] at hgrammars ⊢
            cases found with
            | map definitions =>
                rw [List.mapM_map]
                exact hgrammars
            | _ => cases hgrammars
    | _ => cases hgrammars

/-- The definitions in a file describe the grammars that it defines. -/
theorem describe_definitions (hvalid : file.IsValid parse) :
    Describe (file.definitions parse) (file.defined parse) := by
  obtain ⟨text, htext, hgrammars⟩ := hvalid
  rw [definitions, defined, htext]
  cases hparse : parse text with
  | none =>
      simp only [hparse]
      exact List.Forall₂.nil
  | some data =>
      obtain ⟨grammars, hdata⟩ := hgrammars data hparse
      simp only [hparse, hdata]
      exact forall₂_of_mapM (mapM_definitionsIn hdata)

end GrammarFile

/-! ## Definitions in force -/

/-- Nothing is found under a key exactly if the index does not have it. -/
theorem Index.get?_eq_none_iff {α : Type} {index : Index α} {key : String} :
    index.get? key = none ↔ key ∉ index.keys := by
  rw [get?, List.lookup_eq_none_iff, keys, List.mem_map, not_exists]
  refine forall_congr' fun entry => ?_
  rw [not_and, bne_iff_ne]
  exact imp_congr_right fun _ => ne_comm

section Entries

variable {entries : List (String × Data)} {grammars : List Grammar} {language : String}

/-- A language is registered exactly if a grammar is for it. -/
theorem registered?_eq_none_iff :
    registered? language grammars = none ↔ language ∉ grammars.map (·.language) := by
  simp [registered?, latest?]

/-- The grammars of definitions are for their languages. -/
theorem Describe.map_language (hdescribe : Describe entries grammars) :
    grammars.map (·.language) = entries.map (·.1) := by
  induction hdescribe with
  | nil => rfl
  | cons hfirst _ ih =>
      rw [List.map_cons, List.map_cons, ih, GrammarFile.language_of_readDefinition hfirst]

/-- The grammar in force of a language is the one of its last definition. -/
theorem Describe.exists_registered? {front back : List (String × Data)}
    {definition : Data} (hdescribe : Describe (front ++ (language, definition) :: back) grammars)
    (hback : ∀ entry ∈ back, entry.1 ≠ language) :
    ∃ grammar, readDefinition language definition = .ok grammar ∧
      registered? language grammars = some grammar := by
  induction front generalizing grammars with
  | nil =>
      obtain ⟨grammar, later, hgrammar, hlater, rfl⟩ := List.forall₂_cons_left_iff.1 hdescribe
      have hnone : registered? language later = none := by
        rw [registered?_eq_none_iff, Describe.map_language hlater, List.mem_map]
        rintro ⟨entry, hentry, hsame⟩
        exact hback entry hentry hsame
      refine ⟨grammar, hgrammar, ?_⟩
      rw [registered?] at hnone ⊢
      rw [← List.singleton_append, latest?_append, hnone, Option.none_or]
      simp [latest?, GrammarFile.language_of_readDefinition hgrammar]
  | cons first front ih =>
      obtain ⟨other, rest, -, hrest, rfl⟩ := List.forall₂_cons_left_iff.1 hdescribe
      obtain ⟨grammar, hgrammar, hregistered⟩ := ih hrest
      refine ⟨grammar, hgrammar, ?_⟩
      rw [registered?] at hregistered ⊢
      rw [← List.singleton_append, latest?_append, hregistered, Option.some_or]

end Entries

namespace Config

variable {parse : String → Option Data} {config : Config} {files : List GrammarFile}
  {definitions : List Grammar}

/-- Files are loaded exactly if all of them are valid. -/
theorem loadFiles_isOk_iff :
    (∃ loaded, (loadFiles parse config files).result = .ok loaded) ↔
      ∀ file ∈ files, file.IsValid parse := by
  induction files generalizing config with
  | nil => exact iff_of_true ⟨config, rfl⟩ fun file hfile => absurd hfile List.not_mem_nil
  | cons file rest ih =>
      rw [List.forall_mem_cons, loadFiles, GrammarFile.IsValid]
      cases htext : file.text with
      | error fault =>
          constructor
          · rintro ⟨loaded, hloaded⟩
            cases hloaded
          · rintro ⟨⟨text, hsame, -⟩, -⟩
            cases hsame
      | ok text =>
          cases hparse : parse text with
          | none =>
              simp only [hparse, ih]
              refine (and_iff_right ⟨text, rfl, fun data hdata => ?_⟩).symm
              cases hparse.symm.trans hdata
          | some data =>
              simp only [hparse]
              cases hgrammars : file.grammars data with
              | error fault =>
                  constructor
                  · rintro ⟨loaded, hloaded⟩
                    cases hloaded
                  · rintro ⟨⟨other, hother, hall⟩, -⟩
                    cases hother
                    obtain ⟨grammars, hdata⟩ := hall data hparse
                    cases hgrammars.symm.trans hdata
              | ok grammars =>
                  simp only [ih]
                  refine (and_iff_right ⟨text, rfl, fun other hother => ?_⟩).symm
                  cases hparse.symm.trans hother
                  exact ⟨grammars, hgrammars⟩

/-- Files that are malformed or say nothing may be left out. -/
theorem loadFiles_filter {keep : GrammarFile → Bool}
    (hidle : ∀ file ∈ files, keep file = false → file.IsIdle parse) :
    (loadFiles parse config (files.filter keep)).result =
      (loadFiles parse config files).result := by
  induction files generalizing config with
  | nil => rfl
  | cons file rest ih =>
      obtain ⟨hfirst, hrest⟩ := List.forall_mem_cons.1 hidle
      cases hkeep : keep file with
      | true =>
          rw [List.filter_cons_of_pos hkeep, loadFiles, loadFiles]
          split
          · rfl
          · split
            · exact ih hrest
            · split
              · rfl
              · exact ih hrest
      | false =>
          obtain ⟨text, htext, hvoid⟩ := hfirst hkeep
          rw [List.filter_cons_of_neg (by rw [hkeep]; exact Bool.false_ne_true), ih hrest,
            loadFiles, htext]
          cases hparse : parse text with
          | none => simp only [hparse]
          | some data =>
              have hgrammars : file.grammars data = .ok [] := by
                unfold GrammarFile.grammars
                rw [if_pos (hvoid data hparse)]
                rfl
              simp only [hparse, hgrammars]
              rfl

/-- The languages of a configuration are listed in order, each once. -/
theorem Collects.pairwise_languages (hcollects : config.Collects definitions) :
    config.languages.Pairwise (· < ·) :=
  pairwise_mergeSort_of_nodup_names hcollects.keyed.nodup

/-- The languages of a configuration are those that were defined. -/
theorem Collects.mem_languages_iff (hcollects : config.Collects definitions) {language : String} :
    language ∈ config.languages ↔ language ∈ definitions.map (·.language) := by
  rw [languages, Catalogue.languages, List.mem_mergeSort, ← not_iff_not,
    ← registered?_eq_none_iff, ← hcollects.grammars, Index.get?_eq_none_iff]

/-- The grammar in force of a language is what the configuration answers, whatever is
registered. -/
theorem Collects.get_of_registered? (hcollects : config.Collects definitions) {language : String}
    {grammar : Grammar} (hregistered : registered? language definitions = some grammar)
    (registry : Registry) : config.get registry language = .ok grammar := by
  rw [← hcollects.grammars] at hregistered
  rw [get, Catalogue.byKey?_of_language hregistered]

end Config

/-! ## Priority among locations -/

namespace Workspace

variable {parse : String → Option Data} {workspace : Workspace} {locations : List String}
  {location language : String} {definition : Data}

/-- Holds if a file of a location defines a language. -/
def DefinesIn (parse : String → Option Data) (workspace : Workspace) (location language : String) :
    Prop :=
  ∃ file ∈ workspace.grammarFiles location, file.Defines parse language

/-- Holds of a language that is defined in one of several locations. -/
def Defines (parse : String → Option Data) (workspace : Workspace) (locations : List String)
    (language : String) : Prop :=
  ∃ location ∈ locations, workspace.DefinesIn parse location language

/-- Holds of a definition that prevails over all others of a language: it is in the first location
that defines the language, there in the last file that does so, and there the last definition of
the language. -/
def Prevails (parse : String → Option Data) (workspace : Workspace) (locations : List String)
    (language : String) (definition : Data) : Prop :=
  ∃ higher location lower file front back,
    locations = higher ++ location :: lower ∧
    (∀ other ∈ higher, ¬ workspace.DefinesIn parse other language) ∧
    file ∈ workspace.grammarFiles location ∧
    (∀ other ∈ workspace.grammarFiles location, file.name < other.name →
      ¬ other.Defines parse language) ∧
    file.definitions parse = front ++ (language, definition) :: back ∧
    ∀ entry ∈ back, entry.1 ≠ language

/-- The grammar files of locations, in the order in which they are read. -/
def filesIn (workspace : Workspace) (locations : List String) : List GrammarFile :=
  (locations.map workspace.grammarFiles).reverse.flatten

/-- The definitions in the grammar files of locations, in the order in which they are read. -/
def definitions (parse : String → Option Data) (workspace : Workspace) (locations : List String) :
    List (String × Data) :=
  (workspace.filesIn locations).flatMap (·.definitions parse)

/-- The grammar files of all locations are read. -/
theorem mem_filesIn_iff {file : GrammarFile} :
    file ∈ workspace.filesIn locations ↔
      ∃ location ∈ locations, file ∈ workspace.grammarFiles location := by
  simp [filesIn]

/-- Locations are loaded exactly if all of their files are valid. -/
theorem load_isOk_iff :
    (∃ config, (Config.load parse (locations.map workspace.grammarFiles)).result = .ok config) ↔
      ∀ location ∈ locations, ∀ file ∈ workspace.grammarFiles location, file.IsValid parse := by
  refine Config.loadFiles_isOk_iff.trans ?_
  change (∀ file ∈ workspace.filesIn locations, file.IsValid parse) ↔ _
  simp only [mem_filesIn_iff]
  constructor
  · exact fun hvalid location hlocation file hfile => hvalid file ⟨location, hlocation, hfile⟩
  · rintro hvalid file ⟨location, hlocation, hfile⟩
    exact hvalid location hlocation file hfile

/-- The definitions in valid files describe the grammars that are loaded. -/
theorem describe_definitions (hvalid : ∀ location ∈ locations,
      ∀ file ∈ workspace.grammarFiles location, file.IsValid parse) :
    Describe (workspace.definitions parse locations)
      (Config.definitions parse (locations.map workspace.grammarFiles)) := by
  have hfiles : List.Forall₂ (fun first second => first = second ∧ first.IsValid parse)
      (workspace.filesIn locations) (workspace.filesIn locations) := by
    refine List.forall₂_same.2 fun file hfile => ⟨rfl, ?_⟩
    obtain ⟨location, hlocation, hmem⟩ := mem_filesIn_iff.1 hfile
    exact hvalid location hlocation file hmem
  refine List.rel_flatMap hfiles ?_
  rintro file _ ⟨rfl, hfile⟩
  exact GrammarFile.describe_definitions hfile

/-- The files of a location stand in the order of their names. -/
theorem pairwise_grammarFiles (workspace : Workspace) (location : String) :
    (workspace.grammarFiles location).Pairwise (·.name < ·.name) := by
  rw [grammarFiles, List.pairwise_map]
  exact (workspace.tree.pairwise_list location).filter _

/-- Behind a file of a location stand the files with greater names. -/
theorem mem_behind_iff {file other : GrammarFile} {before after : List GrammarFile}
    (hfiles : workspace.grammarFiles location = before ++ file :: after) :
    other ∈ after ↔ other ∈ workspace.grammarFiles location ∧ file.name < other.name := by
  have hpairwise := workspace.pairwise_grammarFiles location
  rw [hfiles, List.pairwise_append, List.pairwise_cons] at hpairwise
  obtain ⟨-, ⟨hbehind, -⟩, hbefore⟩ := hpairwise
  rw [hfiles]
  constructor
  · exact fun hother => ⟨by simp [hother], hbehind other hother⟩
  · rintro ⟨hother, hless⟩
    rcases List.mem_append.1 hother with hother | hother
    · exact absurd hless (lt_asymm (hbefore other hother file List.mem_cons_self))
    · rcases List.mem_cons.1 hother with rfl | hother
      · exact absurd hless (lt_irrefl _)
      · exact hother

/-- The definitions of further locations are read first. -/
theorem definitions_append (higher lower : List String) :
    workspace.definitions parse (higher ++ lower) =
      workspace.definitions parse lower ++ workspace.definitions parse higher := by
  rw [definitions, filesIn, List.map_append, List.reverse_append, List.flatten_append,
    List.flatMap_append]
  rfl

/-- The definitions of a location are those of its files. -/
theorem definitions_singleton (location : String) :
    workspace.definitions parse [location] =
      (workspace.grammarFiles location).flatMap (·.definitions parse) := by
  rw [definitions, filesIn, List.map_singleton, List.reverse_singleton, List.flatten_singleton]

/-- The languages of what is read are the defined ones. -/
theorem mem_definitions_iff :
    language ∈ (workspace.definitions parse locations).map (·.1) ↔
      workspace.Defines parse locations language := by
  simp only [definitions, List.mem_map, List.mem_flatMap, mem_filesIn_iff]
  constructor
  · rintro ⟨⟨_, definition⟩, ⟨file, ⟨location, hlocation, hfile⟩, hdefinition⟩, rfl⟩
    exact ⟨location, hlocation, file, hfile, definition, hdefinition⟩
  · rintro ⟨location, hlocation, file, hfile, definition, hdefinition⟩
    exact ⟨(language, definition), ⟨file, ⟨location, hlocation, hfile⟩, hdefinition⟩, rfl⟩

/-- Where a language is defined, a definition prevails. -/
theorem exists_prevails (hdefines : workspace.Defines parse locations language) :
    ∃ definition, workspace.Prevails parse locations language definition := by
  obtain ⟨location, hlocation, hin⟩ := hdefines
  obtain ⟨lower, first, higher, hsplit, hfirst, hhigher⟩ :=
    exists_last_split (workspace.DefinesIn parse · language)
      ⟨location, List.mem_reverse.2 hlocation, hin⟩
  obtain ⟨before, last, after, hfiles, ⟨definition, hentry⟩, hafter⟩ :=
    exists_last_split (GrammarFile.Defines parse · language) hfirst
  obtain ⟨front, ⟨_, final⟩, back, hentries, rfl, hback⟩ :=
    exists_last_split (fun entry : String × Data => entry.1 = language) ⟨_, hentry, rfl⟩
  have hlocations : locations = higher.reverse ++ first :: lower.reverse := by
    rw [← List.reverse_reverse locations, hsplit]
    simp
  have hmem : last ∈ workspace.grammarFiles first := by
    rw [hfiles]
    exact List.mem_append_right _ List.mem_cons_self
  refine ⟨final, higher.reverse, first, lower.reverse, last, front, back, hlocations,
    fun other hother => hhigher other (List.mem_reverse.1 hother), hmem, ?_, hentries, hback⟩
  exact fun other hother hgreater => hafter other ((mem_behind_iff hfiles).2 ⟨hother, hgreater⟩)

/-- The definition that prevails is the last one of its language that is read. -/
theorem Prevails.exists_split (hprevails : workspace.Prevails parse locations language definition) :
    ∃ front back, workspace.definitions parse locations = front ++ (language, definition) :: back ∧
      ∀ entry ∈ back, entry.1 ≠ language := by
  obtain ⟨higher, location, lower, file, front, back, rfl, hhigher, hfile, hgreater, hentries,
    hback⟩ := hprevails
  obtain ⟨before, after, hfiles⟩ := List.append_of_mem hfile
  have hread : workspace.definitions parse (higher ++ location :: lower) =
      (workspace.definitions parse lower ++ before.flatMap (·.definitions parse) ++ front) ++
        (language, definition) ::
          (back ++ after.flatMap (·.definitions parse) ++ workspace.definitions parse higher) := by
    rw [definitions_append, ← List.singleton_append, definitions_append, definitions_singleton,
      hfiles, List.flatMap_append, List.flatMap_cons, hentries]
    simp only [List.append_assoc, List.cons_append]
  refine ⟨_, _, hread, ?_⟩
  intro entry hentry hsame
  rcases List.mem_append.1 hentry with hentry | hentry
  · rcases List.mem_append.1 hentry with hentry | hentry
    · exact hback entry hentry hsame
    · obtain ⟨other, hother, hdefined⟩ := List.mem_flatMap.1 hentry
      obtain ⟨hmem, hless⟩ := (mem_behind_iff hfiles).1 hother
      refine hgreater other hmem hless ⟨entry.2, ?_⟩
      rwa [← hsame]
  · obtain ⟨other, hother, hdefined⟩ :=
      mem_definitions_iff.1 (List.mem_map.2 ⟨entry, hentry, hsame⟩)
    exact hhigher other hother hdefined

/-! ### Deleted files -/

/-- The workspace without some files. -/
def withoutFiles (workspace : Workspace) (gone : List Location) : Workspace :=
  { workspace with tree := workspace.tree.withoutFiles gone }

/-- Holds of the locations of files that are malformed or whose data is void. -/
def IsIdle (parse : String → Option Data) (workspace : Workspace) (place : Location) : Prop :=
  workspace.tree.isDirectory place = false ∧
    ∃ contents, workspace.tree.file? place = some contents ∧
      ∃ text, Text.decode? contents = some text ∧
        ∀ data, parse text = some data → data.isVoid = true

/-- Whether a file is idle shows in its text. -/
theorem isIdle_iff {place : Location} :
    workspace.IsIdle parse place ↔ workspace.tree.isDirectory place = false ∧
      ((workspace.tree.file? place).bind Text.decode?).any (fun text =>
        (parse text).all Data.isVoid) = true := by
  simp only [IsIdle, Option.any_eq_true, Option.all_eq_true, Option.bind_eq_some_iff]
  refine and_congr_right fun _ => ⟨?_, ?_⟩
  · rintro ⟨contents, hcontents, text, hdecode, hvoid⟩
    exact ⟨text, ⟨contents, hcontents, hdecode⟩, hvoid⟩
  · rintro ⟨text, ⟨contents, hcontents, hdecode⟩, hvoid⟩
    exact ⟨contents, hcontents, text, hdecode, hvoid⟩

instance (place : Location) : Decidable (workspace.IsIdle parse place) :=
  decidable_of_iff _ isIdle_iff.symm

/-- What is read where an idle file is, is idle. -/
theorem IsIdle.isIdle_read {place : Location} (hidle : workspace.IsIdle parse place)
    {path name : String} (hlocate : workspace.tree.locate path = .ok place) :
    GrammarFile.IsIdle parse ⟨path, name, workspace.tree.read path⟩ := by
  obtain ⟨-, contents, hcontents, text, hdecode, hvoid⟩ := hidle
  have hread : workspace.tree.read path = .ok contents := by
    rw [FileTree.read, hlocate, ok_bind, hcontents]
    rfl
  refine ⟨text, ?_, hvoid⟩
  rw [GrammarFile.text, hread, Except.mapError, ok_bind, hdecode]
  rfl

section Deleting

variable {gone : List Location} (hnames : workspace.tree.HasNames)

include hnames

/-- The grammar files of a location when files are deleted: those that are not deleted. -/
theorem grammarFiles_withoutFiles (hgone : ∀ place ∈ gone, workspace.tree.IsFile place)
    (location : String) :
    (workspace.withoutFiles gone).grammarFiles location =
      (workspace.grammarFiles location).filter fun file =>
        !workspace.tree.leadsTo gone file.path := by
  rw [grammarFiles, grammarFiles, List.filter_map, withoutFiles,
    FileTree.list_withoutFiles hgone hnames, List.filter_comm]
  refine List.map_congr_left fun name hname => ?_
  obtain ⟨hlisted, hkept⟩ := List.mem_filter.1 hname
  obtain ⟨directory, hlocate, hdirectory, hmem⟩ :=
    FileTree.mem_list_iff.1 (List.mem_filter.1 hlisted).1
  have hjoin := FileTree.locate_join (hnames.isName hmem) hlocate hdirectory
  have hplace : directory ++ [name] ∉ gone := by
    rw [FileTree.leadsTo, hjoin] at hkept
    simpa using hkept
  dsimp only
  rw [FileTree.read_withoutFiles hgone hjoin hplace]

/-- Idle files may be deleted. -/
theorem load_withoutFiles (hidle : ∀ place ∈ gone, workspace.IsIdle parse place)
    (locations : List String) :
    (Config.load parse (locations.map (workspace.withoutFiles gone).grammarFiles)).result =
      (Config.load parse (locations.map workspace.grammarFiles)).result := by
  have hgone : ∀ place ∈ gone, workspace.tree.IsFile place := by
    intro place hplace
    obtain ⟨hdirectory, contents, hcontents, -⟩ := hidle place hplace
    exact ⟨hdirectory, contents, hcontents⟩
  have hfiles : (workspace.withoutFiles gone).filesIn locations =
      (workspace.filesIn locations).filter fun file =>
        !workspace.tree.leadsTo gone file.path := by
    rw [filesIn, filesIn, List.filter_flatten, List.map_reverse, List.map_map]
    refine congrArg (fun files => (List.map files locations).reverse.flatten) (funext ?_)
    exact grammarFiles_withoutFiles hnames hgone
  change (Config.loadFiles parse .empty ((workspace.withoutFiles gone).filesIn locations)).result =
    (Config.loadFiles parse .empty (workspace.filesIn locations)).result
  rw [hfiles]
  refine Config.loadFiles_filter fun file hfile hdeleted => ?_
  obtain ⟨location, -, hfile⟩ := mem_filesIn_iff.1 hfile
  obtain ⟨name, -, rfl⟩ := List.mem_map.1 hfile
  rw [Bool.not_eq_false', FileTree.leadsTo] at hdeleted
  split at hdeleted
  · rename_i place hlocate
    exact (hidle place (List.contains_iff_mem.1 hdeleted)).isIdle_read hlocate
  · cases hdeleted

end Deleting

end Workspace

/-- Whatever grammar files are in the locations, if all of them are valid: they are loaded, and the
configuration answers for each language with the grammar of the definition that prevails, which
there is for every language that is defined.  It lists the defined languages in order, each once.
Deleting files that are malformed or whose data is void changes nothing. -/
theorem config_priority (parse : String → Option Data) (workspace : Workspace)
    (locations : List String)
    (hvalid : ∀ location ∈ locations, ∀ file ∈ workspace.grammarFiles location,
      file.IsValid parse) :
    ∃ config,
      (Config.load parse (locations.map workspace.grammarFiles)).result = .ok config ∧
      (∀ language, workspace.Defines parse locations language →
        ∃ definition, workspace.Prevails parse locations language definition) ∧
      (∀ language definition, workspace.Prevails parse locations language definition →
        ∃ grammar, readDefinition language definition = .ok grammar ∧
          ∀ registry, config.get registry language = .ok grammar) ∧
      config.languages.Pairwise (· < ·) ∧
      (∀ language, language ∈ config.languages ↔ workspace.Defines parse locations language) ∧
      (workspace.tree.HasNames → ∀ gone, (∀ place ∈ gone, workspace.IsIdle parse place) →
        (Config.load parse (locations.map (workspace.withoutFiles gone).grammarFiles)).result =
          .ok config) := by
  obtain ⟨config, hload⟩ := Workspace.load_isOk_iff.2 hvalid
  have hdescribe := Workspace.describe_definitions hvalid
  have hcollects :
      config.Collects (Config.definitions parse (locations.map workspace.grammarFiles)) := by
    rw [Config.eq_addAll_of_load hload]
    exact Config.collects_empty.addAll _
  refine ⟨config, hload, fun language => Workspace.exists_prevails, ?_,
    hcollects.pairwise_languages, ?_, ?_⟩
  · intro language definition hprevails
    obtain ⟨front, back, hsplit, hback⟩ := hprevails.exists_split
    rw [hsplit] at hdescribe
    obtain ⟨grammar, hgrammar, hregistered⟩ := hdescribe.exists_registered? hback
    exact ⟨grammar, hgrammar, hcollects.get_of_registered? hregistered⟩
  · intro language
    rw [hcollects.mem_languages_iff, hdescribe.map_language, Workspace.mem_definitions_iff]
  · intro hnames gone hidle
    rw [Workspace.load_withoutFiles hnames hidle, hload]

/-- Grammar files of a user and of a project: INI files are defined in both of them and in both
forms, and two of the files are idle. -/
def sharedGrammarFiles : FileTree :=
  [("project/ini.yaml", "line_comments: ['//']\n"),
    ("project/empty.yaml", ""),
    ("user/broken.yaml", "line_comments: ['#'\n"),
    ("user/b.yaml", "grammars: \x7bini: \x7bline_comments: ['#']\x7d, toml: \x7d\n"),
    ("user/a.yml", "language: ini\nline_comments: [';']\n")].foldl
    (fun tree (path, text) => tree.write path (Text.encode text)) .empty

/-- A grammar that has line comments only. -/
def Grammar.ofLineComments (language : String) (lineComments : List String) : Grammar :=
  { language, lineComments, blockComments := [], strings := [], chars := [], extensions := [],
    filenames := [] }

/-- The last file of the user prevails over the first one and over the file of the project, and its
definition of a second language is loaded, too. -/
theorem config_priority_both_forms :
    let workspace := Workspace.start sharedGrammarFiles
    let locations := ["user", "missing", "project"]
    let config := Config.empty.addAll [.ofLineComments "ini" ["//"], .ofLineComments "ini" [";"],
      .ofLineComments "ini" ["#"], .ofLineComments "toml" []]
    let idle : List Location := [["user", "broken.yaml"], ["project", "empty.yaml"]]
    (Config.load Yaml.parse (locations.map workspace.grammarFiles)).result = .ok config ∧
      (∃ definition, workspace.Prevails Yaml.parse locations "ini" definition ∧
        readDefinition "ini" definition = .ok (.ofLineComments "ini" ["#"])) ∧
      (∀ registry, config.get registry "ini" = .ok (.ofLineComments "ini" ["#"])) ∧
      workspace.Defines Yaml.parse locations "toml" ∧
      config.languages.Pairwise (· < ·) ∧
      (Config.load Yaml.parse (locations.map (workspace.withoutFiles idle).grammarFiles)).result =
        .ok config := by
  intro workspace locations config idle
  have huser : sharedGrammarFiles.list "user" = ["a.yml", "b.yaml", "broken.yaml"] :=
    FileTree.list_eq_of_found ["user"] (by decide +kernel) (by decide +kernel)
      (by decide +kernel) (by decide)
  have hproject : sharedGrammarFiles.list "project" = ["empty.yaml", "ini.yaml"] :=
    FileTree.list_eq_of_found ["project"] (by decide +kernel) (by decide +kernel)
      (by decide +kernel) (by decide)
  have hmissing : sharedGrammarFiles.list "missing" = [] := by decide +kernel
  have hload : (Config.load Yaml.parse (locations.map workspace.grammarFiles)).result =
      .ok config := by
    simp only [locations, workspace, Workspace.start, Workspace.grammarFiles, List.map_cons,
      List.map_nil, huser, hproject, hmissing]
    decide +kernel
  have hvalid := Workspace.load_isOk_iff.1 ⟨config, hload⟩
  have hnames : workspace.tree.HasNames :=
    ((((FileTree.hasNames_empty.write _ _).write _ _).write _ _).write _ _).write _ _
  have hidle : ∀ place ∈ idle, workspace.IsIdle Yaml.parse place := by decide +kernel
  obtain ⟨loaded, hloaded, hexists, hget, hsorted, hlanguages, hdeleted⟩ :=
    config_priority Yaml.parse workspace locations hvalid
  obtain rfl : config = loaded := Except.ok.inj (hload.symm.trans hloaded)
  have hini : "ini" ∈ config.languages := List.mem_mergeSort.2 (by decide +kernel)
  have htoml : "toml" ∈ config.languages := List.mem_mergeSort.2 (by decide +kernel)
  obtain ⟨definition, hprevails⟩ := hexists "ini" ((hlanguages "ini").1 hini)
  obtain ⟨grammar, hgrammar, hanswer⟩ := hget "ini" definition hprevails
  obtain rfl : grammar = .ofLineComments "ini" ["#"] := by
    have hsame : config.get .empty "ini" = .ok (.ofLineComments "ini" ["#"]) := by decide +kernel
    exact Except.ok.inj ((hanswer .empty).symm.trans hsame)
  exact ⟨hload, ⟨definition, hprevails, hgrammar⟩, hanswer, (hlanguages "toml").1 htoml, hsorted,
    hdeleted hnames idle hidle⟩

end CommentMarkers
