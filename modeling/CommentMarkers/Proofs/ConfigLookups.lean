import CommentMarkers.Proofs.PublishedConfigs

/-!
# Lookups in a configuration

A configuration answers with the grammar in force of the language that listed the key last.  If this
language was defined again since then, its grammar in force need not list the key anymore.  Then the
answer is wrong: it should be a grammar in force that lists the key, and without one the answer of
the registry.

Main results:

- Theorem `Config.eq_addAll_of_load`: a loaded configuration has the definitions of its files.
- Theorem `Config.Collects.get_eq`: what the configuration answers for a key.
- Theorem `Config.Collects.forPath_eq`: what it answers for a path.
- Theorem `config_lookups`: these answers, and when they are the ones of the grammars in force.
-/

namespace CommentMarkers

/-! ## Definitions that are read -/

/-- The grammars that a file defines.  A file that cannot be read or is malformed defines none. -/
def GrammarFile.defined (parse : String → Option Data) (file : GrammarFile) : List Grammar :=
  match file.text with
  | .error _ => []
  | .ok text =>
    match parse text with
    | none => []
    | some data =>
      match file.grammars data with
      | .error _ => []
      | .ok grammars => grammars

namespace Config

/-- The grammars that the files of locations define, in the order in which they are read. -/
def definitions (parse : String → Option Data) (locations : List (List GrammarFile)) :
    List Grammar :=
  locations.reverse.flatten.flatMap (·.defined parse)

/-- Files that are loaded add what they define. -/
theorem eq_addAll_of_loadFiles {parse : String → Option Data} {files : List GrammarFile}
    {config loaded : Config} (hload : (loadFiles parse config files).result = .ok loaded) :
    loaded = config.addAll (files.flatMap (·.defined parse)) := by
  induction files generalizing config with
  | nil =>
      cases hload
      rfl
  | cons file rest ih =>
      rw [loadFiles] at hload
      rw [List.flatMap_cons, GrammarFile.defined]
      cases htext : file.text with
      | error fault =>
          rw [htext] at hload
          cases hload
      | ok text =>
          rw [htext] at hload
          cases hparse : parse text with
          | none =>
              simp only [hparse] at hload ⊢
              exact ih hload
          | some data =>
              simp only [hparse] at hload ⊢
              cases hgrammars : file.grammars data with
              | error fault =>
                  rw [hgrammars] at hload
                  cases hload
              | ok grammars =>
                  simp only [hgrammars] at hload ⊢
                  rw [ih hload, addAll, addAll, addAll, List.foldl_append]

/-- A loaded configuration has the definitions of its files. -/
theorem eq_addAll_of_load {parse : String → Option Data} {locations : List (List GrammarFile)}
    {config : Config} (hload : (load parse locations).result = .ok config) :
    config = empty.addAll (definitions parse locations) :=
  eq_addAll_of_loadFiles hload

end Config

/-! ## Grammars in force -/

/-- Holds of the last definition of a language. -/
def InForce (definitions : List Grammar) (grammar : Grammar) : Prop :=
  registered? grammar.language definitions = some grammar

/-- Holds if a grammar lists an extension that a key may stand for. -/
def Grammar.HasKey (grammar : Grammar) (key : String) : Prop :=
  ∃ extension ∈ Catalogue.spellings key, extension ∈ grammar.smallExtensions

/-- Holds if a grammar lists the extension of a path. -/
def Grammar.HasExtensionOf (grammar : Grammar) (path : String) : Prop :=
  Text.Path.extension (Text.Path.baseName path) ≠ "" ∧
    Text.lower (Text.Path.extension (Text.Path.baseName path)) ∈ grammar.smallExtensions

/-- Holds if a grammar lists the file name of a path. -/
def Grammar.HasNameOf (grammar : Grammar) (path : String) : Prop :=
  Text.Path.baseName path ∈ grammar.filenames

/-- Holds of the right answer for a key: a grammar in force that has the key, or the answer of the
registry if there is none. -/
def AnswersKey (definitions : List Grammar) (registry : Registry) (key : String)
    (answer : Except UnknownLanguage Grammar) : Prop :=
  (∃ grammar, InForce definitions grammar ∧ grammar.HasKey key ∧ answer = .ok grammar) ∨
    (∀ grammar, InForce definitions grammar → ¬ grammar.HasKey key) ∧ answer = registry.get key

/-- Holds of the right answer for a path: a grammar in force that has its file name, or else one
that has its extension, or else the answer of the registry. -/
def AnswersPath (definitions : List Grammar) (registry : Registry) (path : String)
    (answer : Except UnknownLanguage Grammar) : Prop :=
  (∃ grammar, InForce definitions grammar ∧ grammar.HasNameOf path ∧ answer = .ok grammar) ∨
    (∀ grammar, InForce definitions grammar → ¬ grammar.HasNameOf path) ∧
      ((∃ grammar, InForce definitions grammar ∧ grammar.HasExtensionOf path ∧
          answer = .ok grammar) ∨
        (∀ grammar, InForce definitions grammar → ¬ grammar.HasExtensionOf path) ∧
          answer = registry.forPath path)

/-! ## Grammars that keys lead to -/

/-- The last definition that lists a key, in the spelling that comes first. -/
def keyLister? (definitions : List Grammar) (key : String) : Option Grammar :=
  (Catalogue.spellings key).findSome? fun extension =>
    lister? Grammar.smallExtensions extension definitions

/-- The last definition that lists the file name of a path, or else its extension. -/
def pathLister? (definitions : List Grammar) (path : String) : Option Grammar :=
  (lister? (·.filenames) (Text.Path.baseName path) definitions).or
    (if Text.Path.extension (Text.Path.baseName path) = "" then none
    else lister? Grammar.smallExtensions
      (Text.lower (Text.Path.extension (Text.Path.baseName path))) definitions)

/-- The grammar in force of the language of a definition. -/
def successor? (definitions : List Grammar) (definition : Grammar) : Option Grammar :=
  registered? definition.language definitions

/-- The answer with a grammar, or another answer if there is none. -/
def answerOr (fallback : Except UnknownLanguage Grammar) :
    Option Grammar → Except UnknownLanguage Grammar
  | some grammar => .ok grammar
  | none => fallback

variable {definitions : List Grammar} {definition grammar : Grammar} {key path : String}

/-- The grammar in force of a language is in force. -/
theorem inForce_of_registered? {language : String}
    (hregistered : registered? language definitions = some grammar) :
    InForce definitions grammar := by
  rw [InForce, language_of_registered? hregistered, hregistered]

/-- Every definition has a successor, at least itself. -/
theorem exists_successor? (hmem : definition ∈ definitions) :
    ∃ grammar, successor? definitions definition = some grammar := by
  refine Option.isSome_iff_exists.1 (List.find?_isSome.2 ⟨definition, List.mem_reverse.2 hmem, ?_⟩)
  exact beq_self_eq_true _

/-- The last definition that lists a key lists it. -/
theorem mem_of_lister? {keys : Grammar → List String}
    (hlister : lister? keys key definitions = some definition) :
    definition ∈ definitions ∧ key ∈ keys definition :=
  ⟨mem_of_latest? hlister, List.contains_iff_mem.1 (holds_of_latest? hlister)⟩

/-- A key that no definition lists leads nowhere. -/
theorem lister?_eq_none_iff {keys : Grammar → List String} :
    lister? keys key definitions = none ↔ ∀ definition ∈ definitions, key ∉ keys definition := by
  simp [lister?, latest?]

/-- The definition that a key leads to is read and has the key. -/
theorem mem_of_keyLister? (hlister : keyLister? definitions key = some definition) :
    definition ∈ definitions ∧ definition.HasKey key := by
  obtain ⟨extension, hspelling, hfound⟩ := List.exists_of_findSome?_eq_some hlister
  obtain ⟨hmem, hlists⟩ := mem_of_lister? hfound
  exact ⟨hmem, extension, hspelling, hlists⟩

/-- A key that leads nowhere is in no definition. -/
theorem not_hasKey_of_keyLister? (hnone : keyLister? definitions key = none) :
    ∀ definition ∈ definitions, ¬ definition.HasKey key := by
  rintro definition hmem ⟨extension, hspelling, hlists⟩
  exact lister?_eq_none_iff.1 (List.findSome?_eq_none_iff.1 hnone extension hspelling) definition
    hmem hlists

/-- A definition that a path leads to is read and has the file name, or the extension where no
definition has the file name. -/
theorem mem_of_pathLister? (hlister : pathLister? definitions path = some definition) :
    definition ∈ definitions ∧ (definition.HasNameOf path ∨ definition.HasExtensionOf path ∧
      ∀ other ∈ definitions, ¬ other.HasNameOf path) := by
  rcases Option.or_eq_some_iff.1 hlister with hname | ⟨hnames, hextension⟩
  · obtain ⟨hmem, hlists⟩ := mem_of_lister? hname
    exact ⟨hmem, Or.inl hlists⟩
  · obtain ⟨hne, hfound⟩ := Option.ite_none_left_eq_some.1 hextension
    obtain ⟨hmem, hlists⟩ := mem_of_lister? hfound
    exact ⟨hmem, Or.inr ⟨⟨hne, hlists⟩, lister?_eq_none_iff.1 hnames⟩⟩

/-- A path that leads nowhere has the file name and the extension of no definition. -/
theorem not_has_of_pathLister? (hnone : pathLister? definitions path = none) :
    ∀ definition ∈ definitions,
      ¬ definition.HasNameOf path ∧ ¬ definition.HasExtensionOf path := by
  obtain ⟨hnames, hextension⟩ := Option.or_eq_none_iff.1 hnone
  refine fun definition hmem => ⟨lister?_eq_none_iff.1 hnames definition hmem, ?_⟩
  rintro ⟨hne, hlists⟩
  rw [if_neg hne] at hextension
  exact lister?_eq_none_iff.1 hextension definition hmem hlists

/-- Holds if the grammars in force list all extensions and file names that earlier definitions of
their languages list. -/
def KeepsKeys (definitions : List Grammar) : Prop :=
  ∀ definition ∈ definitions, ∀ grammar, successor? definitions definition = some grammar →
    (∀ extension ∈ definition.smallExtensions, extension ∈ grammar.smallExtensions) ∧
      ∀ name ∈ definition.filenames, name ∈ grammar.filenames

/-- Where nothing is dropped, the successor of the last definition that lists a key has the key. -/
theorem KeepsKeys.hasKey (hkeeps : KeepsKeys definitions)
    (hfound : (keyLister? definitions key).bind (successor? definitions) = some grammar) :
    grammar.HasKey key := by
  obtain ⟨lister, hlister, hsuccessor⟩ := Option.bind_eq_some_iff.1 hfound
  obtain ⟨hmem, extension, hspelling, hlists⟩ := mem_of_keyLister? hlister
  exact ⟨extension, hspelling, (hkeeps lister hmem grammar hsuccessor).1 extension hlists⟩

/-- Where nothing is dropped, the successor of the last definition that lists the file name or the
extension of a path lists it, too. -/
theorem KeepsKeys.has_path (hkeeps : KeepsKeys definitions)
    (hfound : (pathLister? definitions path).bind (successor? definitions) = some grammar) :
    grammar.HasNameOf path ∨ grammar.HasExtensionOf path ∧
      ∀ other, InForce definitions other → ¬ other.HasNameOf path := by
  obtain ⟨lister, hlister, hsuccessor⟩ := Option.bind_eq_some_iff.1 hfound
  obtain ⟨hmem, hlists⟩ := mem_of_pathLister? hlister
  obtain ⟨hextensions, hfilenames⟩ := hkeeps lister hmem grammar hsuccessor
  rcases hlists with hname | ⟨⟨hne, hextension⟩, hnames⟩
  · exact Or.inl (hfilenames _ hname)
  · right
    refine ⟨⟨hne, hextensions _ hextension⟩, ?_⟩
    intro other hforce
    exact hnames other (mem_of_latest? hforce)

namespace Config.Collects

variable {config : Config} (hcollects : config.Collects definitions)

include hcollects

/-- What a configuration answers for a key that is none of its languages: the successor of the last
definition that lists the key, or the answer of the registry if no definition does. -/
theorem get_eq (registry : Registry)
    (hkey : ∀ definition ∈ definitions, definition.language ≠ key) :
    config.get registry key = answerOr (registry.get key)
      ((keyLister? definitions key).bind (successor? definitions)) := by
  have hlanguage : config.catalogue.grammars.get? key = none := by
    rw [hcollects.grammars]
    simpa [registered?, latest?] using hkey
  have hindex : config.catalogue.languageOfExtension? key =
      (keyLister? definitions key).map (·.language) := by
    rw [Catalogue.languageOfExtension?_eq, Catalogue.extensionKey?, Index.find?_contains_bind,
      keyLister?, List.map_findSome?]
    exact congrArg (List.findSome? · _) (funext hcollects.extensions)
  have hfound : config.catalogue.byKey? key =
      (keyLister? definitions key).bind (successor? definitions) := by
    rw [Catalogue.byKey?, hlanguage, hindex]
    cases keyLister? definitions key with
    | none => rfl
    | some lister => exact hcollects.grammars lister.language
  rw [get, hfound]
  cases (keyLister? definitions key).bind (successor? definitions) with
  | none => rfl
  | some grammar => rfl

/-- A key of an index of the configuration leads to the successor of the last definition that lists
it. -/
theorem bind_get?_eq {index : Index String} {keys : Grammar → List String}
    (hindex : ∀ key, index.get? key = (lister? keys key definitions).map (·.language))
    (key : String) :
    (index.get? key).bind config.catalogue.grammars.get? =
      (lister? keys key definitions).bind (successor? definitions) := by
  rw [hindex]
  cases lister? keys key definitions with
  | none => rfl
  | some lister => exact hcollects.grammars lister.language

/-- What a configuration answers for a path: the successor of the last definition that lists the
file name, or else the extension, or the answer of the registry if no definition does. -/
theorem forPath_eq (registry : Registry) (path : String) :
    config.forPath registry path = answerOr (registry.forPath path)
      ((pathLister? definitions path).bind (successor? definitions)) := by
  have hfound : (config.catalogue.byName? (Text.Path.baseName path)).or
      (if Text.Path.extension (Text.Path.baseName path) = "" then none
      else config.catalogue.byExtension? (Text.Path.extension (Text.Path.baseName path))) =
      (pathLister? definitions path).bind (successor? definitions) := by
    rw [Catalogue.byName?, hcollects.bind_get?_eq hcollects.names, Catalogue.byExtension?,
      hcollects.bind_get?_eq hcollects.extensions, pathLister?]
    cases hlister : lister? (·.filenames) (Text.Path.baseName path) definitions with
    | none =>
        rw [Option.bind_none, Option.none_or, Option.none_or]
        split <;> rfl
    | some lister =>
        obtain ⟨grammar, hgrammar⟩ := exists_successor? (mem_of_lister? hlister).1
        rw [Option.some_or, Option.bind_some, hgrammar, Option.some_or]
  rw [forPath, hfound]
  cases (pathLister? definitions path).bind (successor? definitions) with
  | none => rfl
  | some grammar => rfl

end Config.Collects

/-! ## Answers of grammars in force -/

section Answers

variable {registry : Registry} {history : List Grammar}

/-- A grammar in force is found in the registry by a key only if it has the key. -/
theorem hasKey_of_registry_get (hrecords : registry.Records history)
    (hkey : ∀ definition ∈ definitions, definition.language ≠ key)
    (hforce : InForce definitions grammar) (hfound : registry.get key = .ok grammar) :
    grammar.HasKey key :=
  (hrecords.of_get_eq_ok hfound).2.resolve_left (hkey grammar (mem_of_latest? hforce))

/-- A grammar in force is the right answer for a key that is no language exactly if it has the
key. -/
theorem answersKey_ok_iff (hrecords : registry.Records history)
    (hkey : ∀ definition ∈ definitions, definition.language ≠ key)
    (hforce : InForce definitions grammar) :
    AnswersKey definitions registry key (.ok grammar) ↔ grammar.HasKey key := by
  constructor
  · rintro (⟨other, -, hhas, hsame⟩ | ⟨-, hsame⟩)
    · cases hsame
      exact hhas
    · exact hasKey_of_registry_get hrecords hkey hforce hsame.symm
  · exact fun hhas => Or.inl ⟨grammar, hforce, hhas, rfl⟩

/-- A grammar in force is the right answer for a path exactly if it has the file name, or the
extension where no grammar in force has the file name. -/
theorem answersPath_ok_iff (hrecords : registry.Records history)
    (hforce : InForce definitions grammar) :
    AnswersPath definitions registry path (.ok grammar) ↔
      grammar.HasNameOf path ∨ grammar.HasExtensionOf path ∧
        ∀ other, InForce definitions other → ¬ other.HasNameOf path := by
  constructor
  · rintro (⟨other, -, hhas, hsame⟩ | ⟨hnames, ⟨other, -, hhas, hsame⟩ | ⟨-, hsame⟩⟩)
    · cases hsame
      exact Or.inl hhas
    · cases hsame
      exact Or.inr ⟨hhas, hnames⟩
    · exact (hrecords.of_forPath_eq_ok hsame.symm).2.imp_right fun hhas => ⟨hhas, hnames⟩
  · rintro (hhas | ⟨hhas, hnames⟩)
    · exact Or.inl ⟨grammar, hforce, hhas, rfl⟩
    · exact Or.inr ⟨hnames, Or.inl ⟨grammar, hforce, hhas, rfl⟩⟩

/-- What a configuration answers for a key that is no language is right exactly if the grammar that
the key leads to has the key. -/
theorem answersKey_iff (hrecords : registry.Records history)
    (hkey : ∀ definition ∈ definitions, definition.language ≠ key) :
    AnswersKey definitions registry key
        (answerOr (registry.get key)
          ((keyLister? definitions key).bind (successor? definitions))) ↔
      ∀ grammar, (keyLister? definitions key).bind (successor? definitions) = some grammar →
        grammar.HasKey key := by
  cases hlister : keyLister? definitions key with
  | none =>
      have hnone := not_hasKey_of_keyLister? hlister
      refine iff_of_true (Or.inr ⟨fun grammar hforce => ?_, rfl⟩) nofun
      exact hnone grammar (mem_of_latest? hforce)
  | some lister =>
      obtain ⟨grammar, hgrammar⟩ := exists_successor? (mem_of_keyLister? hlister).1
      simp only [Option.bind_some, hgrammar, Option.some.injEq, forall_eq']
      exact answersKey_ok_iff hrecords hkey (inForce_of_registered? hgrammar)

/-- What a configuration answers for a path is right exactly if the grammar that the path leads to
has the file name, or the extension where no grammar in force has the file name. -/
theorem answersPath_iff (hrecords : registry.Records history) :
    AnswersPath definitions registry path
        (answerOr (registry.forPath path)
          ((pathLister? definitions path).bind (successor? definitions))) ↔
      ∀ grammar, (pathLister? definitions path).bind (successor? definitions) = some grammar →
        grammar.HasNameOf path ∨ grammar.HasExtensionOf path ∧
          ∀ other, InForce definitions other → ¬ other.HasNameOf path := by
  cases hlister : pathLister? definitions path with
  | none =>
      have hnone := not_has_of_pathLister? hlister
      refine iff_of_true (Or.inr ⟨fun grammar hforce => ?_, Or.inr ⟨fun grammar hforce => ?_, rfl⟩⟩)
        nofun
      · exact (hnone grammar (mem_of_latest? hforce)).1
      · exact (hnone grammar (mem_of_latest? hforce)).2
  | some lister =>
      obtain ⟨grammar, hgrammar⟩ := exists_successor? (mem_of_pathLister? hlister).1
      simp only [Option.bind_some, hgrammar, Option.some.injEq, forall_eq']
      exact answersPath_ok_iff hrecords (inForce_of_registered? hgrammar)

end Answers

/-- However a configuration is loaded and whatever is registered: for a key that is none of its
languages and for a path it answers with the successor of the last definition that lists the key,
the file name or the extension, and with the answer of the registry if no definition does.  This is
the right answer exactly if that successor lists what was looked for, and so it always is if no
definition drops an extension or a file name of an earlier one. -/
theorem config_lookups {parse : String → Option Data} {locations : List (List GrammarFile)}
    {config : Config} (hload : (Config.load parse locations).result = .ok config)
    (grammars : List Grammar) :
    let definitions := Config.definitions parse locations
    let registry := Registry.builtin.registerAll grammars
    (∀ key, (∀ definition ∈ definitions, definition.language ≠ key) →
      (config.get registry key = answerOr (registry.get key)
        ((keyLister? definitions key).bind (successor? definitions))) ∧
      (AnswersKey definitions registry key (config.get registry key) ↔
        ∀ grammar, (keyLister? definitions key).bind (successor? definitions) = some grammar →
          grammar.HasKey key) ∧
      (KeepsKeys definitions →
        AnswersKey definitions registry key (config.get registry key))) ∧
    ∀ path,
      (config.forPath registry path = answerOr (registry.forPath path)
        ((pathLister? definitions path).bind (successor? definitions))) ∧
      (AnswersPath definitions registry path (config.forPath registry path) ↔
        ∀ grammar, (pathLister? definitions path).bind (successor? definitions) = some grammar →
          grammar.HasNameOf path ∨ grammar.HasExtensionOf path ∧
            ∀ other, InForce definitions other → ¬ other.HasNameOf path) ∧
      (KeepsKeys definitions →
        AnswersPath definitions registry path (config.forPath registry path)) := by
  intro definitions registry
  have hcollects : config.Collects definitions := by
    rw [Config.eq_addAll_of_load hload]
    exact Config.collects_empty.addAll definitions
  have hrecords : registry.Records (Grammar.builtin ++ grammars) :=
    Registry.records_builtin grammars
  constructor
  · intro key hkey
    have hanswer := hcollects.get_eq registry hkey
    have hright : AnswersKey definitions registry key (config.get registry key) ↔
        ∀ grammar, (keyLister? definitions key).bind (successor? definitions) = some grammar →
          grammar.HasKey key := by
      rw [hanswer]
      exact answersKey_iff hrecords hkey
    exact ⟨hanswer, hright, fun hkeeps => hright.2 fun _ hfound => hkeeps.hasKey hfound⟩
  · intro path
    have hanswer := hcollects.forPath_eq registry path
    have hright : AnswersPath definitions registry path (config.forPath registry path) ↔
        ∀ grammar, (pathLister? definitions path).bind (successor? definitions) = some grammar →
          grammar.HasNameOf path ∨ grammar.HasExtensionOf path ∧
            ∀ other, InForce definitions other → ¬ other.HasNameOf path := by
      rw [hanswer]
      exact answersPath_iff hrecords
    exact ⟨hanswer, hright, fun hkeeps => hright.2 fun _ hfound => hkeeps.has_path hfound⟩

/-- A grammar file of a location that defines C++ with some extensions. -/
def cppFileIn (location extensions : String) : GrammarFile :=
  ⟨location ++ "/cpp.yaml", "cpp.yaml", .ok (Text.encode ("extensions: " ++ extensions ++ "\n"))⟩

/-- A definition of higher priority that keeps the extensions of the other one: the configuration
answers with it, and leaves what it does not list to the registry. -/
theorem config_lookups_kept :
    let locations := [[cppFileIn "user" "['.hpp', '.H']"], [cppFileIn "project" "['.h']"]]
    let config := Config.empty.addAll [.cpp [".h"], .cpp [".hpp", ".h"]]
    (Config.load Yaml.parse locations).result = .ok config ∧
      config.get Registry.builtin "h" = .ok (.cpp [".hpp", ".h"]) ∧
      config.forPath Registry.builtin "src/main.h" = .ok (.cpp [".hpp", ".h"]) ∧
      config.forPath Registry.builtin "src/main.c" = Registry.builtin.forPath "src/main.c" := by
  intro locations config
  have hload : (Config.load Yaml.parse locations).result = .ok config := by decide +kernel
  have hdefinitions : Config.definitions Yaml.parse locations =
      [.cpp [".h"], .cpp [".hpp", ".h"]] := by
    decide +kernel
  obtain ⟨hkeys, hpaths⟩ := config_lookups hload []
  rw [hdefinitions] at hkeys hpaths
  refine ⟨hload, (hkeys "h" (by decide +kernel)).1.trans ?_, (hpaths "src/main.h").1.trans ?_,
    (hpaths "src/main.c").1.trans ?_⟩
  · decide +kernel
  · decide +kernel
  · decide +kernel

/-- A definition of higher priority that drops an extension of the other one: the extension still
leads to C++, whose grammar in force does not list it. -/
theorem dropped_extension_found :
    let locations := [[cppFileIn "user" "['.hpp']"], [cppFileIn "project" "['.h', '.hpp']"]]
    let definitions : List Grammar := [.cpp [".h", ".hpp"], .cpp [".hpp"]]
    let config := Config.empty.addAll definitions
    (Config.load Yaml.parse locations).result = .ok config ∧
      Config.definitions Yaml.parse locations = definitions ∧
      config.get Registry.builtin ".h" = .ok (.cpp [".hpp"]) ∧
      Registry.builtin.get ".h" = .ok .c ∧
      ¬ AnswersKey definitions Registry.builtin ".h" (config.get Registry.builtin ".h") := by
  intro locations definitions config
  have hget : config.get Registry.builtin ".h" = .ok (.cpp [".hpp"]) := by decide +kernel
  have hforce : InForce definitions (.cpp [".hpp"]) := by
    unfold InForce
    decide +kernel
  have hrecords : Registry.builtin.Records (Grammar.builtin ++ []) := Registry.records_builtin []
  refine ⟨by decide +kernel, by decide +kernel, hget,
    Registry.get_of_byKey? (by decide +kernel), ?_⟩
  rw [hget, answersKey_ok_iff hrecords (by decide +kernel) hforce]
  unfold Grammar.HasKey
  decide +kernel

end CommentMarkers
