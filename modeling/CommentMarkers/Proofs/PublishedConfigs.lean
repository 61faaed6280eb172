import CommentMarkers.Proofs.ConfigDefinitions
import CommentMarkers.Proofs.RegisteredLookups
import CommentMarkers.Yaml.Document

/-!
# Registering a configuration

A configuration answers before the registry.  Once its grammars are registered, the registry has
them without any layers: it looks for languages before extensions, and for file names before
extensions, whether a grammar comes from the configuration or not.  So both answer alike, except
where a language, an extension or a file name of the registry comes first.

Main results:

- Theorem `Config.Collects.get?_registerAll`: the grammars of the configuration come first.
- Theorem `Config.Collects.indicated?_registerAll`: the keys of the grammars in force lead to them.
- Theorem `Config.Collects.registered_get`: when the registry answers a key like the configuration.
- Theorem `Config.Collects.registered_forPath`: when it answers a path like the configuration.
- Theorem `registered_lookups`: how the answers of both are related.
-/

namespace CommentMarkers

/-- Holds if a key leads to the last one of some grammars that list it. -/
def Index.Settles (index : Index String) (keys : Grammar → List String) (grammars : List Grammar)
    (key : String) (grammar : Grammar) : Prop :=
  index.get? key = some grammar.language ∧ lister? keys key grammars = some grammar

namespace Config

/-- Holds if an extension leads to the last one of the grammars in force that list it. -/
def SettlesExtension (config : Config) (extension : String) (grammar : Grammar) : Prop :=
  config.catalogue.byExtension.Settles Grammar.smallExtensions config.catalogue.grammars.values
    extension grammar

/-- Holds if a file name leads to the last one of the grammars in force that list it. -/
def SettlesName (config : Config) (name : String) (grammar : Grammar) : Prop :=
  config.catalogue.byFilename.Settles (·.filenames) config.catalogue.grammars.values name grammar

variable {config : Config} {definitions : List Grammar} {registry : Registry}
  {history : List Grammar} {grammar : Grammar} {key extension path : String}

/-! ## The registry with the grammars of a configuration -/

/-- The grammars of the configuration are added to the history. -/
theorem records_registerAll (hrecords : registry.Records history) (config : Config) :
    (config.registerAll registry).Records (history ++ config.catalogue.grammars.values) :=
  hrecords.registerAll config.catalogue.grammars.values

/-- For each language the grammar of the configuration comes last, or else the one before it. -/
theorem Collects.registered?_append (hcollects : config.Collects definitions)
    (history : List Grammar) (language : String) :
    registered? language (history ++ config.catalogue.grammars.values) =
      (config.catalogue.grammars.get? language).or (registered? language history) := by
  rw [registered?, latest?_append, ← registered?, registered?_values hcollects.keyed]
  rfl

/-- The registry has the grammars of the configuration, and of its own those of other languages. -/
theorem Collects.get?_registerAll (hcollects : config.Collects definitions)
    (hrecords : registry.Records history) (language : String) :
    (config.registerAll registry).catalogue.grammars.get? language =
      (config.catalogue.grammars.get? language).or
        (registry.catalogue.grammars.get? language) := by
  rw [(records_registerAll hrecords config).grammars, hcollects.registered?_append,
    hrecords.grammars]

/-- A key that grammars in force list leads to the last one of them. -/
theorem Collects.indicated?_registerAll (hcollects : config.Collects definitions)
    (history : List Grammar) {keys : Grammar → List String}
    (hlast : lister? keys key config.catalogue.grammars.values = some grammar) :
    indicated? keys key (history ++ config.catalogue.grammars.values) = some grammar.language := by
  refine indicated?_eq_some_iff.2 ⟨grammar, ?_, ?_⟩
  · rw [lister?, latest?_append, ← lister?, hlast, Option.some_or]
  · rw [hcollects.registered?_append, hcollects.keyed.mem_values_iff.1 (mem_of_latest? hlast),
      Option.some_or]

/-- The configuration has every key that a grammar in force lists. -/
theorem Collects.contains_of_mem (hcollects : config.Collects definitions) {index : Index String}
    {keys : Grammar → List String}
    (hindex : ∀ key, index.get? key = (lister? keys key definitions).map (·.language))
    (hmem : grammar ∈ config.catalogue.grammars.values) (hlists : key ∈ keys grammar) :
    index.contains key = true := by
  have hregistered := hcollects.keyed.mem_values_iff.1 hmem
  rw [hcollects.grammars] at hregistered
  rcases exists_lister? (mem_of_latest? hregistered) hlists with ⟨last, hlast⟩
  rw [Index.contains, hindex, hlast, Option.map_some, Option.isSome_some]

/-- If all definitions stay in force, then every key of the configuration is settled. -/
theorem exists_settles {index : Index String} {keys : Grammar → List String}
    {language : String}
    (hindex : ∀ key, index.get? key = (lister? keys key definitions).map (·.language))
    (hvalues : config.catalogue.grammars.values = definitions)
    (hfound : index.get? key = some language) :
    ∃ grammar, index.Settles keys config.catalogue.grammars.values key grammar := by
  have hlisted := hindex key
  rw [hfound] at hlisted
  rcases Option.map_eq_some_iff.1 hlisted.symm with ⟨last, hlast, rfl⟩
  exact ⟨last, hfound, by rw [hvalues, hlast]⟩

/-! ## Lookups by a key -/

/-- The configuration answers with the grammar of a settled extension. -/
theorem Collects.get_of_settled (hcollects : config.Collects definitions) (registry : Registry)
    (hlanguage : config.catalogue.grammars.get? key = none)
    (hkey : config.catalogue.extensionKey? key = some extension)
    (hsettled : config.SettlesExtension extension grammar) :
    config.get registry key = .ok grammar := by
  have hgrammar := hcollects.keyed.mem_values_iff.1 (mem_of_latest? hsettled.2)
  have hfound : config.catalogue.byKey? key = some grammar :=
    Catalogue.byKey?_eq_some_iff.2
      (Or.inr ⟨hlanguage, extension, grammar.language, hkey, hsettled.1, hgrammar⟩)
  rw [get, hfound]

/-- The configuration and the registry answer alike for a language of the configuration, and for a
key by which the configuration has nothing. -/
theorem Collects.registered_get_eq (hcollects : config.Collects definitions)
    (hrecords : registry.Records history)
    (hplain : config.catalogue.grammars.get? key ≠ none ∨
      config.catalogue.extensionKey? key = none) :
    (config.registerAll registry).get key = config.get (config.registerAll registry) key := by
  cases hlanguage : config.catalogue.grammars.get? key with
  | some found =>
      have hfound := hcollects.get?_registerAll hrecords key
      rw [hlanguage, Option.some_or] at hfound
      rw [get, Catalogue.byKey?_of_language hlanguage,
        Registry.get_of_byKey? (Catalogue.byKey?_of_language hfound)]
  | none =>
      have hkey := hplain.resolve_left (not_not_intro hlanguage)
      have hnone : config.catalogue.byKey? key = none := by
        rw [Catalogue.byKey?, hlanguage, Catalogue.languageOfExtension?_eq, hkey]
        rfl
      exact (get_of_unknown _ hnone).symm

/-- The registry answers with the grammar of a settled extension if the key is no language, and if
the extension without the dot in front leads nowhere. -/
theorem Collects.registered_get_of_first (hcollects : config.Collects definitions)
    (hrecords : registry.Records history)
    (hlanguage : (config.registerAll registry).catalogue.grammars.get? key = none)
    (hspelling : extension ∈ Catalogue.spellings key)
    (hfirst : extension = Text.lower key ∨
      (config.registerAll registry).catalogue.byExtension.contains (Text.lower key) = false)
    (hsettled : config.SettlesExtension extension grammar) :
    (config.registerAll registry).get key = .ok grammar := by
  have hindex := (records_registerAll hrecords config).extensions extension
  rw [hcollects.indicated?_registerAll history hsettled.2] at hindex
  refine Registry.get_of_byKey? (Catalogue.byKey?_eq_some_iff.2
    (Or.inr ⟨hlanguage, extension, grammar.language, ?_, hindex, ?_⟩))
  · exact Catalogue.extensionKey?_eq_some_iff.2
      ⟨hspelling, Index.contains_of_get? hindex, hfirst⟩
  · rw [hcollects.get?_registerAll hrecords,
      hcollects.keyed.mem_values_iff.1 (mem_of_latest? hsettled.2), Option.some_or]

/-- A key that the configuration answers by a settled extension is answered by the registry, too.
It is the same answer unless the key is a language of the registry, or the registry has the
extension without the dot in front. -/
theorem Collects.registered_get (hcollects : config.Collects definitions)
    (hrecords : registry.Records history)
    (hlanguage : config.catalogue.grammars.get? key = none)
    (hkey : config.catalogue.extensionKey? key = some extension)
    (hsettled : config.SettlesExtension extension grammar) :
    ((config.registerAll registry).get key).isOk = true ∧
      ((config.registerAll registry).get key = .ok grammar ↔
        registry.catalogue.grammars.get? key = none ∧
          (extension = Text.lower key ∨
            (config.registerAll registry).catalogue.byExtension.contains (Text.lower key)
              = false)) := by
  have hpublished := records_registerAll hrecords config
  have hmem := mem_of_latest? hsettled.2
  have hgrammar := hcollects.keyed.mem_values_iff.1 hmem
  have hkeep := hcollects.get?_registerAll hrecords key
  rw [hlanguage, Option.none_or] at hkeep
  have hspelling := Catalogue.extensionKey?_eq_some_iff.1 hkey
  cases hforeign : registry.catalogue.grammars.get? key with
  | some other =>
      -- The key is a language outside the configuration.
      rw [hforeign] at hkeep
      rw [Registry.get_of_byKey? (Catalogue.byKey?_of_language hkeep)]
      refine ⟨rfl, fun hsame => ?_, fun hnone => absurd hnone.1 nofun⟩
      cases hsame
      rw [hrecords.grammars] at hforeign
      rw [language_of_registered? hforeign, hlanguage] at hgrammar
      cases hgrammar
  | none =>
      rw [hforeign] at hkeep
      by_cases hfirst : extension = Text.lower key ∨
          (config.registerAll registry).catalogue.byExtension.contains (Text.lower key) = false
      · rw [hcollects.registered_get_of_first hrecords hkeep hspelling.1 hfirst hsettled]
        exact ⟨rfl, fun _ => ⟨rfl, hfirst⟩, fun _ => rfl⟩
      · -- The extension without a dot comes first, and no grammar in force lists it.
        rw [not_or, Bool.not_eq_false] at hfirst
        have hbare : (config.registerAll registry).catalogue.extensionKey? key
            = some (Text.lower key) :=
          Catalogue.extensionKey?_eq_some_iff.2
            ⟨Catalogue.lower_mem_spellings key, hfirst.2, Or.inl rfl⟩
        rcases hpublished.exists_get_of_extension hkeep hbare with ⟨other, hget, hlists⟩
        rw [hget]
        refine ⟨rfl, fun hsame => ?_, fun hnot => absurd hnot.2 ?_⟩
        · cases hsame
          have hcontains := hcollects.contains_of_mem hcollects.extensions hmem hlists
          rcases hspelling.2.2 with hsame | hmissing
          · exact absurd hsame hfirst.1
          · rw [hcontains] at hmissing
            cases hmissing
        · rw [not_or, Bool.not_eq_false]
          exact hfirst

/-! ## Lookups by a path -/

/-- The configuration leaves a path to the registry if it has neither its file name nor its
extension. -/
theorem forPath_of_unknown (registry : Registry)
    (hname : config.catalogue.byFilename.get? (Text.Path.baseName path) = none)
    (hextension : Text.Path.extension (Text.Path.baseName path) = "" ∨
      config.catalogue.byExtension.get?
        (Text.lower (Text.Path.extension (Text.Path.baseName path))) = none) :
    config.forPath registry path = registry.forPath path := by
  rw [forPath, Catalogue.byName?, hname, Option.bind_none, Option.none_or]
  split
  · rename_i hfound
    rcases hextension with hempty | hnone
    · rw [if_pos hempty] at hfound
      cases hfound
    · rw [Catalogue.byExtension?, hnone, Option.bind_none, ite_self] at hfound
      cases hfound
  · rfl

/-- The configuration and the registry answer with the grammar of a settled file name. -/
theorem Collects.forPath_of_settled_name (hcollects : config.Collects definitions)
    (hrecords : registry.Records history)
    (hsettled : config.SettlesName (Text.Path.baseName path) grammar) :
    config.forPath (config.registerAll registry) path = .ok grammar ∧
      (config.registerAll registry).forPath path = .ok grammar := by
  have hpublished := records_registerAll hrecords config
  have hgrammar := hcollects.keyed.mem_values_iff.1 (mem_of_latest? hsettled.2)
  constructor
  · rw [forPath]
    rw [Catalogue.byName?, hsettled.1, Option.bind_some, hgrammar, Option.some_or]
  · refine Registry.forPath_eq_ok_iff.2 (Or.inl ?_)
    rw [Catalogue.byName?, hpublished.names, hcollects.indicated?_registerAll history hsettled.2,
      Option.bind_some, hcollects.get?_registerAll hrecords, hgrammar, Option.some_or]

/-- The configuration answers with the grammar of a settled extension if it does not have the file
name. -/
theorem Collects.forPath_of_settled (hcollects : config.Collects definitions)
    (registry : Registry)
    (hname : config.catalogue.byFilename.get? (Text.Path.baseName path) = none)
    (hextension : Text.Path.extension (Text.Path.baseName path) ≠ "")
    (hsettled : config.SettlesExtension
      (Text.lower (Text.Path.extension (Text.Path.baseName path))) grammar) :
    config.forPath registry path = .ok grammar := by
  have hgrammar := hcollects.keyed.mem_values_iff.1 (mem_of_latest? hsettled.2)
  rw [forPath]
  rw [Catalogue.byName?, hname, Option.bind_none, Option.none_or, if_neg hextension,
    Catalogue.byExtension?, hsettled.1, Option.bind_some, hgrammar]

/-- A path that the configuration answers by a settled extension is answered by the registry, too.
It is the same answer unless the registry has the file name. -/
theorem Collects.registered_forPath (hcollects : config.Collects definitions)
    (hrecords : registry.Records history)
    (hname : config.catalogue.byFilename.get? (Text.Path.baseName path) = none)
    (hextension : Text.Path.extension (Text.Path.baseName path) ≠ "")
    (hsettled : config.SettlesExtension
      (Text.lower (Text.Path.extension (Text.Path.baseName path))) grammar) :
    ((config.registerAll registry).forPath path).isOk = true ∧
      ((config.registerAll registry).forPath path = .ok grammar ↔
        (config.registerAll registry).catalogue.byFilename.get? (Text.Path.baseName path)
          = none) := by
  have hpublished := records_registerAll hrecords config
  have hmem := mem_of_latest? hsettled.2
  cases hforeign : (config.registerAll registry).catalogue.byFilename.get?
      (Text.Path.baseName path) with
  | some language =>
      -- No grammar in force lists the file name.
      rcases hpublished.exists_forPath_of_name hforeign with ⟨other, hfound, hlists⟩
      rw [hfound]
      refine ⟨rfl, fun hsame => ?_, nofun⟩
      cases hsame
      have hcontains := hcollects.contains_of_mem hcollects.names hmem hlists
      rw [Index.contains, hname] at hcontains
      cases hcontains
  | none =>
      have hfound : (config.registerAll registry).forPath path = .ok grammar := by
        refine Registry.forPath_eq_ok_iff.2 (Or.inr ⟨?_, hextension, ?_⟩)
        · rw [Catalogue.byName?, hforeign, Option.bind_none]
        · rw [Catalogue.byExtension?, hpublished.extensions,
            hcollects.indicated?_registerAll history hsettled.2, Option.bind_some,
            hcollects.get?_registerAll hrecords, hcollects.keyed.mem_values_iff.1 hmem,
            Option.some_or]
      rw [hfound]
      exact ⟨rfl, fun _ => rfl, fun _ => rfl⟩

end Config

/-- However a configuration is loaded and whatever is registered before its grammars are: the
registry with its grammars answers like the configuration for a language of the configuration, for a
file name that is settled, and for whatever the configuration has nothing by.  It answers each key
and each path that the configuration answers by a settled extension, with the same grammar unless
it has something by a language, by the extension without a dot, or by the file name.  Everything is
settled if no language is defined twice. -/
theorem registered_lookups {parse : String → Option Data} {locations : List (List GrammarFile)}
    {config : Config} (hload : (Config.load parse locations).result = .ok config)
    (grammars : List Grammar) :
    let registry := Registry.builtin.registerAll grammars
    let registered := config.registerAll registry
    (∀ key, config.catalogue.grammars.get? key ≠ none ∨
        config.catalogue.extensionKey? key = none →
      registered.get key = config.get registered key) ∧
    (∀ key extension grammar, config.catalogue.grammars.get? key = none →
      config.catalogue.extensionKey? key = some extension →
      config.SettlesExtension extension grammar →
      config.get registered key = .ok grammar ∧ (registered.get key).isOk = true ∧
        (registered.get key = .ok grammar ↔
          registry.catalogue.grammars.get? key = none ∧
            (extension = Text.lower key ∨
              registered.catalogue.byExtension.contains (Text.lower key) = false))) ∧
    (∀ path, config.catalogue.byFilename.get? (Text.Path.baseName path) = none →
      Text.Path.extension (Text.Path.baseName path) = "" ∨
        config.catalogue.byExtension.get?
          (Text.lower (Text.Path.extension (Text.Path.baseName path))) = none →
      registered.forPath path = config.forPath registered path) ∧
    (∀ path grammar, config.SettlesName (Text.Path.baseName path) grammar →
      config.forPath registered path = .ok grammar ∧ registered.forPath path = .ok grammar) ∧
    (∀ path grammar, config.catalogue.byFilename.get? (Text.Path.baseName path) = none →
      Text.Path.extension (Text.Path.baseName path) ≠ "" →
      config.SettlesExtension (Text.lower (Text.Path.extension (Text.Path.baseName path)))
        grammar →
      config.forPath registered path = .ok grammar ∧ (registered.forPath path).isOk = true ∧
        (registered.forPath path = .ok grammar ↔
          registered.catalogue.byFilename.get? (Text.Path.baseName path) = none)) ∧
    ∀ definitions, config = Config.empty.addAll definitions →
      (definitions.map (·.language)).Nodup →
      (∀ extension language, config.catalogue.byExtension.get? extension = some language →
        ∃ grammar, config.SettlesExtension extension grammar) ∧
      ∀ name language, config.catalogue.byFilename.get? name = some language →
        ∃ grammar, config.SettlesName name grammar := by
  intro registry registered
  rcases Config.exists_collects_of_load hload with ⟨definitions, hcollects⟩
  have hrecords : registry.Records (Grammar.builtin ++ grammars) :=
    Registry.records_builtin grammars
  refine ⟨fun key hplain => hcollects.registered_get_eq hrecords hplain, ?_,
    fun path hname hextension => (Config.forPath_of_unknown _ hname hextension).symm,
    fun path grammar hsettled => hcollects.forPath_of_settled_name hrecords hsettled, ?_, ?_⟩
  · intro key extension grammar hlanguage hkey hsettled
    exact ⟨hcollects.get_of_settled _ hlanguage hkey hsettled,
      hcollects.registered_get hrecords hlanguage hkey hsettled⟩
  · intro path grammar hname hextension hsettled
    exact ⟨hcollects.forPath_of_settled _ hname hextension hsettled,
      hcollects.registered_forPath hrecords hname hextension hsettled⟩
  · rintro definitions rfl hnodup
    have hall := Config.collects_empty.addAll definitions
    have hvalues := Config.values_addAll hnodup
    exact ⟨fun _ _ => Config.exists_settles hall.extensions hvalues,
      fun _ _ => Config.exists_settles hall.names hvalues⟩

/-- A grammar file for C++ that takes over an extension of C and a file name of the shell. -/
def cppFile : GrammarFile :=
  ⟨"conf/cpp.yaml", "cpp.yaml", .ok (Text.encode "extensions: ['.c']\nfilenames: [Makefile]\n")⟩

/-- The grammar that this file defines. -/
def cppDefinition : Grammar :=
  { Grammar.cpp [".c"] with filenames := ["Makefile"] }

/-- The registry with the grammar of this file answers like the configuration, except for a language
that is an extension of the file. -/
theorem registered_lookups_cpp :
    let config := Config.empty.addAll [cppDefinition]
    let registered := config.registerAll (Registry.builtin.registerAll [])
    (Config.load Yaml.parse [[cppFile]]).result = .ok config ∧
    registered.get "cpp" = config.get registered "cpp" ∧
    registered.get "python" = config.get registered "python" ∧
    registered.get ".C" = .ok cppDefinition ∧ registered.get "c" ≠ .ok cppDefinition ∧
    registered.forPath "main.py" = config.forPath registered "main.py" ∧
    registered.forPath "src/Makefile" = .ok cppDefinition ∧
    registered.forPath "main.c" = .ok cppDefinition ∧
    ∃ grammar, config.SettlesExtension ".c" grammar := by
  intro config registered
  have hload : (Config.load Yaml.parse [[cppFile]]).result = .ok config := by decide +kernel
  obtain ⟨hkeys, hextensions, hpaths, hnames, hendings, hall⟩ := registered_lookups hload []
  have hsettled : config.SettlesExtension ".c" cppDefinition := by
    constructor
    · decide +kernel
    · decide +kernel
  have hmake : config.SettlesName "Makefile" cppDefinition := by
    constructor
    · decide +kernel
    · decide +kernel
  have hdotted := hextensions ".C" ".c" cppDefinition (by decide +kernel) (by decide +kernel)
    hsettled
  have hbare := hextensions "c" ".c" cppDefinition (by decide +kernel) (by decide +kernel) hsettled
  have hending := hendings "main.c" cppDefinition (by decide +kernel) (by decide +kernel) hsettled
  refine ⟨hload, hkeys "cpp" (Or.inl ?_), hkeys "python" (Or.inr ?_), hdotted.2.2.2 ⟨?_, ?_⟩,
    fun hsame => absurd (hbare.2.2.1 hsame).1 ?_, hpaths "main.py" ?_ (Or.inr ?_),
    (hnames "src/Makefile" cppDefinition hmake).2, hending.2.2.2 ?_,
    (hall [cppDefinition] rfl (List.nodup_singleton _)).1 ".c" "cpp" ?_⟩
  · decide +kernel
  · decide +kernel
  · decide +kernel
  · exact Or.inl (by decide +kernel)
  · decide +kernel
  · decide +kernel
  · decide +kernel
  · decide +kernel
  · decide +kernel

/-- The configuration finds its own grammar by an extension without the dot, but the registry has a
language of this name. -/
theorem language_before_extension :
    let config := Config.empty.addAll [cppDefinition]
    let registered := config.registerAll Registry.builtin
    (Config.load Yaml.parse [[cppFile]]).result = .ok config ∧
      config.get registered "c" = .ok cppDefinition ∧ registered.get "c" = .ok .c := by
  refine ⟨?_, ?_, Registry.get_of_byKey? ?_⟩
  · decide +kernel
  · decide +kernel
  · decide +kernel

end CommentMarkers
