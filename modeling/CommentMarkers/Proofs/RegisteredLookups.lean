import CommentMarkers.Proofs.Registrations
import CommentMarkers.Proofs.SmallLetters

/-!
# What lookups in the registry find

A lookup finds a grammar that is registered for its language, and that has the language, the
extension or the file name that was looked for.  Of several registered grammars that list an
extension or a file name, the last one is found if no grammar that is replaced by now was
registered with it later.

Main results:

- Theorem `Registry.Records.exists_of_extension`: extensions lead to grammars that list them.
- Theorem `lookups_sound`: lookups find registered grammars only, and those that were looked for.
- Theorem `indicated?_of_newest`: where a key leads that registered grammars list.
- Theorem `listed_keys_found`: which of the listed extensions and file names lead to a grammar.
-/

namespace CommentMarkers

/-! ## Lookups in a catalogue -/

/-- Looking for a key of an index and reading it is looking for a value. -/
theorem Index.find?_contains_bind {α : Type} (index : Index α) (keys : List String) :
    (keys.find? index.contains).bind index.get? = keys.findSome? index.get? := by
  induction keys with
  | nil => rfl
  | cons first rest ih =>
      rw [List.find?_cons, List.findSome?_cons]
      cases hfirst : index.get? first with
      | none => rw [contains, hfirst, Option.isSome_none, ih]
      | some value => rw [contains, hfirst, Option.isSome_some, Option.bind_some, hfirst]

/-- An index has a key that leads to something. -/
theorem Index.contains_of_get? {α : Type} {index : Index α} {key : String} {value : α}
    (hfound : index.get? key = some value) : index.contains key = true := by
  rw [contains, hfound, Option.isSome_some]

namespace Catalogue

/-- The extensions that a key may stand for: itself, and itself behind a dot. -/
def spellings (key : String) : List String :=
  if key.toList.head? = some '.' then [Text.lower key]
  else [Text.lower key, "." ++ Text.lower key]

/-- The extension by which a key leads to a language. -/
def extensionKey? (catalogue : Catalogue) (key : String) : Option String :=
  (spellings key).find? catalogue.byExtension.contains

/-- A key leads to the language of its extension. -/
theorem languageOfExtension?_eq (catalogue : Catalogue) (key : String) :
    catalogue.languageOfExtension? key =
      (catalogue.extensionKey? key).bind catalogue.byExtension.get? := by
  rw [extensionKey?, Index.find?_contains_bind, languageOfExtension?, spellings]
  by_cases hdot : key.toList.head? = some '.'
  · rw [if_pos hdot, if_pos hdot, List.findSome?_singleton]
    cases catalogue.byExtension.get? (Text.lower key) <;> rfl
  · rw [if_neg hdot, if_neg hdot, List.findSome?_cons, List.findSome?_singleton]
    cases catalogue.byExtension.get? (Text.lower key) <;> rfl

/-- The extension of a key is the first of its spellings that the index has. -/
theorem extensionKey?_eq_some_iff {catalogue : Catalogue} {key extension : String} :
    catalogue.extensionKey? key = some extension ↔
      extension ∈ spellings key ∧ catalogue.byExtension.contains extension = true ∧
        (extension = Text.lower key ∨
          catalogue.byExtension.contains (Text.lower key) = false) := by
  constructor
  · intro hfound
    refine ⟨List.mem_of_find?_eq_some hfound, List.find?_some hfound, ?_⟩
    cases hlower : catalogue.byExtension.contains (Text.lower key) with
    | false => exact Or.inr rfl
    | true =>
        -- The key itself comes first.
        left
        rw [extensionKey?, spellings] at hfound
        split at hfound
        · rw [List.find?_cons_of_pos hlower] at hfound
          exact (Option.some.inj hfound).symm
        · rw [List.find?_cons_of_pos hlower] at hfound
          exact (Option.some.inj hfound).symm
  · rintro ⟨hmem, hcontains, hfirst⟩
    rw [extensionKey?]
    rw [spellings] at hmem ⊢
    split at hmem
    · rename_i hdot
      rw [List.mem_singleton.1 hmem] at hcontains ⊢
      rw [if_pos hdot, List.find?_cons_of_pos hcontains]
    · rename_i hdot
      rw [if_neg hdot]
      rcases hfirst with rfl | hnone
      · rw [List.find?_cons_of_pos hcontains]
      · rcases List.mem_cons.1 hmem with rfl | hrest
        · rw [hcontains] at hnone
          cases hnone
        · rw [List.mem_singleton.1 hrest] at hcontains ⊢
          rw [List.find?_cons_of_neg (by rw [hnone]; exact Bool.false_ne_true),
            List.find?_cons_of_pos hcontains]

/-- A lookup by a key finds a language of this name, or else the language of its extension. -/
theorem byKey?_eq_some_iff {catalogue : Catalogue} {key : String} {grammar : Grammar} :
    catalogue.byKey? key = some grammar ↔
      catalogue.grammars.get? key = some grammar ∨
        catalogue.grammars.get? key = none ∧ ∃ extension language,
          catalogue.extensionKey? key = some extension ∧
          catalogue.byExtension.get? extension = some language ∧
          catalogue.grammars.get? language = some grammar := by
  rw [byKey?, languageOfExtension?_eq]
  cases hkey : catalogue.grammars.get? key with
  | some found => simp
  | none => simp [Option.bind_assoc, Option.bind_eq_some_iff]

end Catalogue

/-! ## Lookups in the registry -/

namespace Registry

variable {registry : Registry} {history : List Grammar} {grammar : Grammar}
  {key language extension name path : String}

/-- A lookup by a key finds what the catalogue has for it. -/
theorem get_eq_ok_iff :
    registry.get key = .ok grammar ↔ registry.catalogue.byKey? key = some grammar := by
  unfold get
  cases registry.catalogue.byKey? key <;> simp

/-- A lookup by a key fails if the catalogue has nothing for it. -/
theorem get_eq_error (hnone : registry.catalogue.byKey? key = none) :
    registry.get key = .error (registry.unknownKey key) := by
  rw [get, hnone]

/-- The grammar for a path is the one of its file name, or else the one of its extension. -/
theorem forPath_eq_ok_iff :
    registry.forPath path = .ok grammar ↔
      registry.catalogue.byName? (Text.Path.baseName path) = some grammar ∨
        registry.catalogue.byName? (Text.Path.baseName path) = none ∧
          Text.Path.extension (Text.Path.baseName path) ≠ "" ∧
          registry.catalogue.byExtension? (Text.Path.extension (Text.Path.baseName path))
            = some grammar := by
  unfold forPath
  dsimp only
  cases registry.catalogue.byName? (Text.Path.baseName path) with
  | some found => simp
  | none =>
      by_cases hempty : Text.Path.extension (Text.Path.baseName path) = ""
      · simp [hempty]
      · cases registry.catalogue.byExtension? (Text.Path.extension (Text.Path.baseName path)) <;>
          simp [hempty]

/-- Extensions lead to registered grammars that list them. -/
theorem Records.exists_of_extension (hrecords : registry.Records history)
    (hfound : registry.catalogue.byExtension.get? extension = some language) :
    ∃ grammar, registry.catalogue.grammars.get? language = some grammar ∧
      extension ∈ grammar.smallExtensions := by
  rw [hrecords.extensions] at hfound
  rw [hrecords.grammars]
  exact exists_of_indicated? hfound

/-- File names lead to registered grammars that list them. -/
theorem Records.exists_of_name (hrecords : registry.Records history)
    (hfound : registry.catalogue.byFilename.get? name = some language) :
    ∃ grammar, registry.catalogue.grammars.get? language = some grammar ∧
      name ∈ grammar.filenames := by
  rw [hrecords.names] at hfound
  rw [hrecords.grammars]
  exact exists_of_indicated? hfound

/-- The grammar that an extension leads to lists it. -/
theorem Records.mem_smallExtensions (hrecords : registry.Records history)
    (hfound : registry.catalogue.byExtension.get? extension = some language)
    (hgrammar : registry.catalogue.grammars.get? language = some grammar) :
    extension ∈ grammar.smallExtensions := by
  rcases hrecords.exists_of_extension hfound with ⟨found, hlists, hmem⟩
  rw [hgrammar] at hlists
  cases hlists
  exact hmem

/-- A grammar under a language is the last one that was registered for it. -/
theorem Records.registered?_of_get? (hrecords : registry.Records history)
    (hfound : registry.catalogue.grammars.get? language = some grammar) :
    registered? grammar.language history = some grammar := by
  rw [hrecords.grammars] at hfound
  rwa [language_of_registered? hfound]

/-- An extension that leads to a language is found by the keys that stand for it, unless they are
languages. -/
theorem Records.exists_get_of_extension (hrecords : registry.Records history)
    (hlanguage : registry.catalogue.grammars.get? key = none)
    (hkey : registry.catalogue.extensionKey? key = some extension) :
    ∃ grammar, registry.get key = .ok grammar ∧ extension ∈ grammar.smallExtensions := by
  have hcontains := (Catalogue.extensionKey?_eq_some_iff.1 hkey).2.1
  rcases Option.isSome_iff_exists.1 hcontains with ⟨language, hfound⟩
  rcases hrecords.exists_of_extension hfound with ⟨grammar, hgrammar, hlists⟩
  exact ⟨grammar, get_of_byKey? (Catalogue.byKey?_eq_some_iff.2
    (Or.inr ⟨hlanguage, extension, language, hkey, hfound, hgrammar⟩)), hlists⟩

/-- A file name that leads to a language is found. -/
theorem Records.exists_forPath_of_name (hrecords : registry.Records history)
    (hfound : registry.catalogue.byFilename.get? (Text.Path.baseName path) = some language) :
    ∃ grammar, registry.forPath path = .ok grammar ∧
      Text.Path.baseName path ∈ grammar.filenames := by
  rcases hrecords.exists_of_name hfound with ⟨grammar, hgrammar, hlists⟩
  refine ⟨grammar, forPath_eq_ok_iff.2 (Or.inl ?_), hlists⟩
  rw [Catalogue.byName?, hfound, Option.bind_some, hgrammar]

/-- Looking for a grammar fails only if nothing leads to one. -/
theorem Records.missing_of_get_eq_error (hrecords : registry.Records history)
    {failure : UnknownLanguage} (hfailed : registry.get key = .error failure) :
    registry.catalogue.grammars.get? key = none ∧
      registry.catalogue.languageOfExtension? key = none := by
  cases hlanguage : registry.catalogue.grammars.get? key with
  | some found =>
      rw [get_of_byKey? (Catalogue.byKey?_of_language hlanguage)] at hfailed
      cases hfailed
  | none =>
      refine ⟨rfl, ?_⟩
      rw [Catalogue.languageOfExtension?_eq]
      cases hkey : registry.catalogue.extensionKey? key with
      | none => rfl
      | some extension =>
          rcases hrecords.exists_get_of_extension hlanguage hkey with ⟨grammar, hfound, -⟩
          rw [hfound] at hfailed
          cases hfailed

/-- Looking for the grammar of a file fails only if neither its name nor its extension leads to
one. -/
theorem Records.missing_of_forPath_eq_error (hrecords : registry.Records history)
    {failure : UnknownLanguage} (hfailed : registry.forPath path = .error failure) :
    registry.catalogue.byFilename.get? (Text.Path.baseName path) = none ∧
      (Text.Path.extension (Text.Path.baseName path) = "" ∨
        registry.catalogue.byExtension.get?
          (Text.lower (Text.Path.extension (Text.Path.baseName path))) = none) := by
  have hname : registry.catalogue.byFilename.get? (Text.Path.baseName path) = none := by
    cases hlanguage : registry.catalogue.byFilename.get? (Text.Path.baseName path) with
    | none => rfl
    | some language =>
        rcases hrecords.exists_forPath_of_name hlanguage with ⟨grammar, hfound, -⟩
        rw [hfound] at hfailed
        cases hfailed
  refine ⟨hname, or_iff_not_imp_left.2 fun hne => ?_⟩
  cases hlanguage : registry.catalogue.byExtension.get?
      (Text.lower (Text.Path.extension (Text.Path.baseName path))) with
  | none => rfl
  | some language =>
      rcases hrecords.exists_of_extension hlanguage with ⟨grammar, hgrammar, -⟩
      have hfound : registry.forPath path = .ok grammar := by
        refine forPath_eq_ok_iff.2 (Or.inr ⟨?_, hne, ?_⟩)
        · rw [Catalogue.byName?, hname, Option.bind_none]
        · rw [Catalogue.byExtension?, hlanguage, Option.bind_some, hgrammar]
      rw [hfound] at hfailed
      cases hfailed

/-- A grammar that is found by a key is the last one of its language, and has the key. -/
theorem Records.of_get_eq_ok (hrecords : registry.Records history)
    (hfound : registry.get key = .ok grammar) :
    registered? grammar.language history = some grammar ∧
      (grammar.language = key ∨ ∃ extension ∈ Catalogue.spellings key,
        extension ∈ grammar.smallExtensions) := by
  rcases Catalogue.byKey?_eq_some_iff.1 (get_eq_ok_iff.1 hfound) with
    hkey | ⟨-, extension, language, hextension, hlanguage, hgrammar⟩
  · refine ⟨hrecords.registered?_of_get? hkey, Or.inl ?_⟩
    rw [hrecords.grammars] at hkey
    exact language_of_registered? hkey
  · exact ⟨hrecords.registered?_of_get? hgrammar,
      Or.inr ⟨extension, (Catalogue.extensionKey?_eq_some_iff.1 hextension).1,
        hrecords.mem_smallExtensions hlanguage hgrammar⟩⟩

/-- A grammar that is found for a path is the last one of its language, and has the name or the
extension of the file. -/
theorem Records.of_forPath_eq_ok (hrecords : registry.Records history)
    (hfound : registry.forPath path = .ok grammar) :
    registered? grammar.language history = some grammar ∧
      (Text.Path.baseName path ∈ grammar.filenames ∨
        Text.Path.extension (Text.Path.baseName path) ≠ "" ∧
          Text.lower (Text.Path.extension (Text.Path.baseName path)) ∈
            grammar.smallExtensions) := by
  rcases forPath_eq_ok_iff.1 hfound with hname | ⟨-, hne, hextension⟩
  · rcases Option.bind_eq_some_iff.1 hname with ⟨language, hlanguage, hgrammar⟩
    rcases hrecords.exists_of_name hlanguage with ⟨found, hlists, hmem⟩
    rw [hgrammar] at hlists
    cases hlists
    exact ⟨hrecords.registered?_of_get? hgrammar, Or.inl hmem⟩
  · rcases Option.bind_eq_some_iff.1 hextension with ⟨language, hlanguage, hgrammar⟩
    exact ⟨hrecords.registered?_of_get? hgrammar,
      Or.inr ⟨hne, hrecords.mem_smallExtensions hlanguage hgrammar⟩⟩

end Registry

/-- Whatever is registered after the built-in grammars: an extension or a file name leads to a
grammar that is registered and lists it; a lookup finds the grammar that was registered last for its
language, and one that has what was looked for; and it fails only if the registry has nothing for
it. -/
theorem lookups_sound (grammars : List Grammar) :
    let registry := Registry.builtin.registerAll grammars
    let history := Grammar.builtin ++ grammars
    (∀ extension language, registry.catalogue.byExtension.get? extension = some language →
      ∃ grammar, registry.catalogue.grammars.get? language = some grammar ∧
        extension ∈ grammar.smallExtensions) ∧
    (∀ name language, registry.catalogue.byFilename.get? name = some language →
      ∃ grammar, registry.catalogue.grammars.get? language = some grammar ∧
        name ∈ grammar.filenames) ∧
    (∀ key grammar, registry.get key = .ok grammar →
      registered? grammar.language history = some grammar ∧
        (grammar.language = key ∨ Text.lower key ∈ grammar.smallExtensions ∨
          key.toList.head? ≠ some '.' ∧ "." ++ Text.lower key ∈ grammar.smallExtensions)) ∧
    (∀ path grammar, registry.forPath path = .ok grammar →
      registered? grammar.language history = some grammar ∧
        (Text.Path.baseName path ∈ grammar.filenames ∨
          Text.Path.extension (Text.Path.baseName path) ≠ "" ∧
            Text.lower (Text.Path.extension (Text.Path.baseName path)) ∈
              grammar.smallExtensions)) ∧
    (∀ key failure, registry.get key = .error failure →
      registry.catalogue.grammars.get? key = none ∧
        registry.catalogue.languageOfExtension? key = none) ∧
    ∀ path failure, registry.forPath path = .error failure →
      registry.catalogue.byFilename.get? (Text.Path.baseName path) = none ∧
        (Text.Path.extension (Text.Path.baseName path) = "" ∨
          registry.catalogue.byExtension.get?
            (Text.lower (Text.Path.extension (Text.Path.baseName path))) = none) := by
  have hrecords := Registry.records_builtin grammars
  refine ⟨fun _ _ => hrecords.exists_of_extension, fun _ _ => hrecords.exists_of_name, ?_,
    fun _ _ => hrecords.of_forPath_eq_ok, fun _ _ => hrecords.missing_of_get_eq_error,
    fun _ _ => hrecords.missing_of_forPath_eq_error⟩
  intro key grammar hfound
  obtain ⟨hregistered, hlanguage | ⟨extension, hspelling, hmem⟩⟩ := hrecords.of_get_eq_ok hfound
  · exact ⟨hregistered, Or.inl hlanguage⟩
  · refine ⟨hregistered, Or.inr ?_⟩
    rw [Catalogue.spellings] at hspelling
    split at hspelling
    · rw [List.mem_singleton.1 hspelling] at hmem
      exact Or.inl hmem
    · rename_i hdot
      rcases List.mem_cons.1 hspelling with rfl | hdotted
      · exact Or.inl hmem
      · rw [List.mem_singleton.1 hdotted] at hmem
        exact Or.inr ⟨hdot, hmem⟩

/-- A grammar for C++ files with some extensions. -/
def Grammar.cpp (extensions : List String) : Grammar :=
  { Grammar.empty "cpp" with extensions := extensions }

/-- C++ is registered twice, and then found by its new extensions. -/
theorem lookups_sound_cpp :
    let registry := Registry.builtin.registerAll [.cpp [".h"], .cpp [".HPP", ".cc"]]
    let history := Grammar.builtin ++ [.cpp [".h"], .cpp [".HPP", ".cc"]]
    (registry.catalogue.byExtension.get? ".hpp" = some "cpp" ∧
      ∃ grammar, registry.catalogue.grammars.get? "cpp" = some grammar ∧
        ".hpp" ∈ grammar.smallExtensions) ∧
    (registry.catalogue.byFilename.get? "Makefile" = some "shell" ∧
      ∃ grammar, registry.catalogue.grammars.get? "shell" = some grammar ∧
        "Makefile" ∈ grammar.filenames) ∧
    (registry.get "hpp" = .ok (.cpp [".HPP", ".cc"]) ∧
      registered? "cpp" history = some (.cpp [".HPP", ".cc"])) ∧
    (registry.forPath "src/main.CC" = .ok (.cpp [".HPP", ".cc"]) ∧
      registered? "cpp" history = some (.cpp [".HPP", ".cc"])) ∧
    (registry.get ".h" = .error (registry.unknownKey ".h") ∧
      registry.catalogue.grammars.get? ".h" = none ∧
        registry.catalogue.languageOfExtension? ".h" = none) ∧
    registry.forPath "main.h" = .error (.noSuchExtension ".h" "main.h") ∧
      registry.catalogue.byFilename.get? "main.h" = none := by
  intro registry history
  obtain ⟨hextensions, hnames, hgets, hpaths, hunknown, hmissing⟩ :=
    lookups_sound [.cpp [".h"], .cpp [".HPP", ".cc"]]
  have hextension : registry.catalogue.byExtension.get? ".hpp" = some "cpp" := by decide +kernel
  have hname : registry.catalogue.byFilename.get? "Makefile" = some "shell" := by decide +kernel
  have hget : registry.get "hpp" = .ok (.cpp [".HPP", ".cc"]) :=
    Registry.get_of_byKey? (by decide +kernel)
  have hpath : registry.forPath "src/main.CC" = .ok (.cpp [".HPP", ".cc"]) := by decide +kernel
  have hfailed : registry.get ".h" = .error (registry.unknownKey ".h") :=
    Registry.get_eq_error (by decide +kernel)
  have hfile : registry.forPath "main.h" = .error (.noSuchExtension ".h" "main.h") := by
    decide +kernel
  exact ⟨⟨hextension, hextensions _ _ hextension⟩, ⟨hname, hnames _ _ hname⟩,
    ⟨hget, (hgets _ _ hget).1⟩, ⟨hpath, (hpaths _ _ hpath).1⟩,
    ⟨hfailed, hunknown _ _ hfailed⟩, hfile, (hmissing _ _ hfile).1⟩

/-! ## Which keys are found -/

/-- Holds of the registered grammars. -/
def Registry.holds (registry : Registry) (grammar : Grammar) : Bool :=
  registry.catalogue.grammars.get? grammar.language == some grammar

/-- The registered grammars are the ones that no later grammar replaces. -/
theorem Registry.Records.holds_eq {registry : Registry} {history : List Grammar}
    (hrecords : registry.Records history) : registry.holds = isCurrent history := by
  funext grammar
  rw [holds, hrecords.grammars, isCurrent]

/-- Of the registered grammars that list a key, the last one is found if it is also the last one of
the history that lists it.  Otherwise the key leads nowhere. -/
theorem indicated?_of_newest {keys : Grammar → List String} {key : String}
    {history : List Grammar} {newest : Grammar}
    (hnewest : latest? (fun grammar => isCurrent history grammar && (keys grammar).contains key)
      history = some newest) :
    indicated? keys key history =
      if lister? keys key history = some newest then some newest.language else none := by
  obtain ⟨hcurrent, -⟩ : isCurrent history newest = true ∧ (keys newest).contains key = true := by
    simpa using holds_of_latest? hnewest
  split
  · rename_i hlister
    rw [indicated?, hlister, Option.filter_some, if_pos hcurrent, Option.map_some]
  · rename_i hlister
    rw [indicated?, Option.map_eq_none_iff, Option.filter_eq_none_iff]
    intro last hlast hlastCurrent
    -- A registered grammar that is the last one to list the key is the one in question.
    rw [lister?] at hlister hlast
    rw [latest?_and hlast hlastCurrent, Option.some.injEq] at hnewest
    rw [hlast, hnewest] at hlister
    exact hlister rfl

/-- The base name of a text without slashes is this text. -/
theorem Text.Path.baseName_eq_self {name : String} (hslash : '/' ∉ name.toList) :
    baseName name = name := by
  rw [baseName, pieces, List.splitOn_eq_singleton hslash]
  exact String.ofList_toList

/-- A text in small letters is one of its own spellings. -/
theorem Catalogue.lower_mem_spellings (key : String) : Text.lower key ∈ spellings key := by
  rw [spellings]
  split
  · exact List.mem_cons_self
  · exact List.mem_cons_self

namespace Registry

variable {registry : Registry} {extension name : String} {grammar : Grammar}

/-- An extension in small letters that leads to a grammar is found, unless it is a language. -/
theorem get_of_extension (hsmall : Text.lower extension = extension)
    (hlanguage : registry.catalogue.grammars.get? extension = none)
    (hfound : registry.catalogue.byExtension.get? extension = some grammar.language)
    (hholds : registry.holds grammar = true) : registry.get extension = .ok grammar := by
  have hkey : registry.catalogue.extensionKey? extension = some extension := by
    refine Catalogue.extensionKey?_eq_some_iff.2
      ⟨?_, Index.contains_of_get? hfound, Or.inl hsmall.symm⟩
    have hmem := Catalogue.lower_mem_spellings extension
    rwa [hsmall] at hmem
  exact get_of_byKey? (Catalogue.byKey?_eq_some_iff.2
    (Or.inr ⟨hlanguage, extension, grammar.language, hkey, hfound, by simpa [holds] using hholds⟩))

/-- An extension in small letters that leads nowhere is not found if it begins with a dot. -/
theorem get_of_no_extension (hsmall : Text.lower extension = extension)
    (hlanguage : registry.catalogue.grammars.get? extension = none)
    (hnone : registry.catalogue.byExtension.get? extension = none)
    (hdot : extension.toList.head? = some '.') :
    registry.get extension = .error (registry.unknownKey extension) := by
  refine get_eq_error ?_
  rw [Catalogue.byKey?, hlanguage]
  dsimp only
  rw [Catalogue.languageOfExtension?, hsmall, hnone]
  dsimp only
  rw [if_pos hdot, Option.bind_none]

/-- A file name that leads to a grammar is found. -/
theorem forPath_of_name (hslash : '/' ∉ name.toList)
    (hfound : registry.catalogue.byFilename.get? name = some grammar.language)
    (hholds : registry.holds grammar = true) : registry.forPath name = .ok grammar := by
  refine forPath_eq_ok_iff.2 (Or.inl ?_)
  rw [Text.Path.baseName_eq_self hslash, Catalogue.byName?, hfound, Option.bind_some]
  simpa [holds] using hholds

/-- A file name that leads nowhere is not found if it has no extension. -/
theorem forPath_of_no_name (hslash : '/' ∉ name.toList)
    (hnone : registry.catalogue.byFilename.get? name = none)
    (hextension : Text.Path.extension name = "") :
    registry.forPath name = .error (.noExtension name) := by
  rw [forPath, Text.Path.baseName_eq_self hslash]
  dsimp only
  rw [Catalogue.byName?, hnone, Option.bind_none]
  dsimp only
  rw [if_pos hextension]

end Registry

/-- Whatever is registered after the built-in grammars, consider the last registered grammar that
lists an extension or a file name.  If it is the last grammar of the whole history that lists it,
then it is found, unless the extension is a language.  Otherwise the last one to list it is replaced
by now, and nothing is found by an extension with a dot or by a name without one. -/
theorem listed_keys_found (grammars : List Grammar) :
    let registry := Registry.builtin.registerAll grammars
    let history := Grammar.builtin ++ grammars
    (∀ extension newest,
      latest? (fun grammar =>
        registry.holds grammar && grammar.smallExtensions.contains extension) history
          = some newest →
      registry.catalogue.grammars.get? extension = none →
      (lister? Grammar.smallExtensions extension history = some newest →
        registry.get extension = .ok newest) ∧
      (lister? Grammar.smallExtensions extension history ≠ some newest →
        extension.toList.head? = some '.' →
        registry.get extension = .error (registry.unknownKey extension))) ∧
    ∀ name newest, '/' ∉ name.toList →
      latest? (fun grammar => registry.holds grammar && grammar.filenames.contains name) history
        = some newest →
      (lister? (·.filenames) name history = some newest → registry.forPath name = .ok newest) ∧
      (lister? (·.filenames) name history ≠ some newest → Text.Path.extension name = "" →
        registry.forPath name = .error (.noExtension name)) := by
  intro registry history
  have hrecords : registry.Records history := Registry.records_builtin grammars
  constructor
  · intro extension newest hnewest hlanguage
    obtain ⟨hholds, hlists⟩ :
        registry.holds newest = true ∧ newest.smallExtensions.contains extension = true := by
      simpa using holds_of_latest? hnewest
    have hsmall : Text.lower extension = extension := by
      rcases List.mem_map.1 (List.contains_iff_mem.1 hlists) with ⟨given, -, rfl⟩
      exact Text.lower_lower given
    have hindex := hrecords.extensions extension
    rw [hrecords.holds_eq] at hnewest
    rw [indicated?_of_newest hnewest] at hindex
    constructor
    · intro hlister
      rw [if_pos hlister] at hindex
      exact Registry.get_of_extension hsmall hlanguage hindex hholds
    · intro hlister hdot
      rw [if_neg hlister] at hindex
      exact Registry.get_of_no_extension hsmall hlanguage hindex hdot
  · intro name newest hslash hnewest
    obtain ⟨hholds, -⟩ :
        registry.holds newest = true ∧ newest.filenames.contains name = true := by
      simpa using holds_of_latest? hnewest
    have hindex := hrecords.names name
    rw [hrecords.holds_eq] at hnewest
    rw [indicated?_of_newest hnewest] at hindex
    constructor
    · intro hlister
      rw [if_pos hlister] at hindex
      exact Registry.forPath_of_name hslash hindex hholds
    · intro hlister hextension
      rw [if_neg hlister] at hindex
      exact Registry.forPath_of_no_name hslash hindex hextension

/-- C++ takes over an extension of C and is found by it, while a file name stays with the shell.
Once C++ is registered without the extension again, nothing is found by it, and so it is with a file
name that another language took over and gave up. -/
theorem listed_keys_found_cpp :
    let taken := Registry.builtin.registerAll [.cpp [".h"]]
    let lost := Registry.builtin.registerAll
      [.cpp [".h"], .cpp [], { Grammar.empty "make" with filenames := ["Makefile"] }, .empty "make"]
    (taken.get ".h" = .ok (.cpp [".h"]) ∧ taken.forPath "Makefile" = .ok .shell) ∧
      lost.get ".h" = .error (lost.unknownKey ".h") ∧
      lost.forPath "Makefile" = .error (.noExtension "Makefile") := by
  intro taken lost
  obtain ⟨hextensions, hnames⟩ := listed_keys_found [.cpp [".h"]]
  obtain ⟨hlostExtensions, hlostNames⟩ := listed_keys_found
    [.cpp [".h"], .cpp [], { Grammar.empty "make" with filenames := ["Makefile"] }, .empty "make"]
  constructor
  · constructor
    · exact (hextensions ".h" (.cpp [".h"]) (by decide +kernel) (by decide +kernel)).1
        (by decide +kernel)
    · exact (hnames "Makefile" .shell (by decide +kernel) (by decide +kernel)).1
        (by decide +kernel)
  · constructor
    · exact (hlostExtensions ".h" .c (by decide +kernel) (by decide +kernel)).2
        (by decide +kernel) (by decide +kernel)
    · exact (hlostNames "Makefile" .shell (by decide +kernel) (by decide +kernel)).2
        (by decide +kernel) (by decide +kernel)

/-- If C++ is registered again without an extension that it took over from C, then C is registered
and lists the extension, which is no language, but nothing is found by it. -/
theorem reregistering_hides_extension :
    let registry := Registry.builtin.registerAll [.cpp [".h"], .cpp [".hpp"]]
    latest? (fun grammar => registry.holds grammar && grammar.smallExtensions.contains ".h")
        (Grammar.builtin ++ [.cpp [".h"], .cpp [".hpp"]]) = some .c ∧
      registry.catalogue.grammars.get? ".h" = none ∧
      registry.get ".h" = .error (registry.unknownKey ".h") := by
  refine ⟨?_, ?_, Registry.get_eq_error ?_⟩
  · decide +kernel
  · decide +kernel
  · decide +kernel

end CommentMarkers
