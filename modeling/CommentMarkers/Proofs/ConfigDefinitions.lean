import CommentMarkers.Config
import CommentMarkers.Proofs.Registrations
import Mathlib.Data.List.Induction
import Mathlib.Data.List.Nodup

/-!
# What a configuration collects

A configuration is described by the definitions that were read into it, in their order.  Under each
language it holds the last definition.  An extension or a file name leads to the language of the
last definition that lists it, whatever is defined for this language later.

Main results:

- Theorem `registered?_values`: the grammars in force are one for each language.
- Theorem `Config.Collects.addAll`: a configuration collects what is added to it.
- Theorem `Config.values_addAll`: without a language that is defined twice all stay in force.
- Theorem `Config.exists_collects_of_load`: a loaded configuration collects some definitions.
-/

namespace CommentMarkers

/-! ## Indexes of grammars -/

/-- A key is put in behind the others, or at its own place. -/
theorem Index.keys_put {α : Type} (index : Index α) (key : String) (value : α) :
    (index.put key value).keys =
      if key ∈ index.keys then index.keys else index.keys ++ [key] := by
  obtain ⟨entries⟩ := index
  unfold put keys
  dsimp only
  induction entries with
  | nil => rfl
  | cons entry rest ih =>
      obtain ⟨other, old⟩ := entry
      rw [putEntry]
      by_cases hsame : other = key
      · rw [if_pos hsame, hsame, List.map_cons, List.map_cons, if_pos List.mem_cons_self]
      · rw [if_neg hsame, List.map_cons, List.map_cons, ih]
        simp only [List.mem_cons, Ne.symm hsame, false_or]
        split <;> rfl

/-- A value under a new key is put in behind the others. -/
theorem Index.values_put {α : Type} {index : Index α} {key : String} (value : α)
    (hnew : key ∉ index.keys) : (index.put key value).values = index.values ++ [value] := by
  obtain ⟨entries⟩ := index
  unfold keys at hnew
  unfold put values
  dsimp only at hnew ⊢
  induction entries with
  | nil => rfl
  | cons entry rest ih =>
      obtain ⟨other, old⟩ := entry
      rw [List.map_cons, List.mem_cons, not_or] at hnew
      rw [putEntry, if_neg (Ne.symm hnew.1), List.map_cons, List.map_cons, ih hnew.2]
      rfl

/-- The entries of an index are among the old ones and the new one. -/
theorem Index.mem_entries_put {α : Type} {index : Index α} {key : String} {value : α}
    {entry : String × α} (hentry : entry ∈ (index.put key value).entries) :
    entry = (key, value) ∨ entry ∈ index.entries := by
  obtain ⟨entries⟩ := index
  unfold put at hentry
  dsimp only at hentry ⊢
  induction entries with
  | nil => exact Or.inl (List.mem_singleton.1 hentry)
  | cons first rest ih =>
      obtain ⟨other, old⟩ := first
      rw [putEntry] at hentry
      split at hentry
      · exact (List.mem_cons.1 hentry).imp_right (List.mem_cons_of_mem _)
      · rcases List.mem_cons.1 hentry with rfl | hrest
        · exact Or.inr List.mem_cons_self
        · exact (ih hrest).imp_right (List.mem_cons_of_mem _)

/-- Holds of an index that has at most one grammar for a language, under this language. -/
structure Index.IsKeyed (index : Index Grammar) : Prop where
  nodup : index.keys.Nodup
  language : ∀ entry ∈ index.entries, entry.2.language = entry.1

/-- An index stays keyed when a grammar is put in under its language. -/
theorem Index.IsKeyed.put {index : Index Grammar} (hkeyed : index.IsKeyed) (grammar : Grammar) :
    (index.put grammar.language grammar).IsKeyed := by
  constructor
  · rw [keys_put]
    split
    · exact hkeyed.nodup
    · rename_i hnew
      rw [← List.concat_eq_append]
      exact hkeyed.nodup.concat hnew
  · intro entry hentry
    rcases mem_entries_put hentry with rfl | hold
    · rfl
    · exact hkeyed.language entry hold

/-- The keys of a keyed index are the languages of its grammars. -/
theorem Index.IsKeyed.keys_eq {index : Index Grammar} (hkeyed : index.IsKeyed) :
    index.keys = index.values.map (·.language) := by
  rw [keys, values, List.map_map]
  exact List.map_congr_left fun entry hentry => (hkeyed.language entry hentry).symm

/-- The grammars of a keyed index are one for each language. -/
theorem registered?_values {index : Index Grammar} (hkeyed : index.IsKeyed) (language : String) :
    registered? language index.values = index.get? language := by
  obtain ⟨entries⟩ := index
  obtain ⟨hnodup, hlanguage⟩ := hkeyed
  unfold Index.keys at hnodup
  unfold Index.values Index.get?
  dsimp only at hnodup hlanguage ⊢
  induction entries with
  | nil => rfl
  | cons entry rest ih =>
      obtain ⟨other, grammar⟩ := entry
      rw [List.map_cons, List.nodup_cons] at hnodup
      obtain ⟨hfirst, hrest⟩ := List.forall_mem_cons.1 hlanguage
      have hlater := ih hnodup.2 hrest
      rw [registered?] at hlater ⊢
      rw [List.map_cons, List.lookup_cons, ← List.singleton_append, latest?_append, hlater, latest?,
        List.reverse_singleton, List.find?_singleton, hfirst]
      by_cases hkey : language = other
      · -- No later entry has the language.
        have hnone : rest.lookup language = none := by
          rw [List.lookup_eq_none_iff]
          intro later hmem
          rw [hkey, bne_iff_ne]
          rintro rfl
          exact hnodup.1 (List.mem_map.2 ⟨later, hmem, rfl⟩)
        rw [hnone, hkey, beq_self_eq_true]
        rfl
      · have hne : (language == other) = false := beq_eq_false_iff_ne.2 hkey
        have hne' : (other == language) = false := beq_eq_false_iff_ne.2 (Ne.symm hkey)
        rw [hne, hne', if_neg Bool.false_ne_true, Option.or_none]

/-- The grammars of a keyed index are found by their languages. -/
theorem Index.IsKeyed.mem_values_iff {index : Index Grammar} (hkeyed : index.IsKeyed)
    {grammar : Grammar} :
    grammar ∈ index.values ↔ index.get? grammar.language = some grammar := by
  constructor
  · intro hmem
    rcases List.mem_map.1 hmem with ⟨⟨language, found⟩, hentry, rfl⟩
    rw [hkeyed.language _ hentry]
    rcases List.append_of_mem hentry with ⟨front, back, hsplit⟩
    refine List.lookup_eq_some_iff.2 ⟨front, back, hsplit, fun entry hfront => ?_⟩
    have hnodup := hkeyed.nodup
    rw [keys, hsplit, List.map_append, List.map_cons] at hnodup
    have hapart := (List.nodup_append.1 hnodup).2.2 entry.1 (List.mem_map_of_mem hfront) _
      List.mem_cons_self
    rw [bne_iff_ne]
    exact Ne.symm hapart
  · intro hfound
    rcases List.lookup_eq_some_iff.1 hfound with ⟨front, back, hsplit, -⟩
    rw [values, hsplit, List.map_append, List.map_cons]
    exact List.mem_append_right _ List.mem_cons_self

/-! ## Collecting definitions -/

namespace Config

/-- Holds of a configuration that collects definitions. -/
structure Collects (config : Config) (definitions : List Grammar) : Prop where
  keyed : config.catalogue.grammars.IsKeyed
  grammars : ∀ language,
    config.catalogue.grammars.get? language = registered? language definitions
  extensions : ∀ extension,
    config.catalogue.byExtension.get? extension =
      (lister? Grammar.smallExtensions extension definitions).map (·.language)
  names : ∀ name,
    config.catalogue.byFilename.get? name =
      (lister? (·.filenames) name definitions).map (·.language)

variable {config : Config} {definitions : List Grammar}

/-- The configuration without grammars collects nothing. -/
theorem collects_empty : Config.empty.Collects [] :=
  ⟨⟨List.nodup_nil, fun _ hentry => absurd hentry List.not_mem_nil⟩, fun _ => rfl, fun _ => rfl,
    fun _ => rfl⟩

/-- A configuration collects a grammar that is added to it. -/
theorem Collects.add (hcollects : config.Collects definitions) (grammar : Grammar) :
    Config.Collects ⟨config.catalogue.add grammar⟩ (definitions ++ [grammar]) := by
  constructor
  · exact hcollects.keyed.put grammar
  · intro language
    rw [Catalogue.get?_grammars_add, hcollects.grammars, registered?_append_singleton]
  · intro extension
    rw [Catalogue.get?_byExtension_add, hcollects.extensions, lister?_append_singleton]
    split <;> rfl
  · intro name
    rw [Catalogue.get?_byFilename_add, hcollects.names, lister?_append_singleton]
    split <;> rfl

/-- A configuration collects the grammars that are added to it. -/
theorem Collects.addAll (hcollects : config.Collects definitions) (grammars : List Grammar) :
    (config.addAll grammars).Collects (definitions ++ grammars) := by
  induction grammars generalizing config definitions with
  | nil => rwa [List.append_nil]
  | cons first rest ih =>
      rw [List.append_cons]
      exact ih (hcollects.add first)

/-- The grammars in force are all definitions in their order, if no language is defined twice. -/
theorem values_addAll {definitions : List Grammar}
    (hnodup : (definitions.map (·.language)).Nodup) :
    (Config.empty.addAll definitions).catalogue.grammars.values = definitions := by
  induction definitions using List.reverseRecOn with
  | nil => rfl
  | append_singleton front last ih =>
      rw [List.map_append, List.map_singleton] at hnodup
      obtain ⟨hfront, -, hapart⟩ := List.nodup_append.1 hnodup
      have hvalues := ih hfront
      have hkeys := (collects_empty.addAll front).keyed.keys_eq
      rw [hvalues] at hkeys
      have hnew : last.language ∉ (Config.empty.addAll front).catalogue.grammars.keys := by
        rw [hkeys]
        exact fun hmem => hapart _ hmem _ (List.mem_singleton_self _) rfl
      have hadd : (Config.empty.addAll (front ++ [last])).catalogue =
          (Config.empty.addAll front).catalogue.add last := by
        rw [addAll, addAll, List.foldl_append]
        rfl
      rw [hadd, Catalogue.add, Index.values_put last hnew, hvalues]

/-- Loading files adds the grammars that they define. -/
theorem exists_addAll_of_loadFiles {parse : String → Option Data} {files : List GrammarFile}
    {loaded : Config} (hload : (loadFiles parse config files).result = .ok loaded) :
    ∃ grammars, loaded = config.addAll grammars := by
  induction files generalizing config with
  | nil =>
      cases hload
      exact ⟨[], rfl⟩
  | cons file rest ih =>
      rw [loadFiles] at hload
      split at hload
      · cases hload
      · split at hload
        · exact ih hload
        · split at hload
          · cases hload
          · rename_i grammars hgrammars
            rcases ih hload with ⟨more, rfl⟩
            refine ⟨grammars ++ more, ?_⟩
            rw [addAll, addAll, addAll, List.foldl_append]

/-- A loaded configuration collects some definitions. -/
theorem exists_collects_of_load {parse : String → Option Data}
    {locations : List (List GrammarFile)} (hload : (load parse locations).result = .ok config) :
    ∃ definitions, config.Collects definitions := by
  rcases exists_addAll_of_loadFiles hload with ⟨grammars, rfl⟩
  exact ⟨_, collects_empty.addAll grammars⟩

end Config

end CommentMarkers
