import CommentMarkers.Grammar.Registry

/-!
# What the registry remembers

The registry is described by its history: the built-in grammars and those that were registered
after them, in this order.  Under each language it holds the grammar that was registered last.  An
extension or a file name leads to the grammar that listed it last, and to none once that grammar is
replaced: the index then forgets the key, even if another registered grammar lists it, too.

Main results:

- Theorem `indicated?_append_singleton`: where a key leads after one more registration.
- Theorem `Registry.Records.register`: registering a grammar adds it to the history.
- Theorem `Registry.records_builtin`: the history describes every registry.
-/

namespace CommentMarkers

/-! ## Indexes -/

/-- The extensions of a grammar in small letters. -/
def Grammar.smallExtensions (grammar : Grammar) : List String :=
  grammar.extensions.map Text.lower

/-- Several keys are put in with one value. -/
theorem Index.get?_foldl_put {α : Type} (value : α) (keys : List String) (index : Index α)
    (key : String) :
    (keys.foldl (fun index key => index.put key value) index).get? key =
      if key ∈ keys then some value else index.get? key := by
  induction keys generalizing index with
  | nil => rfl
  | cons first rest ih =>
      rw [List.foldl_cons, ih]
      by_cases hrest : key ∈ rest
      · rw [if_pos hrest, if_pos (List.mem_cons_of_mem _ hrest)]
      · rw [if_neg hrest]
        by_cases hfirst : key = first
        · subst hfirst
          rw [get?_put_self, if_pos List.mem_cons_self]
        · rw [get?_put_of_ne index value hfirst, if_neg (by simp [hfirst, hrest])]

namespace Catalogue

/-- A key is taken out if it indicates a language. -/
theorem get?_forgetKey (language : String) (index : Index String) (key other : String) :
    (forgetKey language index key).get? other =
      if other = key then (index.get? other).filter (· != language) else index.get? other := by
  unfold forgetKey
  by_cases hkey : other = key
  · subst hkey
    rw [if_pos rfl]
    split
    · rename_i hsame
      rw [Index.get?_erase_self, hsame, Option.filter_some, if_neg (by simp)]
    · rename_i hother
      cases hfound : index.get? other with
      | none => rfl
      | some found =>
          have hne : (found != language) = true := by
            rw [hfound, Option.some.injEq] at hother
            simpa using hother
          rw [Option.filter_some, if_pos hne]
  · rw [if_neg hkey]
    split
    · exact Index.get?_erase_of_ne index hkey
    · rfl

/-- Of several keys those that indicate a language are taken out. -/
theorem get?_foldl_forgetKey (language : String) (keys : List String) (index : Index String)
    (key : String) :
    (keys.foldl (forgetKey language) index).get? key =
      if key ∈ keys then (index.get? key).filter (· != language) else index.get? key := by
  induction keys generalizing index with
  | nil => rfl
  | cons first rest ih =>
      rw [List.foldl_cons, ih, get?_forgetKey]
      by_cases hfirst : key = first
      · rw [if_pos hfirst, if_pos (List.mem_cons.2 (Or.inl hfirst)), Option.filter_filter]
        simp only [Bool.and_self, ite_self]
      · rw [if_neg hfirst]
        simp only [List.mem_cons, hfirst, false_or]

/-- What the extensions lead to when a grammar is added. -/
theorem get?_byExtension_add (catalogue : Catalogue) (grammar : Grammar) (extension : String) :
    (catalogue.add grammar).byExtension.get? extension =
      if extension ∈ grammar.smallExtensions then some grammar.language
      else catalogue.byExtension.get? extension := by
  rw [← Index.get?_foldl_put, Grammar.smallExtensions, List.foldl_map]
  rfl

/-- What the file names lead to when a grammar is added. -/
theorem get?_byFilename_add (catalogue : Catalogue) (grammar : Grammar) (name : String) :
    (catalogue.add grammar).byFilename.get? name =
      if name ∈ grammar.filenames then some grammar.language
      else catalogue.byFilename.get? name :=
  Index.get?_foldl_put grammar.language grammar.filenames catalogue.byFilename name

/-- What the languages lead to when a grammar is added. -/
theorem get?_grammars_add (catalogue : Catalogue) (grammar : Grammar) (language : String) :
    (catalogue.add grammar).grammars.get? language =
      if grammar.language = language then some grammar
      else catalogue.grammars.get? language := by
  unfold add
  split
  · rename_i hsame
    rw [hsame, Index.get?_put_self]
  · rename_i hne
    exact Index.get?_put_of_ne _ _ (Ne.symm hne)

end Catalogue

/-! ## Histories -/

/-- The last grammar of a history with a property. -/
def latest? (holds : Grammar → Bool) (history : List Grammar) : Option Grammar :=
  history.reverse.find? holds

/-- The last of several grammars with a property is one of the later ones, if they have one. -/
theorem latest?_append (holds : Grammar → Bool) (earlier later : List Grammar) :
    latest? holds (earlier ++ later) = (latest? holds later).or (latest? holds earlier) := by
  rw [latest?, List.reverse_append, List.find?_append]
  rfl

/-- A new grammar is the last one if it has the property. -/
theorem latest?_append_singleton (holds : Grammar → Bool) (history : List Grammar)
    (grammar : Grammar) :
    latest? holds (history ++ [grammar]) =
      if holds grammar then some grammar else latest? holds history := by
  rw [latest?_append, latest?, List.reverse_singleton, List.find?_singleton]
  split <;> rfl

/-- The last grammar with a property is one of the grammars. -/
theorem mem_of_latest? {holds : Grammar → Bool} {history : List Grammar} {grammar : Grammar}
    (hlatest : latest? holds history = some grammar) : grammar ∈ history :=
  List.mem_reverse.1 (List.mem_of_find?_eq_some hlatest)

/-- The last grammar with a property has this property. -/
theorem holds_of_latest? {holds : Grammar → Bool} {history : List Grammar} {grammar : Grammar}
    (hlatest : latest? holds history = some grammar) : holds grammar = true :=
  List.find?_some hlatest

/-- Of the grammars with a property, the last one is also the last one with some further property
that it has. -/
theorem latest?_and {holds more : Grammar → Bool} {history : List Grammar} {grammar : Grammar}
    (hlatest : latest? holds history = some grammar) (hmore : more grammar = true) :
    latest? (fun other => more other && holds other) history = some grammar := by
  rcases List.find?_eq_some_iff_append.1 hlatest with ⟨hholds, before, after, hsplit, hbefore⟩
  refine List.find?_eq_some_iff_append.2 ⟨by simp [hholds, hmore], before, after, hsplit, ?_⟩
  intro other hother
  have hnot := hbefore other hother
  simp only [Bool.not_eq_eq_eq_not, Bool.not_true] at hnot ⊢
  rw [hnot, Bool.and_false]

/-- The grammar that was registered last for a language. -/
def registered? (language : String) (history : List Grammar) : Option Grammar :=
  latest? (·.language == language) history

/-- Holds of a grammar that is the last one of its language. -/
def isCurrent (history : List Grammar) (grammar : Grammar) : Bool :=
  registered? grammar.language history == some grammar

/-- The last grammar that lists a key. -/
def lister? (keys : Grammar → List String) (key : String) (history : List Grammar) :
    Option Grammar :=
  latest? (fun grammar => (keys grammar).contains key) history

/-- The language that a key leads to: the one of the last grammar that lists it, unless this grammar
is replaced. -/
def indicated? (keys : Grammar → List String) (key : String) (history : List Grammar) :
    Option String :=
  ((lister? keys key history).filter (isCurrent history)).map (·.language)

variable {keys : Grammar → List String} {key language : String} {history : List Grammar}
  {grammar : Grammar}

/-- If a grammar of a history lists a key, then one of them is the last to list it. -/
theorem exists_lister? (hmem : grammar ∈ history) (hlists : key ∈ keys grammar) :
    ∃ last, lister? keys key history = some last := by
  refine Option.isSome_iff_exists.1 (List.find?_isSome.2 ⟨grammar, List.mem_reverse.2 hmem, ?_⟩)
  exact List.contains_iff_mem.2 hlists

/-- The last grammar of a language is one of that language. -/
theorem language_of_registered? (hregistered : registered? language history = some grammar) :
    grammar.language = language := by
  simpa using holds_of_latest? hregistered

/-- The last grammar of a language is current. -/
theorem isCurrent_of_registered? (hregistered : registered? language history = some grammar) :
    isCurrent history grammar = true := by
  rw [isCurrent, language_of_registered? hregistered, hregistered]
  exact beq_self_eq_true _

/-- A key leads to the language of a grammar that is registered and lists it. -/
theorem indicated?_eq_some_iff :
    indicated? keys key history = some language ↔
      ∃ grammar, lister? keys key history = some grammar ∧
        registered? language history = some grammar := by
  simp only [indicated?, Option.map_eq_some_iff, Option.filter_eq_some_iff]
  constructor
  · rintro ⟨grammar, ⟨hlister, hcurrent⟩, rfl⟩
    exact ⟨grammar, hlister, by simpa [isCurrent] using hcurrent⟩
  · rintro ⟨grammar, hlister, hregistered⟩
    exact ⟨grammar, ⟨hlister, isCurrent_of_registered? hregistered⟩,
      language_of_registered? hregistered⟩

/-- A key leads to the language of a registered grammar that lists it. -/
theorem exists_of_indicated? (hfound : indicated? keys key history = some language) :
    ∃ grammar, registered? language history = some grammar ∧ key ∈ keys grammar := by
  rcases indicated?_eq_some_iff.1 hfound with ⟨grammar, hlister, hregistered⟩
  exact ⟨grammar, hregistered, List.contains_iff_mem.1 (holds_of_latest? hlister)⟩

/-- A new grammar is the one that is registered for its language. -/
theorem registered?_append_singleton (language : String) (history : List Grammar)
    (grammar : Grammar) :
    registered? language (history ++ [grammar]) =
      if grammar.language = language then some grammar else registered? language history := by
  rw [registered?, latest?_append_singleton]
  simp only [beq_iff_eq]
  rfl

/-- A new grammar is the last one that lists its keys. -/
theorem lister?_append_singleton (keys : Grammar → List String) (key : String)
    (history : List Grammar) (grammar : Grammar) :
    lister? keys key (history ++ [grammar]) =
      if key ∈ keys grammar then some grammar else lister? keys key history := by
  rw [lister?, latest?_append_singleton]
  simp only [List.contains_iff_mem]
  rfl

/-- The keys of a new grammar lead to its language, and no other key does so any more. -/
theorem indicated?_append_singleton (keys : Grammar → List String) (key : String)
    (history : List Grammar) (grammar : Grammar) :
    indicated? keys key (history ++ [grammar]) =
      if key ∈ keys grammar then some grammar.language
      else (indicated? keys key history).filter (· != grammar.language) := by
  have hlister := lister?_append_singleton keys key history grammar
  split
  · rename_i hlists
    rw [indicated?_eq_some_iff]
    refine ⟨grammar, ?_, ?_⟩
    · rw [hlister, if_pos hlists]
    · rw [registered?_append_singleton, if_pos rfl]
  · rename_i hlists
    rw [if_neg hlists] at hlister
    ext language
    rw [Option.filter_eq_some_iff, indicated?_eq_some_iff, indicated?_eq_some_iff, hlister]
    constructor
    · rintro ⟨last, hlast, hregistered⟩
      rw [registered?_append_singleton] at hregistered
      split at hregistered
      · -- The new grammar does not list the key.
        cases hregistered
        have hkey := holds_of_latest? hlast
        exact absurd (List.contains_iff_mem.1 hkey) hlists
      · rename_i hne
        exact ⟨⟨last, hlast, hregistered⟩, by simpa using Ne.symm hne⟩
    · rintro ⟨⟨last, hlast, hregistered⟩, hne⟩
      refine ⟨last, hlast, ?_⟩
      rw [registered?_append_singleton, if_neg (Ne.symm (by simpa using hne)), hregistered]

/-! ## The registry and its history -/

/-- Holds of a registry that a history describes. -/
structure Registry.Records (registry : Registry) (history : List Grammar) : Prop where
  grammars : ∀ language,
    registry.catalogue.grammars.get? language = registered? language history
  extensions : ∀ extension,
    registry.catalogue.byExtension.get? extension =
      indicated? Grammar.smallExtensions extension history
  names : ∀ name,
    registry.catalogue.byFilename.get? name = indicated? (·.filenames) name history

/-- The history of the registry without grammars is empty. -/
theorem Registry.records_empty : Registry.empty.Records [] :=
  ⟨fun _ => rfl, fun _ => rfl, fun _ => rfl⟩

/-- No key leads to a language without a grammar. -/
theorem filter_indicated?_of_eq_none (keys : Grammar → List String) (key : String)
    (hnone : registered? language history = none) :
    (indicated? keys key history).filter (· != language) = indicated? keys key history := by
  cases hfound : indicated? keys key history with
  | none => rfl
  | some found =>
      rcases exists_of_indicated? hfound with ⟨last, hregistered, -⟩
      have hne : (found != language) = true := by
        rw [bne_iff_ne]
        rintro rfl
        rw [hnone] at hregistered
        cases hregistered
      rw [Option.filter_some, if_pos hne]

/-- Forgetting the last grammar of a language takes out all keys that lead to this language: it
lists each of them. -/
theorem get?_foldl_forgetKey_of_registered? {index : Index String} {earlier : Grammar}
    (hindex : ∀ key, index.get? key = indicated? keys key history)
    (hearlier : registered? language history = some earlier) (key : String) :
    ((keys earlier).foldl (Catalogue.forgetKey language) index).get? key =
      (indicated? keys key history).filter (· != language) := by
  rw [Catalogue.get?_foldl_forgetKey, hindex]
  split
  · rfl
  · rename_i hkey
    cases hfound : indicated? keys key history with
    | none => rfl
    | some found =>
        rcases exists_of_indicated? hfound with ⟨last, hregistered, hlists⟩
        have hne : (found != language) = true := by
          rw [bne_iff_ne]
          rintro rfl
          rw [hearlier] at hregistered
          cases hregistered
          exact hkey hlists
        rw [Option.filter_some, if_pos hne]

namespace Registry

variable {registry : Registry}

/-- Before a grammar is added, no key leads to its language any more. -/
theorem Records.exists_cleared (hrecords : registry.Records history) (grammar : Grammar) :
    ∃ cleared : Catalogue, registry.register grammar = ⟨cleared.add grammar⟩ ∧
      (∀ language, cleared.grammars.get? language = registered? language history) ∧
      (∀ extension, cleared.byExtension.get? extension =
        (indicated? Grammar.smallExtensions extension history).filter (· != grammar.language)) ∧
      ∀ name, cleared.byFilename.get? name =
        (indicated? (·.filenames) name history).filter (· != grammar.language) := by
  unfold register
  cases hearlier : registered? grammar.language history with
  | none =>
      rw [hrecords.grammars, hearlier]
      refine ⟨registry.catalogue, rfl, hrecords.grammars, fun extension => ?_, fun name => ?_⟩
      · rw [hrecords.extensions, filter_indicated?_of_eq_none _ _ hearlier]
      · rw [hrecords.names, filter_indicated?_of_eq_none _ _ hearlier]
  | some earlier =>
      rw [hrecords.grammars, hearlier]
      have hlanguage := language_of_registered? hearlier
      refine ⟨registry.catalogue.forget earlier, rfl, hrecords.grammars, ?_, ?_⟩
      · rw [← hlanguage] at hearlier ⊢
        exact get?_foldl_forgetKey_of_registered? hrecords.extensions hearlier
      · rw [← hlanguage] at hearlier ⊢
        exact get?_foldl_forgetKey_of_registered? hrecords.names hearlier

/-- Registering a grammar adds it to the history. -/
theorem Records.register (hrecords : registry.Records history) (grammar : Grammar) :
    (registry.register grammar).Records (history ++ [grammar]) := by
  rcases hrecords.exists_cleared grammar with ⟨cleared, hcleared, hgrammars, hextensions, hnames⟩
  rw [hcleared]
  constructor
  · intro language
    rw [Catalogue.get?_grammars_add, hgrammars, registered?_append_singleton]
  · intro extension
    rw [Catalogue.get?_byExtension_add, hextensions, indicated?_append_singleton]
  · intro name
    rw [Catalogue.get?_byFilename_add, hnames, indicated?_append_singleton]

/-- Registering grammars adds them to the history. -/
theorem Records.registerAll (hrecords : registry.Records history) (grammars : List Grammar) :
    (registry.registerAll grammars).Records (history ++ grammars) := by
  induction grammars generalizing registry history with
  | nil => rwa [List.append_nil]
  | cons first rest ih =>
      rw [List.append_cons]
      exact ih (hrecords.register first)

/-- The history of a registry are the built-in grammars and those that were registered later. -/
theorem records_builtin (grammars : List Grammar) :
    (builtin.registerAll grammars).Records (Grammar.builtin ++ grammars) :=
  (records_empty.registerAll Grammar.builtin).registerAll grammars

end Registry

end CommentMarkers
