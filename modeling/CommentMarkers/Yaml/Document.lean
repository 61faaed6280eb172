import CommentMarkers.Yaml.Node
import CommentMarkers.Yaml.Number

/-!
# Documents

The data that a document holds. A plain scalar is null, a truth value or a number if it is written
like one, and a text otherwise; a tag may ask for one of these types. Mappings keep their keys in
order, the last value of a key counts, and the key `<<` merges other mappings in.

Main results:

- Theorem `carriageReturn_not_mem_unifyLineEnds`: every line end is written as a newline.
- Theorem `isKey_of_parse`: the keys of a document's mapping are scalars.
-/

namespace CommentMarkers.Yaml

/-! ## Scalars -/

/-- The spellings of null. -/
def nullSpellings : List String :=
  ["", "~", "null", "Null", "NULL"]

/-- The spellings of true. -/
def trueSpellings : List String :=
  ["yes", "Yes", "YES", "true", "True", "TRUE", "on", "On", "ON"]

/-- The spellings of false. -/
def falseSpellings : List String :=
  ["no", "No", "NO", "false", "False", "FALSE", "off", "Off", "OFF"]

/-- The truth value that a scalar is. -/
def truthValue? (text : String) : Option Bool :=
  if trueSpellings.contains text then some true
  else if falseSpellings.contains text then some false
  else none

/-- The fraction that a scalar is, as data. -/
def fractionData? (text : String) : Option Data :=
  match fraction? text.toList with
  | some value => some (.decimal value)
  | none => (specialFractions.lookup text).map .text

/-- The scalars that have a meaning in mappings only. -/
def mappingSigns : List String := ["<<", "="]

/-- The data that an untagged plain scalar holds. -/
def plainData (text : String) : Option Data :=
  if nullSpellings.contains text then some .null
  else if mappingSigns.contains text then none
  else
    match truthValue? text with
    | some value => some (.bool value)
    | none =>
      match wholeNumber? text.toList with
      | some value => some (.int value)
      | none => some ((fractionData? text).getD (.text text))

/-- The data that a scalar with a tag holds. -/
def taggedData (tag text : String) : Option Data :=
  if tag = commonTag "str" then some (.text text)
  else if tag = commonTag "null" then some .null
  else if tag = commonTag "bool" then (truthValue? text).map .bool
  else if tag = commonTag "int" then (wholeNumber? text.toList).map .int
  else if tag = commonTag "float" then fractionData? text
  else none

/-- The data that a scalar holds. -/
def scalarData (tag : Option String) (plain : Bool) (text : String) : Option Data :=
  match tag with
  | none => if plain then plainData text else some (.text text)
  | some "!" => plainData text
  | some tag => taggedData tag text

/-! ## Collections -/

/-- Holds if a collection may have a tag. -/
def fitsTag (tag : Option String) (type : String) : Bool :=
  tag.all fun tag => tag == "!" || tag == commonTag type

/-- Holds of data that may be a key. -/
def isKey : Data → Bool
  | .list _ | .map _ => false
  | .null | .bool _ | .int _ | .decimal _ | .text _ => true

/-- Holds of the key that merges mappings in. -/
def isMergeKey : Node → Bool
  | .scalar none true text => text == "<<"
  | _ => false

/-- The entries of a mapping. -/
def mappingEntries? : Node → Option (List (Node × Node))
  | .mapping _ entries => some entries
  | .scalar _ _ _ | .sequence _ _ => none

/-- The mappings that a merge key merges in, the most important one last. -/
def mergedMappings : Node → Option (List (List (Node × Node)))
  | .mapping _ entries => some [entries]
  | .sequence _ items => (items.mapM mappingEntries?).map List.reverse
  | .scalar _ _ _ => none

/-- The entries of a mapping with the merged ones in front. Merging goes no deeper than `fuel`. -/
def mergeEntries (fuel : Nat) (entries : List (Node × Node)) : Option (List (Node × Node)) :=
  match fuel with
  | 0 => none
  | fuel + 1 => do
    let own := entries.filter fun (key, _) => !isMergeKey key
    let sources ← (entries.filter fun (key, _) => isMergeKey key).mapM fun (_, value) =>
      mergedMappings value
    let merged ← sources.flatten.mapM (mergeEntries fuel)
    return merged.flatten ++ own

/-- The data of a key: an equals sign is a text here. -/
def keyData? : Node → Option Data
  | .scalar none true "=" => some (.text "=")
  | .scalar tag plain text => scalarData tag plain text
  | .sequence _ _ | .mapping _ _ => none

/-- The data that a node holds, nested no deeper than `fuel`. -/
def nodeData (fuel : Nat) (node : Node) : Option Data :=
  match fuel with
  | 0 => none
  | fuel + 1 =>
    match node with
    | .scalar tag plain text => scalarData tag plain text
    | .sequence tag items =>
      if fitsTag tag "seq" then (items.mapM (nodeData fuel)).map .list else none
    | .mapping tag entries =>
      if fitsTag tag "map" then do
        let all ← mergeEntries (fuel + 1) entries
        let pairs ← all.mapM fun (key, value) => do
          return (← keyData? key, ← nodeData fuel value)
        return .map (pairs.foldl (fun found (key, value) => Data.putEntry found key value) [])
      else none

/-! ## Documents -/

/-- Holds of characters that a document may have. -/
def isAllowed (char : Char) : Bool :=
  let code := char.toNat
  code == 9 || code == 10 || code == 13 || (32 ≤ code && code ≤ 126) || code == 0x85
    || (0xA0 ≤ code && code ≤ 0xFFFD) || 0x10000 ≤ code

/-- Writes every line end as a newline. -/
def unifyLineEnds : List Char → List Char
  | [] => []
  | '\r' :: '\n' :: rest => '\n' :: unifyLineEnds rest
  | '\r' :: rest => '\n' :: unifyLineEnds rest
  | char :: rest => char :: unifyLineEnds rest

/-- The data that a document holds, if it is well-formed. -/
def parse (text : String) : Option Data := do
  let chars := unifyLineEnds text.toList
  if chars.all isAllowed then
    let found ← tokens chars
    let node ← nodeOfTokens found
    nodeData (found.length + 2) node
  else none

/-- Every line end is written as a newline. -/
theorem carriageReturn_not_mem_unifyLineEnds (text : List Char) :
    '\r' ∉ unifyLineEnds text := by
  fun_induction unifyLineEnds text with
  | case1 => simp
  | case2 rest ih => simpa using ih
  | case3 rest _ ih => simpa using ih
  | case4 char rest _ hother ih =>
    have hdiffers : char ≠ '\r' := fun hsame => hother hsame
    simpa [Ne.symm hdiffers] using ih

/-! ## Keys -/

private theorem isKey_of_fractionData? {text : String} {value : Data}
    (hvalue : fractionData? text = some value) : isKey value = true := by
  unfold fractionData? at hvalue
  split at hvalue
  · cases hvalue
    rfl
  · obtain ⟨special, -, rfl⟩ := Option.map_eq_some_iff.1 hvalue
    rfl

private theorem isKey_of_plainData {text : String} {value : Data}
    (hvalue : plainData text = some value) : isKey value = true := by
  unfold plainData at hvalue
  split at hvalue
  · cases hvalue
    rfl
  · split at hvalue
    · cases hvalue
    · split at hvalue
      · cases hvalue
        rfl
      · split at hvalue
        · cases hvalue
          rfl
        · cases hvalue
          cases found : fractionData? text with
          | none => rfl
          | some value => exact isKey_of_fractionData? found

private theorem isKey_of_taggedData {tag text : String} {value : Data}
    (hvalue : taggedData tag text = some value) : isKey value = true := by
  unfold taggedData at hvalue
  repeat' split at hvalue
  · cases hvalue
    rfl
  · cases hvalue
    rfl
  · obtain ⟨truth, -, rfl⟩ := Option.map_eq_some_iff.1 hvalue
    rfl
  · obtain ⟨number, -, rfl⟩ := Option.map_eq_some_iff.1 hvalue
    rfl
  · exact isKey_of_fractionData? hvalue
  · cases hvalue

/-- A scalar holds data that may be a key. -/
theorem isKey_of_scalarData {tag : Option String} {plain : Bool} {text : String} {value : Data}
    (hvalue : scalarData tag plain text = some value) : isKey value = true := by
  unfold scalarData at hvalue
  split at hvalue
  · split at hvalue
    · exact isKey_of_plainData hvalue
    · cases hvalue
      rfl
  · exact isKey_of_plainData hvalue
  · exact isKey_of_taggedData hvalue

private theorem isKey_of_keyData? {node : Node} {key : Data} (hkey : keyData? node = some key) :
    isKey key = true := by
  unfold keyData? at hkey
  split at hkey
  · cases hkey
    rfl
  · exact isKey_of_scalarData hkey
  · cases hkey
  · cases hkey

private theorem isKey_of_mem_putEntry {entries : List (Data × Data)} {key value : Data}
    (hkeys : ∀ entry ∈ entries, isKey entry.1 = true) (hkey : isKey key = true) :
    ∀ entry ∈ Data.putEntry entries key value, isKey entry.1 = true := by
  intro entry hmem
  unfold Data.putEntry at hmem
  split at hmem
  · obtain ⟨⟨other, old⟩, hinside, rfl⟩ := List.mem_map.1 hmem
    have hown := hkeys _ hinside
    dsimp only
    split <;> exact hown
  · rcases List.mem_append.1 hmem with hinside | hlast
    · exact hkeys entry hinside
    · rw [List.mem_singleton.1 hlast]
      exact hkey

private theorem isKey_of_mem_foldl {pairs entries : List (Data × Data)}
    (hnews : ∀ pair ∈ pairs, isKey pair.1 = true)
    (hkeys : ∀ entry ∈ entries, isKey entry.1 = true) :
    ∀ entry ∈ pairs.foldl (fun found (key, value) => Data.putEntry found key value) entries,
      isKey entry.1 = true := by
  induction pairs generalizing entries with
  | nil => exact hkeys
  | cons pair rest ih =>
    obtain ⟨hfirst, hmore⟩ := List.forall_mem_cons.1 hnews
    exact ih hmore (isKey_of_mem_putEntry hkeys hfirst)

private theorem isKey_of_mem_mapM {fuel : Nat} {entries : List (Node × Node)}
    {pairs : List (Data × Data)}
    (hpairs : (entries.mapM fun (key, value) => do
      return (← keyData? key, ← nodeData fuel value)) = some pairs) :
    ∀ pair ∈ pairs, isKey pair.1 = true := by
  induction entries generalizing pairs with
  | nil =>
    cases hpairs
    intro pair hnone
    cases hnone
  | cons entry rest ih =>
    rw [List.mapM_cons] at hpairs
    obtain ⟨pair, hfirst, hpairs⟩ := Option.bind_eq_some_iff.1 hpairs
    obtain ⟨others, hmore, hpairs⟩ := Option.bind_eq_some_iff.1 hpairs
    obtain ⟨key, hnamed, hfirst⟩ := Option.bind_eq_some_iff.1 hfirst
    obtain ⟨value, -, hfirst⟩ := Option.bind_eq_some_iff.1 hfirst
    cases hfirst
    cases hpairs
    exact List.forall_mem_cons.2 ⟨isKey_of_keyData? hnamed, ih hmore⟩

/-- The keys of a node's mapping may be keys, the merged ones included. -/
theorem isKey_of_nodeData {fuel : Nat} {node : Node} {entries : List (Data × Data)}
    (hentries : nodeData fuel node = some (.map entries)) :
    ∀ entry ∈ entries, isKey entry.1 = true := by
  cases fuel with
  | zero => cases hentries
  | succ fuel =>
    cases node with
    | scalar tag plain text => cases isKey_of_scalarData hentries
    | sequence tag items =>
      simp only [nodeData] at hentries
      split at hentries
      · obtain ⟨values, -, himpossible⟩ := Option.map_eq_some_iff.1 hentries
        cases himpossible
      · cases hentries
    | mapping tag own =>
      simp only [nodeData] at hentries
      split at hentries
      · obtain ⟨all, -, hentries⟩ := Option.bind_eq_some_iff.1 hentries
        obtain ⟨pairs, hfound, hentries⟩ := Option.bind_eq_some_iff.1 hentries
        cases hentries
        exact isKey_of_mem_foldl (isKey_of_mem_mapM hfound) (by simp)
      · cases hentries

/-- The keys of a document's mapping are scalars. -/
theorem isKey_of_parse {text : String} {entries : List (Data × Data)}
    (hentries : parse text = some (.map entries)) : ∀ entry ∈ entries, isKey entry.1 = true := by
  unfold parse at hentries
  dsimp only at hentries
  split at hentries
  · obtain ⟨found, -, hentries⟩ := Option.bind_eq_some_iff.1 hentries
    obtain ⟨node, -, hentries⟩ := Option.bind_eq_some_iff.1 hentries
    exact isKey_of_nodeData hentries
  · cases hentries

end CommentMarkers.Yaml
