/-!
# Indexes

An index finds values by texts. It keeps its keys in the order in which they were first put in:
putting a value under a key that is there replaces the value and keeps the place.

Main results:

- Theorems `get?_put_self` and `get?_put_of_ne`: what a lookup finds after a value is put in.
- Theorems `get?_erase_self` and `get?_erase_of_ne`: what it finds after a key is erased.
-/

namespace CommentMarkers

/-- Values under texts, in the order in which the texts were first put in. -/
structure Index (α : Type) where
  entries : List (String × α)
  deriving DecidableEq, Repr

namespace Index

variable {α : Type}

/-- The index without keys. -/
def empty : Index α := ⟨[]⟩

/-- The value under a key. -/
def get? (index : Index α) (key : String) : Option α :=
  index.entries.lookup key

/-- Holds of the keys of an index. -/
def contains (index : Index α) (key : String) : Bool :=
  (index.get? key).isSome

/-- The keys of an index. -/
def keys (index : Index α) : List String :=
  index.entries.map (·.1)

/-- The values of an index. -/
def values (index : Index α) : List α :=
  index.entries.map (·.2)

/-- Puts a value in the place of the first entry with the key, or at the end. -/
def putEntry (key : String) (value : α) : List (String × α) → List (String × α)
  | [] => [(key, value)]
  | (other, old) :: rest =>
    if other = key then (key, value) :: rest else (other, old) :: putEntry key value rest

/-- Puts a value under a key. -/
def put (index : Index α) (key : String) (value : α) : Index α :=
  ⟨putEntry key value index.entries⟩

/-- Erases a key. -/
def erase (index : Index α) (key : String) : Index α :=
  ⟨index.entries.filter fun (other, _) => other != key⟩

/-! ## What lookups find -/

@[simp]
theorem get?_empty (key : String) : (empty : Index α).get? key = none :=
  rfl

private theorem lookup_putEntry_self (key : String) (value : α) (entries : List (String × α)) :
    (putEntry key value entries).lookup key = some value := by
  induction entries with
  | nil => simp [putEntry]
  | cons entry rest ih =>
    obtain ⟨other, old⟩ := entry
    unfold putEntry
    split
    · simp
    · next hne =>
      have hdiffers : (key == other) = false := by simpa using Ne.symm hne
      simp [List.lookup_cons, hdiffers, ih]

private theorem lookup_putEntry_of_ne {key other : String} (value : α) (hne : other ≠ key)
    (entries : List (String × α)) :
    (putEntry key value entries).lookup other = entries.lookup other := by
  have hdiffers : (other == key) = false := by simpa using hne
  induction entries with
  | nil => simp [putEntry, List.lookup_cons, hdiffers]
  | cons entry rest ih =>
    obtain ⟨name, old⟩ := entry
    unfold putEntry
    split
    · next hsame =>
      subst hsame
      simp [List.lookup_cons, hdiffers]
    · simp only [List.lookup_cons, ih]

/-- A value that was put in is found. -/
@[simp]
theorem get?_put_self (index : Index α) (key : String) (value : α) :
    (index.put key value).get? key = some value :=
  lookup_putEntry_self key value index.entries

/-- Putting a value in changes no other key. -/
theorem get?_put_of_ne (index : Index α) {key other : String} (value : α) (hne : other ≠ key) :
    (index.put key value).get? other = index.get? other :=
  lookup_putEntry_of_ne value hne index.entries

/-- An erased key is not found. -/
@[simp]
theorem get?_erase_self (index : Index α) (key : String) : (index.erase key).get? key = none := by
  unfold get? erase
  induction index.entries with
  | nil => rfl
  | cons entry rest ih =>
    obtain ⟨other, old⟩ := entry
    by_cases hsame : other = key
    · simpa [List.filter_cons, hsame] using ih
    · have hdiffers : (key == other) = false := by simpa using Ne.symm hsame
      simpa [List.filter_cons, hsame, List.lookup_cons, hdiffers] using ih

/-- Erasing a key changes no other one. -/
theorem get?_erase_of_ne (index : Index α) {key other : String} (hne : other ≠ key) :
    (index.erase key).get? other = index.get? other := by
  unfold get? erase
  induction index.entries with
  | nil => rfl
  | cons entry rest ih =>
    obtain ⟨name, old⟩ := entry
    by_cases hsame : name = key
    · have hdiffers : (other == name) = false := by simpa [hsame] using hne
      simp only [List.lookup_cons, hdiffers]
      simpa [List.filter_cons, hsame] using ih
    · by_cases hhit : other = name
      · simp [hsame, hhit]
      · have hdiffers : (other == name) = false := by simpa using hhit
        simpa [List.filter_cons, hsame, List.lookup_cons, hdiffers] using ih

end Index

end CommentMarkers
