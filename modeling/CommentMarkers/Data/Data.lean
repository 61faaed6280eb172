import CommentMarkers.Data.Decimal
import CommentMarkers.Text.Quoted

/-!
# Loosely typed data

Grammar definitions arrive as data whose shape nobody has checked. `Data` is such a value.
Mappings keep the order in which their keys first occurred.

Main results:

- Theorem `entry?_putEntry`: what a text key names after a text key was given a value.
-/

namespace CommentMarkers

/-- A loosely typed value. -/
inductive Data where
  | null
  | bool (value : Bool)
  | int (value : Int)
  | decimal (value : Decimal)
  | text (value : String)
  | list (items : List Data)
  | map (entries : List (Data × Data))
  deriving Repr, Inhabited

namespace Data

/-! ## Void values -/

/-- Holds of null, false, zero, and empty texts, lists and mappings. -/
def isVoid : Data → Bool
  | null => true
  | bool value => !value
  | int value => value == 0
  | decimal value => value.isZero
  | text value => value == ""
  | list items => items.isEmpty
  | map entries => entries.isEmpty

/-! ## Mappings -/

/-- The value of a text key in a list of entries. -/
def entry? (entries : List (Data × Data)) (key : String) : Option Data :=
  entries.findSome? fun
    | (text name, value) => if name = key then some value else none
    | _ => none

/-- The exact value of a number; a truth value counts as zero or one. -/
def number? : Data → Option (Int × Int)
  | bool value => some (if value then 1 else 0, 0)
  | int value =>
    let (coefficient, exponent) := Decimal.stripZeros value.natAbs 0
    some (if value < 0 then -coefficient else coefficient, exponent)
  | decimal value =>
    let short := value.normal
    some (if value.negative then -short.coefficient else short.coefficient, short.exponent)
  | null | text _ | list _ | map _ => none

/-- Holds if two values name the same entry of a mapping. Lists and mappings name no entry. -/
def sameKey : Data → Data → Bool
  | null, null => true
  | text first, text second => first == second
  | first, second =>
    match first.number?, second.number? with
    | some value, some other => value == other
    | _, _ => false

/-- Gives a key a value: a key that is there keeps its place and its spelling. -/
def putEntry (entries : List (Data × Data)) (key value : Data) : List (Data × Data) :=
  if entries.any (fun (other, _) => sameKey other key) then
    entries.map fun (other, old) => if sameKey other key then (other, value) else (other, old)
  else entries ++ [(key, value)]

/-- Only the text itself names the entry of a text. -/
private theorem sameKey_text_iff {other : Data} {key : String} :
    sameKey other (text key) = true ↔ other = text key := by
  cases other with
  | text name => simp [sameKey]
  | _ => simp [sameKey, number?]

private theorem entry?_cons (other value : Data) (rest : List (Data × Data)) (key : String) :
    entry? ((other, value) :: rest) key
      = if sameKey other (text key) then some value else entry? rest key := by
  unfold entry?
  cases other with
  | text name =>
    by_cases hsame : name = key
    · simp [sameKey, hsame]
    · simp [sameKey, hsame]
  | _ => simp [sameKey, number?]

private theorem entry?_append (entries more : List (Data × Data)) (key : String) :
    entry? (entries ++ more) key =
      match entry? entries key with
      | some value => some value
      | none => entry? more key := by
  unfold entry?
  rw [List.findSome?_append]
  split
  · next hfound => rw [hfound, Option.some_or]
  · next hmissing => rw [hmissing, Option.none_or]

private theorem entry?_eq_none {entries : List (Data × Data)} {key : String}
    (hnone : entries.any (fun (name, _) => sameKey name (text key)) = false) :
    entry? entries key = none := by
  induction entries with
  | nil => rfl
  | cons entry rest ih =>
    obtain ⟨name, old⟩ := entry
    simp only [List.any_cons, Bool.or_eq_false_iff] at hnone
    rw [entry?_cons, hnone.1, if_neg Bool.false_ne_true, ih hnone.2]

private theorem entry?_replaced_self {entries : List (Data × Data)} {key : String} (value : Data)
    (hany : entries.any (fun (name, _) => sameKey name (text key)) = true) :
    entry? (entries.map fun (name, old) =>
      if sameKey name (text key) then (name, value) else (name, old)) key = some value := by
  induction entries with
  | nil => cases hany
  | cons entry rest ih =>
    obtain ⟨name, old⟩ := entry
    simp only [List.any_cons, Bool.or_eq_true] at hany
    simp only [List.map_cons]
    by_cases hsame : sameKey name (text key) = true
    · rw [if_pos hsame, entry?_cons, if_pos hsame]
    · rw [if_neg hsame, entry?_cons, if_neg hsame]
      exact ih (hany.resolve_left hsame)

private theorem entry?_replaced_of_ne {key other : String} (hne : other ≠ key) (value : Data)
    (entries : List (Data × Data)) :
    entry? (entries.map fun (name, old) =>
      if sameKey name (text key) then (name, value) else (name, old)) other
      = entry? entries other := by
  induction entries with
  | nil => rfl
  | cons entry rest ih =>
    obtain ⟨name, old⟩ := entry
    simp only [List.map_cons]
    by_cases hsame : sameKey name (text key) = true
    · obtain rfl := sameKey_text_iff.1 hsame
      have hdiffers : ¬ sameKey (text key) (text other) = true := by
        simpa [sameKey] using Ne.symm hne
      rw [if_pos hsame, entry?_cons, entry?_cons, if_neg hdiffers, if_neg hdiffers, ih]
    · rw [if_neg hsame, entry?_cons, entry?_cons, ih]

/-- A text key that is given a value names this value, and the other text keys name what they
named. -/
theorem entry?_putEntry (entries : List (Data × Data)) (key other : String) (value : Data) :
    entry? (putEntry entries (text key) value) other
      = if other = key then some value else entry? entries other := by
  unfold putEntry
  by_cases hsame : other = key
  · subst hsame
    rw [if_pos rfl]
    split
    · next hknown => exact entry?_replaced_self value hknown
    · next hnew =>
      rw [entry?_append, entry?_eq_none (Bool.not_eq_true _ ▸ hnew), entry?_cons]
      simp [sameKey]
  · rw [if_neg hsame]
    split
    · exact entry?_replaced_of_ne hsame value entries
    · have hdiffers : ¬ sameKey (text key) (text other) = true := by
        simpa [sameKey] using Ne.symm hsame
      rw [entry?_append, entry?_cons, if_neg hdiffers]
      cases entry? entries other with
      | some found => rfl
      | none => rfl

/-! ## Display -/

mutual

/-- How a value is displayed inside another one. -/
def literal : Data → String
  | null => "None"
  | bool value => if value then "True" else "False"
  | int value => toString value
  | decimal value => value.text
  | text value => Text.quoted value
  | list items => "[" ++ ", ".intercalate (literals items) ++ "]"
  | map entries => "\x7b" ++ ", ".intercalate (entryLiterals entries) ++ "\x7d"

/-- How the items of a list are displayed. -/
def literals : List Data → List String
  | [] => []
  | item :: rest => literal item :: literals rest

/-- How the entries of a mapping are displayed. -/
def entryLiterals : List (Data × Data) → List String
  | [] => []
  | (key, value) :: rest => (literal key ++ ": " ++ literal value) :: entryLiterals rest

end

/-- How a value is displayed by itself: a text stands without quotation marks. -/
def display : Data → String
  | text value => value
  | other => literal other

end Data

end CommentMarkers
